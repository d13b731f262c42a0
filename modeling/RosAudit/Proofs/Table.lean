import Mathlib.Data.List.Nodup
import RosAudit.Table

/-!
# What a table holds

`get?_put` says what a table answers after a value was put, `get?_erase_self` and `get?_erase_of_ne`
what it answers after a key was taken out, `get?_modify` what it answers after a value was changed,
`putAll_append` that putting one list of pairs after another is putting both, and `entries_ofList`
and `get?_eq_some_iff` what a table holds whose keys are all different. They stay different when a
value is put (`nodup_keys_put`).
-/

namespace RosAudit.Table

open List

variable {κ α : Type} [BEq κ] [LawfulBEq κ] (t : Table κ α) (k : κ)

theorem get?_put (a : α) (j : κ) : (t.put k a).get? j = if j == k then some a else t.get? j := by
  obtain ⟨es⟩ := t
  simp only [get?, put]
  induction es with
  | nil => by_cases h : j = k <;> simp [putEntry, h]
  | cons e es ih =>
    obtain ⟨k', b⟩ := e
    unfold putEntry
    split
    · rename_i hk
      obtain rfl := eq_of_beq hk
      cases h : j == k <;> simp [lookup_cons, h]
    · rename_i hk
      rw [lookup_cons, lookup_cons, ih]
      by_cases h : j = k
      · simp [h, Bool.eq_false_iff.mpr hk]
      · simp [h]

@[simp] theorem get?_put_self (a : α) : (t.put k a).get? k = some a := by
  simp [get?_put]

theorem get?_erase_self : (t.erase k).get? k = none := by
  rw [get?, List.lookup_eq_none_iff]
  intro e he
  simpa using (mem_filter.mp he).2

theorem get?_erase_of_ne {k j} (h : j ≠ k) : (t.erase k).get? j = t.get? j := by
  obtain ⟨es⟩ := t
  simp only [get?, erase]
  induction es with
  | nil => rfl
  | cons e es ih =>
    by_cases hk : k = e.1
    · have hj : (j == e.1) = false := by simpa [hk] using h
      rw [filter_cons_of_neg (by simp [hk]), ih, lookup_cons, hj]
    · rw [filter_cons_of_pos (by simp [hk]), lookup_cons, lookup_cons, ih]

omit [LawfulBEq κ] in
theorem putAll_append (es es') : t.putAll (es ++ es') = (t.putAll es).putAll es' :=
  foldl_append

theorem get?_put_of_ne {k j} (a : α) (h : j ≠ k) : (t.put k a).get? j = t.get? j := by
  simp [get?_put, h]

omit [LawfulBEq κ] in
theorem get?_map {β : Type} (f : α → β) (t : Table κ α) (k : κ) :
    (t.map f).get? k = (t.get? k).map f := by
  obtain ⟨es⟩ := t
  simp only [get?, map]
  induction es with
  | nil => rfl
  | cons e es ih =>
    rw [map_cons, lookup_cons, lookup_cons, ih]
    cases k == e.1 <;> rfl

theorem putEntry_of_not_mem {k} (a : α) : ∀ {es : List (κ × α)}, k ∉ es.map Prod.fst →
    putEntry k a es = es ++ [(k, a)]
  | [], _ => rfl
  | (k', a') :: es, h => by
    rw [map_cons, mem_cons, not_or] at h
    simp [putEntry, h.1, putEntry_of_not_mem a h.2]

variable {es : List (κ × α)}

theorem entries_putAll {t : Table κ α}
    (h : ((t.entries ++ es).map Prod.fst).Nodup) : (t.putAll es).entries = t.entries ++ es := by
  induction es generalizing t with
  | nil => simp [putAll]
  | cons e es ih =>
    have hput : (t.put e.1 e.2).entries = t.entries ++ [e] := by
      refine putEntry_of_not_mem e.2 fun hmem => ?_
      rw [map_append, nodup_append] at h
      exact h.2.2 _ hmem _ mem_cons_self rfl
    rw [append_cons] at h ⊢
    rw [← hput] at h ⊢
    exact ih h

theorem entries_ofList (h : (es.map Prod.fst).Nodup) : (ofList es).entries = es :=
  entries_putAll h

theorem putEntry_append {k} (a b : α) (after : List (κ × α)) :
    ∀ {before}, k ∉ before.map Prod.fst →
      putEntry k a (before ++ (k, b) :: after) = before ++ (k, a) :: after
  | [], _ => by simp [putEntry]
  | (k', a') :: before, h => by
    rw [map_cons, mem_cons, not_or] at h
    simp [putEntry, h.1, putEntry_append a b after h.2]

theorem keys_put (a : α) : (t.put k a).keys = t.keys ∧ k ∈ t.keys ∨
    (t.put k a).keys = t.keys ++ [k] ∧ k ∉ t.keys := by
  obtain ⟨es⟩ := t
  simp only [keys, put]
  induction es with
  | nil => exact .inr ⟨rfl, not_mem_nil⟩
  | cons e es ih =>
    unfold putEntry
    split
    · rename_i hk
      exact .inl ⟨rfl, mem_cons.mpr (.inl (eq_of_beq hk))⟩
    · rename_i hk
      simpa [ne_of_beq_false (Bool.eq_false_iff.mpr hk)] using ih

theorem mem_keys_put {t : Table κ α} {k j a} : j ∈ (t.put k a).keys ↔ j = k ∨ j ∈ t.keys := by
  rcases t.keys_put k a with ⟨hkeys, hk⟩ | ⟨hkeys, -⟩ <;> rw [hkeys]
  · exact ⟨.inr, fun h => h.elim (· ▸ hk) id⟩
  · simp [or_comm]

theorem nodup_keys_put {t : Table κ α} (h : t.keys.Nodup) (k : κ) (a : α) :
    (t.put k a).keys.Nodup := by
  rcases t.keys_put k a with ⟨hkeys, -⟩ | ⟨hkeys, hk⟩ <;> rw [hkeys]
  · exact h
  · rw [← concat_eq_append]
    exact h.concat hk

theorem get?_eq_some_iff {t : Table κ α} (h : t.keys.Nodup) {k a} :
    t.get? k = some a ↔ (k, a) ∈ t.entries := by
  obtain ⟨es⟩ := t
  simp only [keys, get?] at h ⊢
  induction es with
  | nil => simp
  | cons e es ih =>
    obtain ⟨k', a'⟩ := e
    rw [map_cons, nodup_cons] at h
    rw [lookup_cons]
    by_cases hk : k = k'
    · subst hk
      have hmem : (k, a) ∉ es := fun hmem => h.1 (mem_map.mpr ⟨_, hmem, rfl⟩)
      simp [hmem, eq_comm]
    · have hbeq : (k == k') = false := by simpa using hk
      rw [hbeq, ih h.2]
      simp [hk]

theorem get?_modify (f : α → α) (j : κ) :
    (t.modify k f).get? j = if j == k then (t.get? j).map f else t.get? j := by
  obtain ⟨es⟩ := t
  simp only [get?, modify]
  induction es with
  | nil => simp
  | cons e es ih =>
    rw [map_cons, lookup_cons, lookup_cons, ih]
    cases hj : j == k with
    | true => cases hk : k == e.1 <;> simp [eq_of_beq hj, hk]
    | false =>
      cases hk : k == e.1
      · simp
      · simp [← eq_of_beq hk, hj]

theorem get?_putAll (h : (es.map Prod.fst).Nodup) (t : Table κ α) (k : κ) :
    (t.putAll es).get? k = (es.lookup k).or (t.get? k) := by
  induction es generalizing t with
  | nil => rfl
  | cons e es ih =>
    obtain ⟨he, hes⟩ := nodup_cons.mp h
    have hput : (t.putAll (e :: es)).get? k = ((t.put e.1 e.2).putAll es).get? k := rfl
    rw [hput, ih hes, lookup_cons]
    by_cases hk : k = e.1
    · have hnone : es.lookup k = none := by
        rw [List.lookup_eq_none_iff]
        intro e' he'
        rw [hk, bne_iff_ne]
        intro heq
        exact he (heq ▸ mem_map_of_mem he')
      rw [hnone, hk, get?_put_self, beq_self_eq_true]
      rfl
    · rw [get?_put_of_ne _ _ hk, beq_eq_false_iff_ne.mpr hk]

theorem nodup_keys_putAll {t : Table κ α} (h : t.keys.Nodup) (es) : (t.putAll es).keys.Nodup := by
  induction es generalizing t with
  | nil => exact h
  | cons e es ih => exact ih (nodup_keys_put h e.1 e.2)

end RosAudit.Table
