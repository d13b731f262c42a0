import Mathlib.Data.List.Infix
import Mathlib.Data.List.TakeWhile
import RosAudit.FileTree

/-!
# Lines and parts of texts

`occursIn_iff` says that the search for a part is the infix relation. A part that neither begins
nor ends with a blank is found in a text exactly if it is found in the text without the blanks
around it (`IsSolid.infix_trimChars`).

`IsLines` says what the lines of a text are, each with its line feed, and `isLines_keptLines` that
`keptLines` cuts a text into them. The pieces of a text between the occurrences of a character do
not hold it (`not_mem_of_mem_splitOnChar`), so no name in a folder has a slash
(`FileTree.not_mem_of_mem_names`).
-/

namespace RosAudit

open List

namespace Text

/-! ## Parts -/

variable {part : List Char}

theorem occursIn_iff : ∀ {cs}, occursIn part cs = true ↔ part <:+: cs
  | [] => by simp [occursIn]
  | c :: cs => by
    rw [occursIn, Bool.or_eq_true, occursIn_iff, infix_cons_iff, isPrefixOf_iff_prefix]

/-- The first and the last character are there, and are no blanks. -/
structure IsSolid (part : List Char) : Prop where
  head : ∃ c, part.head? = some c ∧ isBlank c = false
  last : ∃ c, part.getLast? = some c ∧ isBlank c = false

theorem infix_dropWhile (hpart : ∃ c, part.head? = some c ∧ isBlank c = false) :
    ∀ {cs}, part <:+: cs.dropWhile isBlank ↔ part <:+: cs
  | [] => Iff.rfl
  | c :: cs => by
    by_cases hc : isBlank c
    · rw [dropWhile_cons_of_pos hc, infix_dropWhile hpart, infix_cons_iff]
      refine ⟨.inr, fun h => h.resolve_left fun hprefix => ?_⟩
      obtain ⟨d, hd, hblank⟩ := hpart
      obtain ⟨rest, rfl⟩ := head?_eq_some_iff.mp hd
      rw [(cons_prefix_cons.mp hprefix).1, hc] at hblank
      cases hblank
    · rw [dropWhile_cons_of_neg hc]

theorem IsSolid.infix_trimChars (h : IsSolid part) (cs : List Char) :
    part <:+: trimChars cs ↔ part <:+: cs := by
  have hright (cs : List Char) : part <:+: trimRight cs ↔ part <:+: cs := by
    have hhead := h.last
    rw [← head?_reverse] at hhead
    rw [trimRight, ← reverse_infix, reverse_reverse, infix_dropWhile hhead, reverse_infix]
  rw [trimChars, hright, trimLeft, infix_dropWhile h.head]

theorem IsSolid.ne_nil (h : IsSolid part) : part ≠ [] := by
  rintro rfl
  obtain ⟨c, hc, -⟩ := h.head
  cases hc

theorem forall_mem_dropWhile {p} : ∀ {cs : List Char},
    (∀ c ∈ cs.dropWhile p, p c = true) ↔ ∀ c ∈ cs, p c = true
  | [] => Iff.rfl
  | c :: cs => by
    by_cases hc : p c
    · rw [dropWhile_cons_of_pos hc, forall_mem_dropWhile, forall_mem_cons, and_iff_right hc]
    · rw [dropWhile_cons_of_neg hc]

theorem isEmpty_trimChars (cs : List Char) : (trimChars cs).isEmpty = cs.all isBlank := by
  rw [Bool.eq_iff_iff, List.isEmpty_iff, trimChars, trimRight, reverse_eq_nil_iff,
    dropWhile_eq_nil_iff, all_eq_true]
  simp only [mem_reverse]
  exact forall_mem_dropWhile

/-! ## Lines -/

/-- The lines of a text, each with the line feed that ends it. Only the last may have none. -/
structure IsLines (text : String) (ls : List String) : Prop where
  together : (ls.map String.toList).flatten = text.toList
  ended : ∀ l ∈ ls.dropLast, l.toList.getLast? = some '\n'
  single : ∀ l ∈ ls, l.toList ≠ [] ∧ '\n' ∉ l.toList.dropLast

theorem IsLines.cons {text line ls} (h : IsLines (String.ofList text) ls) (hline : '\n' ∉ line) :
    IsLines (String.ofList (line ++ '\n' :: text)) (String.ofList (line ++ ['\n']) :: ls) where
  together := by simp [h.together]
  ended l hl := by
    cases ls with
    | nil => cases hl
    | cons l' ls =>
      rcases mem_cons.mp hl with rfl | hl
      · simp
      · exact h.ended l hl
  single := forall_mem_cons.mpr ⟨by simpa using hline, h.single⟩

theorem isLines_keptLinesFrom (cur cs : List Char) (hcur : '\n' ∉ cur) :
    IsLines (String.ofList (cur.reverse ++ cs)) ((keptLinesFrom cur cs).map String.ofList) := by
  fun_induction keptLinesFrom cur cs with
  | case1 cur hempty =>
    rw [List.isEmpty_iff.mp hempty]
    exact ⟨rfl, forall_mem_nil _, forall_mem_nil _⟩
  | case2 cur hempty =>
    refine ⟨by simp, forall_mem_nil _, forall_mem_singleton.mpr ?_⟩
    rw [String.toList_ofList]
    exact ⟨by simpa using hempty, fun h => hcur (mem_reverse.mp (mem_of_mem_dropLast h))⟩
  | case3 cur cs ih =>
    rw [reverse_cons]
    exact (ih not_mem_nil).cons (by simpa using hcur)
  | case4 cur c cs hc ih =>
    rw [reverse_cons, append_assoc] at ih
    refine ih ?_
    rw [mem_cons, not_or]
    exact ⟨fun h => hc h.symm, hcur⟩

theorem isLines_keptLines (s : String) : IsLines s (keptLines s) := by
  simpa [keptLines] using isLines_keptLinesFrom [] s.toList not_mem_nil

/-! ## Pieces -/

theorem not_mem_of_mem_splitCharsFrom {cut a} (ha : cut a = true) {piece} :
    ∀ {cs cur}, a ∉ cur → piece ∈ splitCharsFrom cut cur cs → a ∉ piece
  | [], cur, hcur, h => by
    rw [splitCharsFrom, mem_singleton] at h
    rwa [h, mem_reverse]
  | c :: cs, cur, hcur, h => by
    rw [splitCharsFrom] at h
    split at h
    · rcases mem_cons.mp h with rfl | h
      · rwa [mem_reverse]
      · exact not_mem_of_mem_splitCharsFrom ha not_mem_nil h
    · rename_i hc
      refine not_mem_of_mem_splitCharsFrom ha ?_ h
      rw [mem_cons, not_or]
      exact ⟨fun hac => hc (hac ▸ ha), hcur⟩

theorem not_mem_of_mem_splitOnChar {sep s piece} (h : piece ∈ splitOnChar sep s) :
    sep ∉ piece.toList := by
  obtain ⟨cs, hcs, rfl⟩ := mem_map.mp h
  rw [String.toList_ofList]
  exact not_mem_of_mem_splitCharsFrom (by simp) not_mem_nil hcs

theorem append_cons_inj {sep : Char} {a a' b b' : List Char} (hb : sep ∉ b) (hb' : sep ∉ b')
    (h : a ++ sep :: b = a' ++ sep :: b') : a = a' ∧ b = b' := by
  rcases append_eq_append_iff.mp h with ⟨u, rfl, hu⟩ | ⟨u, rfl, hu⟩ <;>
  · cases u with
    | nil => simp_all
    | cons c u => simp_all

end Text

open Text

theorem Path.mem_of_mem_resolveParts {p done ps} (h : p ∈ Path.resolveParts done ps) :
    p ∈ done ∨ p ∈ ps := by
  fun_induction Path.resolveParts done ps with
  | case1 => exact .inl (mem_reverse.mp h)
  | case2 _ _ ih | case3 _ _ ih => exact (ih h).imp_right (mem_cons_of_mem _)
  | case4 done rest ih => exact (ih h).imp mem_of_mem_tail (mem_cons_of_mem _)
  | case5 done q rest _ _ _ ih =>
    rcases ih h with hdone | hrest
    · rcases mem_cons.mp hdone with rfl | hdone
      · exact .inr mem_cons_self
      · exact .inl hdone
    · exact .inr (mem_cons_of_mem _ hrest)

theorem FileTree.not_mem_of_mem_names {t : FileTree} {p name : String} (h : name ∈ t.names p) :
    '/' ∉ name.toList := by
  rw [names, sortTexts, mem_mergeSort, mem_filterMap] at h
  obtain ⟨k, -, h⟩ := h
  obtain ⟨-, hlast⟩ := Option.ite_none_right_eq_some.mp h
  rcases Path.mem_of_mem_resolveParts (mem_of_getLast? hlast) with hmem | hmem
  · cases hmem
  · exact not_mem_of_mem_splitOnChar hmem

end RosAudit
