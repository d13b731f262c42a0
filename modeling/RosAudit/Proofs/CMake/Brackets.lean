import Mathlib.Order.Bounds.Basic
import RosAudit.CMake.Project

/-!
# Closing brackets

`readUntilMatch` reads from an opening bracket up to the one that closes it. This is where the
number of open brackets, counted from the first one on, comes down to nothing for the first time :
the least of the `closings` of the text from there on (`readUntilMatch_eq_ok_iff`). What stands
between is `Balanced`.
-/

namespace RosAudit.CMake

open RosAudit.Text List

variable {left right : Char} {xs ys : List Char}

/-- The brackets that are opened less those that are closed. -/
def openIn (left right : Char) (cs : List Char) : Int := cs.count left - cs.count right

/-- After how many characters no bracket is open. -/
def closings (left right : Char) (cs : List Char) : Set Nat :=
  { n | 0 < n ∧ n ≤ cs.length ∧ openIn left right (cs.take n) = 0 }

/-- Every bracket is closed after it was opened. -/
structure Balanced (left right : Char) (cs : List Char) : Prop where
  closed : openIn left right cs = 0
  opened : ∀ n, 0 ≤ openIn left right (cs.take n)

theorem openIn_append :
    openIn left right (xs ++ ys) = openIn left right xs + openIn left right ys := by
  simp only [openIn, count_append]
  omega

theorem matchEnd_step (left right : Char) (before after : List Char) (c : Char)
    (fuel depth : Nat) :
    matchEnd (before ++ c :: after) left right (fuel + 1) before.length (depth + 1) =
      matchEnd (before ++ c :: after) left right fuel (before ++ [c]).length
        (if c = left then depth + 2 else if c = right then depth else depth + 1) := by
  rw [matchEnd]
  simp only [at?, Int.natCast_nonneg, ↓reduceIte, Int.toNat_natCast, List.getElem?_append_right
    (Nat.le_refl _), Nat.sub_self, List.getElem?_cons_zero, beq_iff_eq, length_append,
    length_singleton, Int.natCast_add, Int.natCast_one]
  split
  · rfl
  · split <;> rfl

theorem between_append (before cs after : List Char) :
    between (before ++ (cs ++ after)) before.length (before ++ cs).length = cs := by
  have hclamp (n : Nat) (k : Nat) (h : k ≤ n) : clamp n k = k := by simp [clamp, h]
  simp only [between, length_append]
  rw [hclamp _ _ (by omega), hclamp _ _ (by omega)]
  simp

section Search

variable (hne : left ≠ right)

include hne

theorem openIn_cons (c : Char) : openIn left right (c :: xs) =
    (if c = left then 1 else if c = right then -1 else 0) + openIn left right xs := by
  simp only [openIn, count_cons, beq_iff_eq]
  split
  · subst c
    simp [hne]
    omega
  · split
    · simp
      omega
    · simp

/-- The search for a closing bracket, with as many brackets open as were counted, goes on to the
first place where the last of them is closed. -/
theorem matchEnd_run (before done after : List Char) {fuel depth : Nat}
    (hfuel : after.length < fuel) (hdepth : openIn left right done = depth + 1) :
    (∃ inner rest, after = inner ++ right :: rest ∧ openIn left right (done ++ inner) = 1 ∧
        (∀ n, 0 < openIn left right (done ++ inner.take n)) ∧
        matchEnd (before ++ (done ++ after)) left right fuel (before ++ done).length (depth + 1) =
          .ok (before ++ (done ++ (inner ++ [right]))).length) ∨
      (∀ n, 0 < openIn left right (done ++ after.take n)) ∧
        matchEnd (before ++ (done ++ after)) left right fuel (before ++ done).length (depth + 1) =
          .error .outOfRange := by
  have hnow : 0 < openIn left right done := by omega
  obtain ⟨fuel, rfl⟩ := Nat.exists_eq_add_one.mpr (Nat.zero_lt_of_lt hfuel)
  induction after generalizing done fuel depth with
  | nil =>
    refine .inr ⟨by simpa using hnow, ?_⟩
    generalize hseen : before ++ done = seen
    have hend : at? seen seen.length = none := by simp [at?]
    rw [append_nil, hseen, matchEnd, hend]
    rfl
  | cons c after ih =>
    obtain ⟨fuel, rfl⟩ :=
      Nat.exists_eq_add_one.mpr (Nat.zero_lt_of_lt (Nat.lt_of_succ_lt_succ hfuel))
    have hstep := matchEnd_step left right (before ++ done) after c (fuel + 1) depth
    rw [append_assoc] at hstep
    rw [hstep]
    by_cases hclose : c = right ∧ depth = 0
    · obtain ⟨rfl, rfl⟩ := hclose
      refine .inl ⟨[], after, rfl, by simpa using hdepth, by simpa using hnow, ?_⟩
      rw [if_neg hne.symm, if_pos rfl, matchEnd, append_assoc]
      rfl
    · obtain ⟨d, hd, hnext⟩ : ∃ d : Nat,
          (if c = left then depth + 2 else if c = right then depth else depth + 1) = d + 1 ∧
          openIn left right (done ++ [c]) = d + 1 := by
        have hnil : openIn left right [] = 0 := rfl
        rw [openIn_append, openIn_cons hne, hdepth, hnil]
        split_ifs with hl hr
        · exact ⟨depth + 1, rfl, by omega⟩
        · obtain ⟨d, rfl⟩ := Nat.exists_eq_add_one_of_ne_zero fun h => hclose ⟨hr, h⟩
          exact ⟨d, rfl, by omega⟩
        · exact ⟨depth, rfl, by omega⟩
      have hrun := ih (done ++ [c]) hnext (by omega) fuel (Nat.lt_of_succ_lt_succ hfuel)
      simp only [append_assoc, cons_append] at hrun
      rw [hd, append_assoc]
      refine hrun.imp ?_ ?_
      · rintro ⟨inner, rest, rfl, hone, hpos, hend⟩
        refine ⟨c :: inner, rest, rfl, hone, fun n => ?_, hend⟩
        cases n with
        | zero => simpa using hnow
        | succ n => exact hpos n
      · rintro ⟨hpos, hend⟩
        refine ⟨fun n => ?_, hend⟩
        cases n with
        | zero => simpa using hnow
        | succ n => exact hpos n

theorem openIn_open (cs : List Char) :
    openIn left right (left :: cs) = 1 + openIn left right cs := by
  rw [openIn_cons hne, if_pos rfl]

/-- The bracket after a balanced text closes the one before it, and none does so earlier. -/
theorem Balanced.isLeast_closings {inner} (h : Balanced left right inner) (rest : List Char) :
    IsLeast (closings left right (left :: (inner ++ right :: rest))) (inner.length + 2) := by
  refine ⟨⟨Nat.succ_pos _, by simp, ?_⟩, ?_⟩
  · have htake : (inner ++ right :: rest).take (inner.length + 1) = inner ++ [right] := by
      rw [take_length_add_append]
      rfl
    rw [take_succ_cons, htake, openIn_open hne, openIn_append, h.closed, openIn_cons hne,
      if_neg hne.symm, if_pos rfl]
    rfl
  · rintro k ⟨hk, -, hzero⟩
    obtain ⟨k, rfl⟩ := Nat.exists_eq_add_one.mpr hk
    by_contra hlt
    rw [take_succ_cons, take_append_of_le_length (by omega), openIn_open hne] at hzero
    have hk := h.opened k
    omega

/-- Reading ends at the bracket that closes the first one, and fails if there is none. -/
theorem readUntilMatch_cases (before after : List Char) :
    (∃ inner rest, after = inner ++ right :: rest ∧ Balanced left right inner ∧
        readUntilMatch (before ++ left :: after) [left, right] before.length =
          .ok (inner, (before ++ left :: (inner ++ [right])).length)) ∨
      closings left right (left :: after) = ∅ ∧
        readUntilMatch (before ++ left :: after) [left, right] before.length =
          .error .outOfRange := by
  have hfuel : after.length < 2 * (before ++ left :: after).length + 2 := by
    simp
    omega
  have hrun := matchEnd_run hne before [left] after hfuel (openIn_open hne [])
  have hat : at? (before ++ left :: after) before.length = some left := by simp [at?]
  have hstart : ((before ++ [left]).length : Int) = before.length + 1 := by simp
  rw [singleton_append, hstart, Nat.zero_add] at hrun
  simp only [readUntilMatch, hat, bne_self_eq_false, Bool.false_eq_true, ↓reduceIte]
  obtain ⟨inner, rest, rfl, hone, hpos, hend⟩ | ⟨hpos, hend⟩ := hrun
  · have hbalanced : Balanced left right inner := by
      rw [singleton_append, openIn_open hne] at hone
      refine ⟨by omega, fun n => ?_⟩
      have hn := hpos n
      rw [singleton_append, openIn_open hne] at hn
      omega
    refine .inl ⟨inner, rest, rfl, hbalanced, ?_⟩
    have hinner := between_append (before ++ [left]) inner (right :: rest)
    have hlast : ((before ++ ([left] ++ (inner ++ [right]))).length : Int) - 1 =
        (before ++ [left] ++ inner).length := by
      simp
      omega
    rw [hstart, append_assoc, singleton_append] at hinner
    simp only [hend, bind, Except.bind, hlast, hinner]
    rfl
  · refine .inr ⟨Set.eq_empty_of_forall_notMem ?_, by rw [hend]; rfl⟩
    rintro n ⟨hn, -, hzero⟩
    obtain ⟨n, rfl⟩ := Nat.exists_eq_add_one.mpr hn
    exact absurd hzero (Int.ne_of_gt (hpos n))

/-- A balanced text in brackets is read up to its own closing bracket. -/
theorem readUntilMatch_enclosed {inner} (h : Balanced left right inner) (before after : List Char) :
    readUntilMatch (before ++ left :: (inner ++ right :: after)) [left, right] before.length =
      .ok (inner, (before ++ left :: (inner ++ [right])).length) := by
  have hleast := h.isLeast_closings hne after
  obtain ⟨inner', rest, heq, h', hread⟩ | ⟨hnone, -⟩ :=
    readUntilMatch_cases hne before (inner ++ right :: after)
  · have hlength := hleast.unique (heq ▸ h'.isLeast_closings hne rest)
    obtain ⟨rfl, -⟩ := append_inj heq (by omega)
    exact hread
  · exact absurd hleast.1 (hnone ▸ Set.notMem_empty _)

/-- From an opening bracket on a text is read up to the bracket that closes it, if there is one, and
no further. What is read is balanced. -/
theorem readUntilMatch_eq_ok_iff (before after : List Char) :
    (∀ inner k, readUntilMatch (before ++ left :: after) [left, right] before.length =
      .ok (inner, k) ↔
      ∃ n : Nat, IsLeast (closings left right (left :: after)) (n + 2) ∧ inner = after.take n ∧
        k = before.length + n + 2) ∧
    (∀ n, IsLeast (closings left right (left :: after)) (n + 2) →
      Balanced left right (after.take n) ∧
      ∀ rest, readUntilMatch (before ++ left :: (after.take (n + 1) ++ rest)) [left, right]
        before.length = .ok (after.take n, before.length + n + 2)) ∧
    (closings left right (left :: after) = ∅ →
      readUntilMatch (before ++ left :: after) [left, right] before.length =
        .error .outOfRange) := by
  obtain ⟨inner, rest, rfl, hbalanced, hread⟩ | ⟨hnone, hread⟩ :=
    readUntilMatch_cases hne before after
  · have hleast := hbalanced.isLeast_closings hne rest
    have hlength : ∀ n, IsLeast (closings left right (left :: (inner ++ right :: rest))) (n + 2) →
        n = inner.length := fun n hn => Nat.add_right_cancel (hn.unique hleast)
    have hend : ((before ++ left :: (inner ++ [right])).length : Int) =
        before.length + inner.length + 2 := by
      simp
      omega
    rw [hread, hend]
    refine ⟨fun cs k => ⟨fun h => ?_, ?_⟩, fun n hn => ?_, fun hnone => ?_⟩
    · cases h
      exact ⟨inner.length, hleast, by simp, rfl⟩
    · rintro ⟨n, hn, rfl, rfl⟩
      rw [hlength n hn]
      simp
    · rw [hlength n hn, take_left, take_length_add_append]
      refine ⟨hbalanced, fun rest => ?_⟩
      rw [append_assoc, ← hend]
      exact readUntilMatch_enclosed hne hbalanced before rest
    · exact absurd hleast.1 (hnone ▸ Set.notMem_empty _)
  · have hnot : ∀ n, ¬ IsLeast (closings left right (left :: after)) n := fun n hn =>
      Set.notMem_empty n (hnone ▸ hn.1)
    rw [hread]
    refine ⟨fun cs k => ⟨fun h => ?_, ?_⟩, fun n hn => absurd hn (hnot _), fun _ => rfl⟩
    · cases h
    · rintro ⟨n, hn, -⟩
      exact absurd hn (hnot _)

end Search

theorem readUntilMatch_eq_ok_iff_nested :
    IsLeast (closings '(' ')' "(a(b)c)d)".toList) 7 ∧
    readUntilMatch "f(a(b)c)d)".toList ['(', ')'] 1 = .ok ("a(b)c".toList, 8) := by
  have hleast : IsLeast (closings '(' ')' "(a(b)c)d)".toList) 7 := by
    have hfirst : ∀ n < 7, 0 < n → openIn '(' ')' ("(a(b)c)d)".toList.take n) ≠ 0 := by decide
    refine ⟨⟨by decide, by decide, by decide⟩, ?_⟩
    rintro n ⟨hn, -, hzero⟩
    exact Nat.le_of_not_lt fun hlt => hfirst n hlt hn hzero
  have hne : '(' ≠ ')' := by decide
  exact ⟨hleast, ((readUntilMatch_eq_ok_iff hne ['f'] "a(b)c)d)".toList).1 _ _).mpr
    ⟨5, hleast, rfl, rfl⟩⟩

/-! ## Balanced texts -/

theorem Balanced.append (hx : Balanced left right xs) (hy : Balanced left right ys) :
    Balanced left right (xs ++ ys) where
  closed := by
    rw [openIn_append, hx.closed, hy.closed]
    rfl
  opened n := by
    rw [take_append, openIn_append]
    exact Int.add_nonneg (hx.opened n) (hy.opened _)

theorem Balanced.of_plain (h : ∀ c ∈ xs, c ≠ left ∧ c ≠ right) : Balanced left right xs := by
  have hzero : ∀ ys ⊆ xs, openIn left right ys = 0 := by
    intro ys hys
    rw [openIn, count_eq_zero.mpr fun hmem => (h _ (hys hmem)).1 rfl,
      count_eq_zero.mpr fun hmem => (h _ (hys hmem)).2 rfl]
    rfl
  exact ⟨hzero xs fun _ h => h, fun n => Int.le_of_eq (hzero _ (take_subset n xs)).symm⟩

theorem Balanced.enclose (hne : left ≠ right) (h : Balanced left right xs) :
    Balanced left right (left :: (xs ++ [right])) where
  closed := by
    rw [openIn_open hne, openIn_append, h.closed, openIn_cons hne, if_neg hne.symm, if_pos rfl]
    rfl
  opened n := by
    cases n with
    | zero => exact Int.le_refl _
    | succ n =>
      have hlast : -1 ≤ openIn left right ([right].take (n - xs.length)) := by
        cases n - xs.length <;> simp [openIn, hne.symm]
      have hxs := h.opened n
      rw [take_succ_cons, openIn_open hne, take_append, openIn_append]
      omega

end RosAudit.CMake
