import Mathlib.Data.List.Forall2
import RosAudit.Proofs.CMake.BlockMachine

/-!
# Every line of a script is read once

A statement may go over several lines. `Statement.complete` joins a line with those after it, in
the source itself, until they make a statement, and the reader of a block may leave a statement
where it is for the reader around it, which meets the joined line again. The statements of the
tree nevertheless list the lines of the script in order, none lost, repeated or split : each is
read from a `LineGroup`, and the groups put together are the script (`ofScript_groups`).
-/

namespace RosAudit.CMake.Statement

open List

/-- The induction is on the lines that follow those of a group that is not complete yet. -/
theorem exists_groups {g} (hg : Dangling g) (ts) :
    ∃ (ps : List (List String × Line)) (tail : List String),
      g ++ ts = (ps.map Prod.fst).flatten ++ tail ∧ (∀ p ∈ ps, LineGroup p.1 p.2) ∧
        Dangling tail := by
  induction ts generalizing g with
  | nil => exact ⟨[], g, by simp, by simp, hg⟩
  | cons t ts ih =>
    have hunfinished : Unfinished (g ++ [t]) := by
      intro g' hpre hne hlt
      exact hg g' ((prefix_concat_iff.mp hpre).resolve_left hlt) hne
    cases hp : Line.parse (joined (g ++ [t])) with
    | ok l =>
      obtain ⟨ps, tail, rfl, hps, htail⟩ := ih dangling_nil
      refine ⟨(g ++ [t], l) :: ps, tail, by simp, forall_mem_cons.mpr ⟨?_, hps⟩, htail⟩
      exact ⟨by simp, hp, hunfinished⟩
    | error f =>
      have hmore : Dangling (g ++ [t]) := by
        intro g' hpre hne
        rcases prefix_concat_iff.mp hpre with rfl | hpre
        · exact ⟨f, hp⟩
        · exact hg g' hpre hne
      simpa using ih hmore

/-- The statements of a script, listed in order, are read from consecutive groups of its lines, the
fewest that make a statement each, and the groups together are all the lines. -/
theorem ofScript_groups (s : String) {xs : List Statement} (h : ofScript s = .ok xs) :
    ∃ gs : List (List String), gs.flatten = Text.lines s ∧
      List.Forall₂ LineGroup gs (listingAll xs) := by
  obtain ⟨ps, tail, hs, hps, htail⟩ := exists_groups dangling_nil (Text.lines s)
  obtain ⟨s', hrun⟩ := ofScript_run hs hps htail
  rw [h] at hrun
  cases hrun with
  | closed _ pre post _ hsplit hpre _ hpost =>
    obtain ⟨rfl, rfl⟩ := nothing_after hpost
    obtain rfl : ps = pre := by simpa using hsplit
    refine ⟨ps.map Prod.fst, by simpa using hs.symm, ?_⟩
    rwa [← hpre, forall₂_map_left_iff, forall₂_map_right_iff, forall₂_same]

/-- A block is ended by a statement of two lines, which both readers meet. -/
theorem ofScript_groups_joined_end : ∃ xs,
    ofScript "if(a\nb)\nset(x)\nelse(\n)\nendif()" = .ok xs ∧
    listingAll xs = [⟨"if", some "a b", none⟩, ⟨"set", some "x", none⟩, ⟨"else", none, none⟩,
      ⟨"endif", none, none⟩] ∧
    ∃ gs : List (List String), gs.flatten = Text.lines "if(a\nb)\nset(x)\nelse(\n)\nendif()" ∧
      List.Forall₂ LineGroup gs (listingAll xs) := by
  have hlist : (ofScript "if(a\nb)\nset(x)\nelse(\n)\nendif()").toOption.map listingAll =
      some [⟨"if", some "a b", none⟩, ⟨"set", some "x", none⟩, ⟨"else", none, none⟩,
        ⟨"endif", none, none⟩] := by
    decide +kernel
  cases h : ofScript "if(a\nb)\nset(x)\nelse(\n)\nendif()" with
  | error f =>
    rw [h] at hlist
    cases hlist
  | ok xs =>
    rw [h] at hlist
    exact ⟨xs, rfl, Option.some.inj hlist, ofScript_groups _ h⟩

end RosAudit.CMake.Statement
