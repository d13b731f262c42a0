import Mathlib.Data.List.Nodup
import Mathlib.Data.Prod.Lex
import Mathlib.Data.String.Basic
import Mathlib.Order.WellFounded
import RosAudit.Extract.Tiers
import RosAudit.Proofs.Model.Quiet

/-!
# Tiers are exact

Packages are sorted by tiers, and the tiers are found in rounds : each round takes the packages
whose needs were met before, and the first round that takes none gives up on the rest.

`settled items k` lists what is settled within `k` rounds, by recursion on `k` and without what the
rounds carry along. `Grounded items n` says of a name that every chain of needs from it ends, and
stays among the items.

A package that waits for a missing one is settled in no round, and so are those that need it : they
share the last tier, where only identifiers decide (`Model.sortByTier_before_iff`).
-/

namespace RosAudit

namespace Tiers

open Relation List

variable {α : Type} {items : List (Item α)} {i : Item α} {k : Nat} {n d : String}

/-- The names of the items that need nothing but what was settled a round before. -/
def settled (items : List (Item α)) : Nat → List String
  | 0 => []
  | k + 1 => (items.filter fun i => i.needs.all (settled items k).contains).map Item.name

theorem mem_settled_succ :
    n ∈ settled items (k + 1) ↔ ∃ i ∈ items, i.name = n ∧ ∀ d ∈ i.needs, d ∈ settled items k := by
  simp only [settled, mem_map, mem_filter, all_eq_true, contains_iff_mem]
  constructor
  · rintro ⟨i, ⟨hi, hneeds⟩, hname⟩
    exact ⟨i, hi, hname, hneeds⟩
  · rintro ⟨i, hi, hname, hneeds⟩
    exact ⟨i, ⟨hi, hneeds⟩, hname⟩

theorem exists_of_mem_settled (h : n ∈ settled items k) : ∃ i ∈ items, i.name = n := by
  cases k with
  | zero => exact absurd h not_mem_nil
  | succ k => exact (mem_settled_succ.mp h).imp fun i hi => ⟨hi.1, hi.2.1⟩

theorem settled_subset_succ (k : Nat) : settled items k ⊆ settled items (k + 1) := by
  induction k with
  | zero => exact nil_subset _
  | succ k ih =>
    intro n hn
    obtain ⟨i, hi, hname, hneeds⟩ := mem_settled_succ.mp hn
    exact mem_settled_succ.mpr ⟨i, hi, hname, fun d hd => ih (hneeds d hd)⟩

theorem settled_subset {j} (h : j ≤ k) : settled items j ⊆ settled items k := by
  induction h with
  | refl => exact List.Subset.refl _
  | step _ ih => exact List.Subset.trans ih (settled_subset_succ _)

theorem settled_subset_of_stuck (h : settled items (k + 1) ⊆ settled items k) (n : Nat) :
    settled items n ⊆ settled items k := by
  induction n with
  | zero => exact nil_subset _
  | succ n ih =>
    intro d hd
    obtain ⟨i, hi, hname, hneeds⟩ := mem_settled_succ.mp hd
    exact h (mem_settled_succ.mpr ⟨i, hi, hname, fun d hd => ih (hneeds d hd)⟩)

theorem mem_settled_iff (hnames : (items.map Item.name).Nodup) (hi : i ∈ items) (k : Nat) :
    i.name ∈ settled items (k + 1) ↔ ∀ d ∈ i.needs, d ∈ settled items k := by
  refine mem_settled_succ.trans ⟨?_, fun h => ⟨i, hi, rfl, h⟩⟩
  rintro ⟨j, hj, hname, hneeds⟩
  rwa [inj_on_of_nodup_map hnames hi hj hname.symm]

/-! ## Rounds -/

theorem isEmpty_without (i : Item α) (met) :
    (i.without met).needs.isEmpty = i.needs.all met.contains := by
  rw [Bool.eq_iff_iff]
  simp [Item.without]

theorem without_without (i : Item α) {xs ys zs} (h : ∀ d, d ∈ zs ↔ d ∈ xs ∨ d ∈ ys) :
    (i.without xs).without ys = i.without zs := by
  simp only [Item.without, filter_filter]
  congr 1
  refine filter_congr fun d _ => ?_
  rw [Bool.eq_iff_iff]
  simp [h, and_comm]

theorem assignFrom_nil (k met rounds) : assignFrom k met ([] : List (Item α)) rounds = [] := by
  cases rounds <;> rfl

def waiting (items : List (Item α)) (k : Nat) : List (Item α) :=
  items.filter fun i => !(settled items k).contains i.name

def ready (items : List (Item α)) (k : Nat) (i : Item α) : Bool :=
  i.needs.all (settled items k).contains

/-- The place of an item : the round that settles it, or the last one. -/
def Placed (items : List (Item α)) (last : Nat) (i : Item α) (tier : Nat) : Prop :=
  (tier < last ∧ i.name ∈ settled items (tier + 1) ∧ i.name ∉ settled items tier) ∨
    (tier = last ∧ ∀ k, i.name ∉ settled items k)

theorem ready_iff : ready items k i = true ↔ ∀ d ∈ i.needs, d ∈ settled items k := by
  simp [ready]

theorem mem_waiting : i ∈ waiting items k ↔ i ∈ items ∧ i.name ∉ settled items k := by
  simp [waiting]

theorem mem_settled_succ_iff : d ∈ settled items (k + 1) ↔
    d ∈ settled items k ∨ d ∈ ((waiting items k).filter (ready items k)).map Item.name := by
  simp only [mem_map, mem_filter, mem_waiting, ready_iff]
  constructor
  · intro hd
    obtain ⟨i, hi, rfl, hneeds⟩ := mem_settled_succ.mp hd
    exact or_iff_not_imp_left.mpr fun hnew => ⟨i, ⟨⟨hi, hnew⟩, hneeds⟩, rfl⟩
  · rintro (hd | ⟨i, ⟨⟨hi, -⟩, hneeds⟩, rfl⟩)
    · exact settled_subset_succ k hd
    · exact mem_settled_succ.mpr ⟨i, hi, rfl, hneeds⟩

section Distinct

variable (hnames : (items.map Item.name).Nodup)
include hnames

theorem waiting_succ (k : Nat) :
    (waiting items k).filter (fun i => !ready items k i) = waiting items (k + 1) := by
  rw [waiting, filter_filter]
  refine filter_congr fun i hi => ?_
  have hmono : i.name ∈ settled items k → i.name ∈ settled items (k + 1) :=
    @settled_subset_succ _ _ k _
  rw [mem_settled_iff hnames hi, ← ready_iff] at hmono
  rw [Bool.eq_iff_iff]
  simp only [Bool.and_eq_true, Bool.not_eq_true', ← Bool.not_eq_true, contains_iff_mem,
    mem_settled_iff hnames hi, ← ready_iff]
  exact ⟨And.left, fun h => ⟨h, fun hsettled => h (hmono hsettled)⟩⟩

/-- One round : the items that are ready are placed, and the others wait for the next one. -/
theorem assignFrom_round {met pending} (rounds : Nat)
    (hpending : pending.map (·.without met) = (waiting items k).map (·.without (settled items k)))
    (hne : pending ≠ []) :
    let taken := (waiting items k).filter (ready items k)
    assignFrom k met pending (rounds + 1) =
      if taken.isEmpty then (waiting items (k + 1)).map fun i => (i.content, k)
      else (taken.map fun i => (i.content, k)) ++ assignFrom (k + 1) (taken.map Item.name)
        ((waiting items (k + 1)).map (·.without (settled items k))) rounds := by
  have hready : ((fun i : Item α => i.needs.isEmpty) ∘ (·.without (settled items k))) =
      ready items k := funext fun i => isEmpty_without i _
  have hwaiting : ((fun i : Item α => !i.needs.isEmpty) ∘ (·.without (settled items k))) =
      fun i => !ready items k i := funext fun i => congrArg (!·) (isEmpty_without i _)
  simp only [assignFrom, hpending, filter_map, hready, hwaiting, waiting_succ hnames,
    isEmpty_eq_false_iff.mpr hne, isEmpty_map, List.map_map]
  rfl

theorem assignFrom_placed (k met pending rounds)
    (hpending : pending.map (·.without met) = (waiting items k).map (·.without (settled items k)))
    (hrounds : pending.length ≤ rounds) :
    ((assignFrom k met pending rounds).map Prod.fst).Perm ((waiting items k).map Item.content) ∧
      ∃ last, k ≤ last ∧ ∀ x ∈ assignFrom k met pending rounds,
        ∃ i ∈ items, i.content = x.1 ∧ Placed items last i x.2 := by
  induction rounds generalizing k met pending with
  | zero =>
    obtain rfl := length_eq_zero_iff.mp (Nat.le_zero.mp hrounds)
    rw [map_eq_nil_iff.mp hpending.symm]
    exact ⟨.nil, k, le_refl k, forall_mem_nil _⟩
  | succ rounds ih =>
    by_cases hne : pending = []
    · subst hne
      simpa only [assignFrom_nil] using ih k met [] hpending (Nat.zero_le _)
    rw [assignFrom_round hnames rounds hpending hne]
    generalize htaken : (waiting items k).filter (ready items k) = taken
    have hsplit := filter_append_perm (ready items k) (waiting items k)
    rw [htaken, waiting_succ hnames] at hsplit
    split
    · -- nothing is ready, so nothing that waits is ever settled
      rename_i hempty
      obtain rfl := List.isEmpty_iff.mp hempty
      have hstuck : settled items (k + 1) ⊆ settled items k := by
        intro d hd
        rw [mem_settled_succ_iff, htaken] at hd
        exact hd.resolve_right not_mem_nil
      refine ⟨by rw [List.map_map]; exact hsplit.map Item.content, k, le_refl k, fun x hx => ?_⟩
      obtain ⟨i, hi, rfl⟩ := mem_map.mp hx
      obtain ⟨hmem, hnew⟩ := mem_waiting.mp hi
      refine ⟨i, hmem, rfl, .inr ⟨rfl, fun n hn => hnew ?_⟩⟩
      exact settled_subset_succ k (settled_subset_of_stuck hstuck n hn)
    · rename_i hsome
      have hmet : ∀ i ∈ waiting items (k + 1), (i.without (settled items k)).without
          (taken.map Item.name) = i.without (settled items (k + 1)) := fun i _ =>
        without_without i fun d => by rw [mem_settled_succ_iff, htaken]
      have hlength : (waiting items (k + 1)).length ≤ rounds := by
        have hpos := length_pos_iff.mpr (mt List.isEmpty_iff.mpr hsome)
        have hsum := hsplit.length_eq
        have hall := congrArg List.length hpending
        simp only [length_append, length_map] at hsum hall
        omega
      obtain ⟨hperm, last, hlast, hplaced⟩ := ih (k + 1) (taken.map Item.name)
        ((waiting items (k + 1)).map (·.without (settled items k)))
        (by rw [List.map_map]; exact map_congr_left hmet) (by simpa using hlength)
      refine ⟨?_, last, Nat.le_of_succ_le hlast, fun x hx => ?_⟩
      · rw [map_append, List.map_map]
        refine List.Perm.trans ?_ (hsplit.map Item.content)
        rw [map_append]
        exact hperm.append_left _
      · rcases mem_append.mp hx with hx | hx
        · obtain ⟨i, hi, rfl⟩ := mem_map.mp hx
          rw [← htaken, mem_filter, mem_waiting, ready_iff] at hi
          obtain ⟨⟨hmem, hnew⟩, hneeds⟩ := hi
          exact ⟨i, hmem, rfl, .inl ⟨hlast, mem_settled_succ.mpr ⟨i, hmem, rfl, hneeds⟩, hnew⟩⟩
        · exact hplaced x hx

theorem assign_placed : ((assign items).map Prod.fst).Perm (items.map Item.content) ∧
    ∃ last, ∀ x ∈ assign items, ∃ i ∈ items, i.content = x.1 ∧ Placed items last i x.2 := by
  have hwaiting : waiting items 0 = items := by simp [waiting, settled]
  have hplaced := assignFrom_placed hnames 0 [] items items.length
  rw [hwaiting] at hplaced
  replace hplaced := hplaced rfl (le_refl _)
  exact ⟨hplaced.1, hplaced.2.imp fun _ h => h.2⟩

end Distinct

/-! ## Chains of needs -/

def Needs (items : List (Item α)) (a b : String) : Prop := ∃ i ∈ items, i.name = a ∧ b ∈ i.needs

/-- Every chain of needs from a name ends and stays among the items. -/
structure Grounded (items : List (Item α)) (n : String) : Prop where
  found : ∀ d, ReflTransGen (Needs items) n d → ∃ i ∈ items, i.name = d
  ends : ¬ ∃ chain : Nat → String, chain 0 = n ∧ ∀ k, Needs items (chain k) (chain (k + 1))

theorem Grounded.of_needs (h : Grounded items n) (hd : Needs items n d) :
    Grounded items d where
  found e he := h.found e (he.head hd)
  ends := by
    rintro ⟨chain, rfl, hchain⟩
    refine h.ends ⟨fun k => Nat.casesOn k n chain, rfl, fun k => ?_⟩
    cases k with
    | zero => exact hd
    | succ k => exact hchain k

theorem grounded_of_needs (hfound : ∃ i ∈ items, i.name = n)
    (h : ∀ d, Needs items n d → Grounded items d) : Grounded items n where
  found d hd := by
    rcases hd.cases_head with rfl | ⟨e, he, hd⟩
    · exact hfound
    · exact (h e he).found d hd
  ends := by
    rintro ⟨chain, rfl, hchain⟩
    exact (h _ (hchain 0)).ends ⟨fun k => chain (k + 1), rfl, fun k => hchain (k + 1)⟩

theorem exists_settled_all {ds : List String} (h : ∀ d ∈ ds, ∃ k, d ∈ settled items k) :
    ∃ k, ∀ d ∈ ds, d ∈ settled items k := by
  induction ds with
  | nil => exact ⟨0, forall_mem_nil _⟩
  | cons d ds ih =>
    obtain ⟨j, hj⟩ := h d mem_cons_self
    obtain ⟨k, hk⟩ := ih fun d hd => h d (mem_cons_of_mem _ hd)
    refine ⟨max j k, forall_mem_cons.mpr ⟨settled_subset (le_max_left j k) hj, fun d hd => ?_⟩⟩
    exact settled_subset (le_max_right j k) (hk d hd)

theorem grounded_iff (hnames : (items.map Item.name).Nodup) :
    Grounded items n ↔ ∃ k, n ∈ settled items k := by
  constructor
  · intro h
    have hacc : Acc (fun b a => Needs items a b) n :=
      not_not.mp fun hacc => h.ends (not_acc_iff_exists_descending_chain.mp hacc)
    induction hacc with
    | intro n _ ih =>
      obtain ⟨i, hi, rfl⟩ := h.found n .refl
      have hneeds : ∀ d ∈ i.needs, ∃ k, d ∈ settled items k := fun d hd =>
        ih d ⟨i, hi, rfl, hd⟩ (h.of_needs ⟨i, hi, rfl, hd⟩)
      obtain ⟨k, hk⟩ := exists_settled_all hneeds
      exact ⟨k + 1, (mem_settled_iff hnames hi k).mpr hk⟩
  · rintro ⟨k, hk⟩
    induction k generalizing n with
    | zero => exact absurd hk not_mem_nil
    | succ k ih =>
      obtain ⟨i, hi, rfl, hneeds⟩ := mem_settled_succ.mp hk
      refine grounded_of_needs ⟨i, hi, rfl⟩ fun d hd => ?_
      obtain ⟨j, hj, hname, hd⟩ := hd
      rw [inj_on_of_nodup_map hnames hj hi hname] at hd
      exact ih (hneeds d hd)

/-! ## Tiers of settled items -/

section Exact

variable {last : Nat} {tier : Item α → Nat} (hnames : (items.map Item.name).Nodup)
  (htier : ∀ i ∈ items, Placed items last i (tier i)) (hi : i ∈ items)
include htier hi

theorem tier_of_settled (h : i.name ∈ settled items k) :
    tier i < k ∧ tier i < last ∧ i.name ∈ settled items (tier i + 1) := by
  rcases htier i hi with ⟨hlast, hsettled, hnew⟩ | ⟨-, hnever⟩
  · refine ⟨?_, hlast, hsettled⟩
    by_contra hle
    exact hnew (settled_subset (not_lt.mp hle) h)
  · exact absurd h (hnever k)

include hnames

theorem tier_of_not_grounded (h : ¬ Grounded items i.name) : tier i = last := by
  rcases htier i hi with ⟨-, hsettled, -⟩ | ⟨ht, -⟩
  · exact absurd ((grounded_iff hnames).mpr ⟨_, hsettled⟩) h
  · exact ht

theorem tier_of_grounded (h : Grounded items i.name) :
    tier i < last ∧ (i.needs = [] → tier i = 0) ∧ (i.needs ≠ [] →
      IsGreatest { t | ∃ j ∈ items, j.name ∈ i.needs ∧ t = tier j + 1 } (tier i)) := by
  obtain ⟨k, hk⟩ := (grounded_iff hnames).mp h
  obtain ⟨-, hlast, hsettled⟩ := tier_of_settled htier hi hk
  have hmet := (mem_settled_iff hnames hi _).mp hsettled
  have hupper : ∀ j ∈ items, j.name ∈ i.needs → tier j + 1 ≤ tier i := fun j hj hneed =>
    (tier_of_settled htier hj (hmet _ hneed)).1
  refine ⟨hlast, fun hnone => ?_, fun hneeds => ⟨?_, ?_⟩⟩
  · have hfirst := (mem_settled_iff hnames hi 0).mpr (by simp [hnone])
    exact Nat.lt_one_iff.mp (tier_of_settled htier hi hfirst).1
  · -- otherwise all needs are settled a round earlier, and so is the item
    by_contra hnone
    have hbelow : ∀ d ∈ i.needs, 0 < tier i ∧ d ∈ settled items (tier i - 1) := by
      intro d hd
      obtain ⟨j, hj, rfl⟩ := exists_of_mem_settled (hmet d hd)
      have hlt := hupper j hj hd
      have hne : tier i ≠ tier j + 1 := fun h => hnone ⟨j, hj, hd, h⟩
      exact ⟨by omega, settled_subset (by omega) (tier_of_settled htier hj (hmet _ hd)).2.2⟩
    obtain ⟨d, hd⟩ := exists_mem_of_ne_nil _ hneeds
    have hearly := (mem_settled_iff hnames hi _).mpr fun d hd => (hbelow d hd).2
    rw [Nat.sub_add_cancel (hbelow d hd).1] at hearly
    exact lt_irrefl _ (tier_of_settled htier hi hearly).1
  · rintro t ⟨j, hj, hneed, rfl⟩
    exact hupper j hj hneed

end Exact

end Tiers

/-! ## The packages of a project -/

namespace Model

open Relation List

def needsAmong (m : Model) (names : List String) (r : Ref .package) : List String :=
  (m.package r).dependencies.filter names.contains

def tierItem (m : Model) (names : List String) (r : Ref .package) : Tiers.Item (Ref .package) :=
  { content := r, name := (m.package r).name, needs := m.needsAmong names r }

def tierItems (m : Model) (project : Ref .project) (names : List String) :
    List (Tiers.Item (Ref .package)) :=
  (m.project project).packages.map (m.tierItem names)

/-- All chains of needs from a package end among the packages of the project. -/
def ChainsEnd (m : Model) (project : Ref .project) (names : List String)
    (r : Ref .package) : Prop :=
  Tiers.Grounded (m.tierItems project names) (m.package r).name

/-- A package that needs nothing is in the first tier, and every other one is in the tier after the
last one that it needs. -/
def ExactTier (m : Model) (project : Ref .project) (names : List String)
    (tier : Ref .package → Nat) (r : Ref .package) : Prop :=
  (m.needsAmong names r = [] → tier r = 0) ∧
    (m.needsAmong names r ≠ [] → IsGreatest { t | ∃ q ∈ (m.project project).packages,
      (m.package q).name ∈ m.needsAmong names r ∧ t = tier q + 1 } (tier r))

def tierKey (m : Model) (r : Ref .package) : Lex (Int × String) :=
  toLex ((m.package r).tier, (m.package r).id)

/-- The packages of `m` are sorted in `m'`. A package from which all chains of needs end among the
packages has an exact tier. All others share one tier, which is above these. -/
structure SortedByTier (m m' : Model) (project : Ref .project) (names : List String) : Prop where
  perm : (m'.project project).packages.Perm (m.project project).packages
  sorted : (m'.project project).packages.Pairwise fun a b => m'.tierKey a ≤ m'.tierKey b
  tiers : ∃ (tier : Ref .package → Nat) (last : Nat), ∀ r ∈ (m.project project).packages,
    m'.package r = { m.package r with tier := tier r } ∧
    (m.ChainsEnd project names r → tier r < last ∧ m.ExactTier project names tier r) ∧
    (¬ m.ChainsEnd project names r → tier r = last)
  after : ∀ r ∈ (m.project project).packages, m.ChainsEnd project names r →
    ∀ q ∈ (m.project project).packages, (m.package q).name ∈ m.needsAmong names r →
      ∀ i j : Nat, (m'.project project).packages[i]? = some q →
        (m'.project project).packages[j]? = some r → i < j

variable {m : Model} {project : Ref .project} {names : List String} {r : Ref .package}

section Placing

variable {place : Model → Ref .package × Nat → Model}
  (hplace : ∀ m x, place m x = m.updatePackage x.1 fun p => { p with tier := x.2 })
include hplace

theorem package_place_of_ne {x} (h : r ≠ x.1) : (place m x).package r = m.package r := by
  rw [hplace]
  exact getD_modify_ref_of_ne _ _ _ h

theorem projects_foldl_place (xs : List (Ref .package × Nat)) (m : Model) :
    (xs.foldl place m).projects = m.projects := by
  induction xs generalizing m with
  | nil => rfl
  | cons x xs ih => rw [foldl_cons, ih, hplace]; rfl

variable {xs : List (Ref .package × Nat)} {q : Ref .package}

theorem package_foldl_place_of_notMem
    (hr : r ∉ xs.map Prod.fst) (m : Model) : (xs.foldl place m).package r = m.package r := by
  induction xs generalizing m with
  | nil => rfl
  | cons x xs ih =>
    rw [map_cons, mem_cons, not_or] at hr
    rw [foldl_cons, ih hr.2, package_place_of_ne hplace hr.1]

theorem package_foldl_place (hnodup : (xs.map Prod.fst).Nodup) {t} (hx : (r, t) ∈ xs) (m : Model)
    (hr : r.index < m.packages.size) :
    (xs.foldl place m).package r = { m.package r with tier := t } := by
  induction xs generalizing m with
  | nil => exact absurd hx not_mem_nil
  | cons x xs ih =>
    rw [map_cons, nodup_cons] at hnodup
    rcases mem_cons.mp hx with rfl | hx
    · rw [foldl_cons, package_foldl_place_of_notMem hplace hnodup.1, hplace]
      exact getD_modify_self _ _ _ hr
    · have hne : r ≠ x.1 := by
        rintro rfl
        exact hnodup.1 (mem_map.mpr ⟨_, hx, rfl⟩)
      rw [foldl_cons, ih hnodup.2 hx _ (by rw [hplace]; simpa [updatePackage] using hr),
        package_place_of_ne hplace hne]

end Placing

theorem tierBefore_iff {a b} : m.tierBefore a b = true ↔ m.tierKey a ≤ m.tierKey b := by
  simp only [tierBefore, tierKey, Prod.Lex.toLex_le_toLex, le_iff_lt_or_eq (a := (m.package a).id)]
  split <;> rename_i h <;> simp [h]

theorem pairwise_mergeSort_tierBefore (ps : List (Ref .package)) :
    (ps.mergeSort m.tierBefore).Pairwise fun a b => m.tierKey a ≤ m.tierKey b := by
  have hsorted : (ps.mergeSort m.tierBefore).Pairwise (m.tierBefore · ·) := by
    refine pairwise_mergeSort (fun a b c => ?_) (fun a b => ?_) ps
    · simp only [tierBefore_iff]
      exact le_trans
    · rw [Bool.or_eq_true, tierBefore_iff, tierBefore_iff]
      exact le_total _ _
  exact hsorted.imp tierBefore_iff.mp

theorem package_sortByTier
    (hpackages : ∀ r ∈ (m.project project).packages, r.index < m.packages.size)
    (hnames : ((m.tierItems project names).map Tiers.Item.name).Nodup) :
    ∃ last, ∀ r ∈ (m.project project).packages, ∃ t : Nat,
      (m.sortByTier project names).package r = { m.package r with tier := t } ∧
      Tiers.Placed (m.tierItems project names) last (m.tierItem names r) t := by
  obtain ⟨hperm, last, hplaced⟩ := Tiers.assign_placed hnames
  rw [tierItems, List.map_map] at hnames
  have hcontent : Tiers.Item.content ∘ m.tierItem names = id := rfl
  rw [tierItems, List.map_map, hcontent, map_id] at hperm
  refine ⟨last, fun r hr => ?_⟩
  obtain ⟨⟨_, t⟩, hx, rfl⟩ := mem_map.mp (hperm.mem_iff.mpr hr)
  obtain ⟨_, hi, hr', htier⟩ := hplaced _ hx
  obtain ⟨_, -, rfl⟩ := mem_map.mp hi
  obtain rfl := hr'
  refine ⟨t, ?_, htier⟩
  exact package_foldl_place (fun _ _ => rfl) (hperm.nodup_iff.mpr (.of_map _ hnames)) hx m
    (hpackages _ hr)

theorem packages_sortByTier (names) (hproject : project.index < m.projects.size) :
    ((m.sortByTier project names).project project).packages =
      (m.project project).packages.mergeSort (m.sortByTier project names).tierBefore := by
  unfold sortByTier
  extract_lets packages tiers placed
  have hprojects : placed.projects = m.projects := projects_foldl_place (fun _ _ => rfl) tiers m
  have hpackages : packages = (placed.project project).packages := by
    rw [Model.project, hprojects]
    rfl
  rw [← hprojects] at hproject
  change _ = packages.mergeSort placed.tierBefore
  rw [hpackages]
  exact congrArg Project.packages (getD_modify_self placed.projects default _ hproject)

theorem lt_of_tierKey_lt {ps : List (Ref .package)}
    (hsorted : ps.Pairwise fun a b => m.tierKey a ≤ m.tierKey b)
    (h : m.tierKey q < m.tierKey r) {i j : Nat} (hi : ps[i]? = some q) (hj : ps[j]? = some r) :
    i < j := by
  obtain ⟨hi', rfl⟩ := List.getElem?_eq_some_iff.mp hi
  obtain ⟨hj', rfl⟩ := List.getElem?_eq_some_iff.mp hj
  by_contra hle
  rcases Nat.lt_or_eq_of_le (not_lt.mp hle) with hlt | rfl
  · exact not_lt_of_ge (pairwise_iff_getElem.mp hsorted j i hj' hi' hlt) h
  · exact lt_irrefl _ h

theorem tierKey_lt {a b} (hq : m.package q = a) (hr : m.package r = b)
    (h : a.tier < b.tier ∨ a.tier = b.tier ∧ a.id < b.id) : m.tierKey q < m.tierKey r := by
  rw [tierKey, tierKey, hq, hr]
  exact Prod.Lex.toLex_lt_toLex.mpr h

theorem pairwise_sortByTier (names) (hproject : project.index < m.projects.size) :
    ((m.sortByTier project names).project project).packages.Pairwise fun a b =>
      (m.sortByTier project names).tierKey a ≤ (m.sortByTier project names).tierKey b := by
  rw [packages_sortByTier names hproject]
  exact pairwise_mergeSort_tierBefore _

theorem exists_tiers (names)
    (hpackages : ∀ r ∈ (m.project project).packages, r.index < m.packages.size)
    (hnames : ((m.project project).packages.map fun r => (m.package r).name).Nodup) :
    ∃ (tier : Ref .package → Nat) (last : Nat), ∀ r ∈ (m.project project).packages,
      (m.sortByTier project names).package r = { m.package r with tier := tier r } ∧
      (m.ChainsEnd project names r → tier r < last ∧ m.ExactTier project names tier r) ∧
      (¬ m.ChainsEnd project names r → tier r = last) := by
  have hitems : ((m.tierItems project names).map Tiers.Item.name).Nodup := by
    rwa [tierItems, List.map_map]
  obtain ⟨last, hplaced⟩ := package_sortByTier hpackages hitems
  choose! tier hpackage htier using hplaced
  have hall : ∀ i ∈ m.tierItems project names,
      Tiers.Placed (m.tierItems project names) last i (tier i.content) :=
    forall_mem_map.mpr htier
  refine ⟨tier, last, fun r hr => ⟨hpackage r hr, fun hg => ?_, ?_⟩⟩
  · have := Tiers.tier_of_grounded hitems hall (mem_map_of_mem hr) hg
    simpa [ExactTier, tierItems, tierItem] using this
  · exact Tiers.tier_of_not_grounded hitems hall (mem_map_of_mem hr)

theorem ExactTier.lt {tier} (h : m.ExactTier project names tier r)
    (hq : q ∈ (m.project project).packages) (hneed : (m.package q).name ∈ m.needsAmong names r) :
    (tier q : Int) < tier r :=
  Int.ofNat_lt.mpr ((h.2 (ne_nil_of_mem hneed)).2 ⟨q, hq, hneed, rfl⟩)

/-- The packages of a project are sorted by exact tiers. -/
theorem sortedByTier (m : Model) (project : Ref .project) (names : List String)
    (hproject : project.index < m.projects.size)
    (hpackages : ∀ r ∈ (m.project project).packages, r.index < m.packages.size)
    (hnames : ((m.project project).packages.map fun r => (m.package r).name).Nodup) :
    SortedByTier m (m.sortByTier project names) project names := by
  obtain ⟨tier, last, htiers⟩ := exists_tiers names hpackages hnames
  have hsorted := pairwise_sortByTier names hproject
  refine ⟨?_, hsorted, ⟨tier, last, htiers⟩, fun r hr hend q hq hneed i j hi hj => ?_⟩
  · rw [packages_sortByTier names hproject]
    exact mergeSort_perm _ _
  · have hlt := ((htiers r hr).2.1 hend).2.lt hq hneed
    exact lt_of_tierKey_lt hsorted (tierKey_lt (htiers q hq).1 (htiers r hr).1 (.inl hlt)) hi hj

/-- Two packages that need each other, one that needs one of them and one that is not there, one
that needs nothing, and one that needs it. -/
def sampleProject : Model where
  projects := #[{ name := "all", packages := [⟨0⟩, ⟨1⟩, ⟨2⟩, ⟨3⟩, ⟨4⟩] }]
  packages := #[
    { name := "spin", dependencies := ["turn"] }, { name := "turn", dependencies := ["spin"] },
    { name := "app", dependencies := ["base", "roscpp"] }, { name := "base" },
    { name := "lost", dependencies := ["gone", "base"] }]

theorem sortedByTier_sample :
    let names := ["app", "base", "gone", "lost", "spin", "turn"]
    SortedByTier sampleProject (sampleProject.sortByTier ⟨0⟩ names) ⟨0⟩ names ∧
    (sampleProject.sortByTier ⟨0⟩ names).packages.toList.map Package.tier = [2, 2, 1, 0, 2] :=
  ⟨sortedByTier sampleProject ⟨0⟩ _ (by decide) (by decide) (by decide), by decide +kernel⟩

/-! ## Packages that wait for a missing one -/

/-- A chain of needs from the package leads to a name that was asked for and not found. -/
def HeldUp (m : Model) (project : Ref .project) (names : List String) (r : Ref .package) : Prop :=
  ∃ d, ReflTransGen (Tiers.Needs (m.tierItems project names)) (m.package r).name d ∧
    ∀ p ∈ (m.project project).packages, (m.package p).name ≠ d

theorem chainsEnd_iff (hends : ¬ ∃ chain : Nat → String, ∀ k,
      Tiers.Needs (m.tierItems project names) (chain k) (chain (k + 1))) :
    m.ChainsEnd project names r ↔ ¬ m.HeldUp project names r := by
  have hfound : ∀ d, (∃ i ∈ m.tierItems project names, i.name = d) ↔
      ¬ ∀ p ∈ (m.project project).packages, (m.package p).name ≠ d := by
    simp [tierItems, tierItem]
  simp only [HeldUp, not_exists, not_and, ← hfound]
  exact ⟨Tiers.Grounded.found, fun h => ⟨h, fun hc => hends (hc.imp fun _ hc => hc.2)⟩⟩

/-- If no chain of needs is endless, as one is when packages need each other in a circle, a package
comes after one that it needs exactly if that one is not held up by a missing package, or has the
lesser identifier. -/
theorem sortByTier_before_iff (m : Model) (project : Ref .project) (names : List String)
    (hproject : project.index < m.projects.size)
    (hpackages : ∀ r ∈ (m.project project).packages, r.index < m.packages.size)
    (hnames : ((m.project project).packages.map fun r => (m.package r).name).Nodup)
    (hfound : ∀ r ∈ (m.project project).packages, (m.package r).name ∈ names)
    (hends : ¬ ∃ chain : Nat → String, ∀ k,
      Tiers.Needs (m.tierItems project names) (chain k) (chain (k + 1))) :
    let sorted := ((m.sortByTier project names).project project).packages
    sorted.Perm (m.project project).packages ∧ ∀ r ∈ (m.project project).packages,
      ∀ q ∈ (m.project project).packages, (m.package q).name ∈ (m.package r).dependencies →
        ∀ i j : Nat, sorted[i]? = some q → sorted[j]? = some r →
          (i < j ↔ ¬ m.HeldUp project names q ∨ (m.package q).id < (m.package r).id) := by
  obtain ⟨tier, last, htiers⟩ := exists_tiers names hpackages hnames
  have hsorted := pairwise_sortByTier names hproject
  refine ⟨?_, fun r hr q hq hdep i j hi hj => ?_⟩
  · rw [packages_sortByTier names hproject]
    exact mergeSort_perm _ _
  have hneed : (m.package q).name ∈ m.needsAmong names r :=
    mem_filter.mpr ⟨hdep, contains_iff_mem.mpr (hfound q hq)⟩
  have hneeds : Tiers.Needs (m.tierItems project names) (m.package r).name (m.package q).name :=
    ⟨_, mem_map_of_mem hr, rfl, hneed⟩
  obtain ⟨hpackage, hbelow, hlast⟩ := htiers q hq
  obtain ⟨hpackage', hexact, hlast'⟩ := htiers r hr
  rw [← chainsEnd_iff hends]
  by_cases hend : m.ChainsEnd project names q
  · refine iff_of_true ?_ (.inl hend)
    refine lt_of_tierKey_lt hsorted (tierKey_lt hpackage hpackage' (.inl ?_)) hi hj
    by_cases hend' : m.ChainsEnd project names r
    · exact (hexact hend').2.lt hq hneed
    · exact Int.ofNat_lt.mpr (hlast' hend' ▸ (hbelow hend).1)
  · -- both share the last tier, where identifiers decide
    have hsame : (tier q : Int) = tier r :=
      congrArg _ ((hlast hend).trans (hlast' fun h => hend (h.of_needs hneeds)).symm)
    rw [or_iff_right hend]
    refine ⟨fun hij => ?_, fun hid =>
      lt_of_tierKey_lt hsorted (tierKey_lt hpackage hpackage' (.inr ⟨hsame, hid⟩)) hi hj⟩
    by_contra hnot
    rcases lt_or_eq_of_le (not_lt.mp hnot) with hid | hid
    · exact lt_asymm hij
        (lt_of_tierKey_lt hsorted (tierKey_lt hpackage' hpackage (.inr ⟨hsame.symm, hid⟩)) hj hi)
    · rw [(String.append_right_inj _).mp hid] at hneeds
      exact hends ⟨_, fun _ => hneeds⟩

/-- The arm needs the base, which needs a driver that is not there. -/
def unfinishedProject : Model where
  projects := #[{ name := "all", packages := [⟨0⟩, ⟨1⟩] }]
  packages := #[{ name := "arm", dependencies := ["base"] },
    { name := "base", dependencies := ["driver"] }]

theorem sortByTier_before_iff_unfinished :
    let names := ["arm", "base", "driver"]
    let sorted := ((unfinishedProject.sortByTier ⟨0⟩ names).project ⟨0⟩).packages
    ∀ i j : Nat, sorted[i]? = some ⟨1⟩ → sorted[j]? = some ⟨0⟩ →
      (i < j ↔ ¬ unfinishedProject.HeldUp ⟨0⟩ names ⟨1⟩ ∨ "package:base" < "package:arm") := by
  refine (sortByTier_before_iff unfinishedProject ⟨0⟩ _ (by decide) (by decide) (by decide)
    (by decide) ?_).2 ⟨0⟩ (by decide) ⟨1⟩ (by decide) (by decide)
  rintro ⟨chain, hchain⟩
  have hstep : ∀ i ∈ unfinishedProject.tierItems ⟨0⟩ ["arm", "base", "driver"], ∀ d ∈ i.needs,
      i.name = "arm" ∧ d = "base" ∨ i.name = "base" ∧ d = "driver" := by decide
  have hnext : ∀ k, chain k = "arm" ∧ chain (k + 1) = "base" ∨
      chain k = "base" ∧ chain (k + 1) = "driver" := fun k =>
    (hchain k).elim fun i hi => hi.2.1 ▸ hstep i hi.1 _ hi.2.2
  have := hnext 0
  have := hnext 1
  have := hnext 2
  grind

/-- The arm needs the base and comes before it. -/
theorem unfinished_before : "base" ∈ (unfinishedProject.package ⟨0⟩).dependencies ∧
    ((unfinishedProject.sortByTier ⟨0⟩ ["arm", "base", "driver"]).project ⟨0⟩).packages =
      [⟨0⟩, ⟨1⟩] :=
  ⟨by decide, (packages_sortByTier _ (by decide)).trans
    (mergeSort_of_pairwise (by decide +kernel))⟩

end Model

end RosAudit
