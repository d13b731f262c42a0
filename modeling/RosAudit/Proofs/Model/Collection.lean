import Mathlib.Algebra.BigOperators.Ring.Finset
import Mathlib.Data.List.Induction
import RosAudit.Model.Graph
import RosAudit.Proofs.Table

/-!
# Names in a collection

A collection counts how often each name was listed. `Collection.Counts` says that its counter has
every name that is listed, once, so that the collisions of a collection are the listings whose name
was there before (`Counts.collisions_eq`). It goes on to hold when a resource is listed
(`Counts.add`).

Looking a name up finds the last listing of it (`lookup_eq_some_iff`). `collections_tell` has all
that a collection tells after any listings.
-/

namespace RosAudit

open List

theorem Table.contains_iff {κ α : Type} [BEq κ] [LawfulBEq κ] {t : Table κ α} {k} :
    t.contains k = true ↔ k ∈ t.keys := by
  rw [contains, get?, lookup_isSome_iff, keys, mem_map]
  simp only [beq_iff_eq, eq_comm (a := k)]

namespace Table

variable {t : Table String Nat}

theorem size_eq_dedup {names : List String} (hnodup : t.keys.Nodup)
    (hmem : ∀ id, id ∈ t.keys ↔ id ∈ names) : t.size = names.dedup.length := by
  have hperm : t.keys.Perm names.dedup := by
    rw [perm_ext_iff_of_nodup hnodup (nodup_dedup _)]
    intro id
    rw [hmem, mem_dedup]
  rw [← hperm.length_eq]
  exact (length_map _).symm

theorem sum_values_put (t : Table String Nat) (id n) :
    (t.put id (t.getD id 0 + n)).values.sum = t.values.sum + n := by
  obtain ⟨es⟩ := t
  simp only [put, values, getD, get?]
  induction es with
  | nil => simp [putEntry]
  | cons e es ih =>
    rw [lookup_cons, putEntry]
    cases id == e.1 with
    | true => simp [Nat.add_right_comm]
    | false => simp [ih, Nat.add_assoc]

/-- What two tables count, together. -/
def plus (t u : Table String Nat) : Table String Nat :=
  u.entries.foldl (fun t e => t.put e.1 (t.getD e.1 0 + e.2)) t

/-- A table has some names, each once, with as many occurrences as there are of them all. -/
structure Sums (t : Table String Nat) (names : List String) : Prop where
  nodup : t.keys.Nodup
  mem_keys : ∀ id, id ∈ t.keys ↔ id ∈ names
  sum_eq : t.values.sum = names.length

theorem Sums.plus {u names names'} (h : t.Sums names) (h' : u.Sums names') :
    (t.plus u).Sums (names ++ names') := by
  have hboth : (t.plus u).values.sum = t.values.sum + u.values.sum ∧
      (∀ id, id ∈ (t.plus u).keys ↔ id ∈ t.keys ∨ id ∈ u.keys) ∧ (t.plus u).keys.Nodup := by
    have hnodup := h.nodup
    clear h h'
    obtain ⟨es⟩ := u
    induction es generalizing t with
    | nil => exact ⟨rfl, fun _ => by simp [Table.plus, keys], hnodup⟩
    | cons e es ih =>
      obtain ⟨hsum, hmem, hnodup⟩ := ih (nodup_keys_put hnodup e.1 (t.getD e.1 0 + e.2))
      rw [Table.plus, foldl_cons, ← Table.plus]
      refine ⟨?_, fun id => ?_, hnodup⟩
      · rw [hsum, sum_values_put, Nat.add_assoc]
        rfl
      · rw [hmem, mem_keys_put, or_assoc, or_left_comm]
        exact or_congr_right mem_cons.symm
  obtain ⟨hsum, hmem, hnodup⟩ := hboth
  refine ⟨hnodup, fun id => ?_, ?_⟩
  · rw [hmem, h.mem_keys, h'.mem_keys, mem_append]
  · rw [hsum, h.sum_eq, h'.sum_eq, length_append]

end Table

variable {k : EntityKind}

namespace Collection

variable {c : Collection k} {nameOf : Ref k → String}

theorem contains_add {r id name guarded} :
    (c.add r id guarded).1.contains name = true ↔ name = id ∨ c.contains name = true := by
  rw [contains, Collection.add, Table.contains_iff, Table.mem_keys_put, contains,
    Table.contains_iff]

/-- The counter of a collection has the name of all that is listed, each once. -/
structure Counts (c : Collection k) (nameOf : Ref k → String) : Prop where
  nodup : c.counter.keys.Nodup
  mem_keys : ∀ id, id ∈ c.counter.keys ↔ id ∈ c.all.map nameOf

theorem counts_empty (nameOf : Ref k → String) : Counts {} nameOf :=
  ⟨nodup_nil, fun _ => Iff.rfl⟩

section

variable (h : c.Counts nameOf)
include h

theorem Counts.congr {nameOf'} (heq : ∀ r ∈ c.all, nameOf' r = nameOf r) : c.Counts nameOf' :=
  ⟨h.nodup, fun id => by rw [h.mem_keys, map_congr_left heq]⟩

theorem Counts.add (r : Ref k) (guarded : Bool) : (c.add r (nameOf r) guarded).1.Counts nameOf where
  nodup := Table.nodup_keys_put h.nodup _ _
  mem_keys id := by
    simp only [Collection.add]
    rw [Table.mem_keys_put, h.mem_keys, map_append, mem_append, map_singleton,
      mem_singleton, or_comm]

theorem Counts.contains_iff (id : String) : c.contains id = true ↔ id ∈ c.all.map nameOf :=
  Table.contains_iff.trans (h.mem_keys id)

theorem Counts.collisions_eq :
    c.collisions = (c.all.length : Int) - ((c.all.map nameOf).dedup.length : Nat) := by
  rw [collisions, Table.size_eq_dedup h.nodup h.mem_keys]

end

/-- The counter of a collection says how often each name is listed. -/
structure Tallies (c : Collection k) (nameOf : Ref k → String) : Prop extends Counts c nameOf where
  sum_eq : c.counter.values.sum = (c.all.map nameOf).length
  getD_eq : ∀ id, c.counter.getD id 0 = (c.all.map nameOf).count id

theorem Tallies.add (h : c.Tallies nameOf) (r : Ref k) (guarded : Bool) :
    (c.add r (nameOf r) guarded).1.Tallies nameOf := by
  refine ⟨h.toCounts.add r guarded, ?_, fun id => ?_⟩
  · simp only [Collection.add, map_append, length_append, ← h.sum_eq]
    exact Table.sum_values_put c.counter (nameOf r) 1
  · simp only [Collection.add, Table.getD, Table.get?_put, map_append, count_append]
    rw [← h.getD_eq, Table.getD]
    by_cases hid : id = nameOf r
    · simp [hid]
    · simp [hid, Ne.symm hid]

theorem Tallies.sums (h : c.Tallies nameOf) : c.counter.Sums (c.all.map nameOf) :=
    ⟨h.nodup, h.mem_keys, h.sum_eq⟩

/-- The collection that some listings lead to. With each resource it is said whether it was guarded
then. -/
def listings (nameOf : Ref k → String) (hist : List (Ref k × Bool)) : Collection k :=
  hist.foldl (fun c x => (c.add x.1 (nameOf x.1) x.2).1) {}

theorem tallies_listings (nameOf : Ref k → String) (hist : List (Ref k × Bool)) :
    (listings nameOf hist).Tallies nameOf ∧ (listings nameOf hist).all = hist.map Prod.fst := by
  induction hist using reverseRecOn with
  | nil => exact ⟨⟨counts_empty nameOf, rfl, fun _ => rfl⟩, rfl⟩
  | append_singleton hist x ih =>
    rw [listings, foldl_append, map_append]
    exact ⟨ih.1.add x.1 x.2, congrArg (· ++ [x.1]) ih.2⟩

end Collection

/-- Is a resource looked for? -/
def Model.Fits (m : Model) (nameOf : Ref k → String) (name : String) (conditional : Bool)
    (r : Ref k) : Prop :=
  nameOf r = name ∧ (conditional = true ∨ m.guardsOf r.entity = [])

theorem Model.lookup_eq_some {m : Model} {c : Collection k} {r : Ref k} {name} (hr : r ∈ c.all)
    (hname : m.id? r.entity = some name)
    (honly : ∀ r' ∈ c.all, m.id? r'.entity = some name → r' = r) : m.lookup c name = some r := by
  have hfound : m.lookup c name ≠ none := by
    intro hnone
    have := find?_eq_none.mp hnone r (mem_reverse.mpr hr)
    simp [hname] at this
  obtain ⟨r', hr'⟩ := Option.ne_none_iff_exists'.mp hfound
  have hmatch := find?_some hr'
  rw [Bool.and_eq_true, beq_iff_eq] at hmatch
  rw [hr', honly r' (mem_reverse.mp (List.mem_of_find?_eq_some hr')) hmatch.1]

section

variable {m : Model} {c : Collection k} {nameOf : Ref k → String}
  (hid : ∀ r ∈ c.all, m.id? r.entity = some (nameOf r)) (name : String) (conditional : Bool)
include hid

theorem Model.test_eq_true {r} (hr : r ∈ c.all) : (m.id? r.entity == some name &&
    (conditional || (m.guardsOf r.entity).isEmpty)) = true ↔ m.Fits nameOf name conditional r := by
  simp [hid r hr, Fits]

theorem Model.lookup_eq_some_iff (r : Ref k) : m.lookup c name conditional = some r ↔
    ∃ before after, c.all = before ++ r :: after ∧ m.Fits nameOf name conditional r ∧
      ∀ r' ∈ after, ¬m.Fits nameOf name conditional r' := by
  have htest {r} := test_eq_true (r := r) hid name conditional
  rw [lookup, find?_eq_some_iff_append]
  constructor
  · rintro ⟨hr, after, before, hall, hafter⟩
    rw [reverse_eq_iff, reverse_append, reverse_cons, append_assoc] at hall
    refine ⟨_, _, hall, (htest (by simp [hall])).mp hr, fun r' hr' => ?_⟩
    rw [← htest (by simp [hall, mem_reverse.mp hr']), Bool.not_eq_true, ← Bool.not_eq_true']
    exact hafter r' (mem_reverse.mp hr')
  · rintro ⟨before, after, hall, hr, hafter⟩
    refine ⟨(htest (by simp [hall])).mpr hr, after.reverse, before.reverse, by simp [hall],
      fun r' hr' => ?_⟩
    rw [Bool.not_eq_true', ← Bool.not_eq_true, htest (by simp [hall, mem_reverse.mp hr'])]
    exact hafter r' (mem_reverse.mp hr')

theorem Model.lookup_eq_none_iff : m.lookup c name conditional = none ↔
    ∀ r ∈ c.all, ¬m.Fits nameOf name conditional r := by
  rw [lookup, find?_eq_none]
  simp only [mem_reverse]
  exact forall₂_congr fun r hr => not_congr (test_eq_true hid name conditional hr)

end

/-- What a collection tells of the resources that were listed, one after the other. -/
structure Collection.Tells (m : Model) (nameOf : Ref k → String) (hist : List (Ref k × Bool)) :
    Prop where
  add : ∀ r guarded, ((listings nameOf hist).add r (nameOf r) guarded).2 =
    hist.countP (nameOf ·.1 = nameOf r)
  length : (listings nameOf hist).all.length = (listings nameOf hist).counter.values.sum
  contains : ∀ id, (listings nameOf hist).contains id = true ↔ ∃ x ∈ hist, nameOf x.1 = id
  lookup : ∀ name conditional r, m.lookup (listings nameOf hist) name conditional = some r ↔
    ∃ before after, hist.map Prod.fst = before ++ r :: after ∧ m.Fits nameOf name conditional r ∧
      ∀ r' ∈ after, ¬m.Fits nameOf name conditional r'
  lookup_none : ∀ name conditional, m.lookup (listings nameOf hist) name conditional = none ↔
    ∀ x ∈ hist, ¬m.Fits nameOf name conditional x.1
  collisions : (listings nameOf hist).collisions =
    (hist.length : Int) - ((hist.map (nameOf ·.1)).dedup.length : Nat)

/-- **Collections count and find what was listed**, and a configuration has as many collisions as
there are resources in its four collections beyond the first of each name. -/
theorem collections_tell (m : Model) (nameOf : ∀ k, Ref k → String) :
    (∀ k (hist : List (Ref k × Bool)), (∀ x ∈ hist, m.id? x.1.entity = some (nameOf k x.1)) →
      Collection.Tells m (nameOf k) hist) ∧
    ∀ (c : Configuration) (nodes : List (Ref .inst × Bool)) (topics : List (Ref .topic × Bool))
      (services : List (Ref .service × Bool)) (params : List (Ref .param × Bool)),
      Model.collisions { c with
        nodes := .listings (nameOf _) nodes, topics := .listings (nameOf _) topics,
        services := .listings (nameOf _) services, params := .listings (nameOf _) params } =
      ((nodes.length + topics.length + services.length + params.length : Nat) : Int) -
        ((nodes.map (nameOf _ ·.1) ++ topics.map (nameOf _ ·.1) ++ services.map (nameOf _ ·.1) ++
          params.map (nameOf _ ·.1)).dedup.length : Nat) := by
  constructor
  · intro k hist hid
    obtain ⟨h, hall⟩ := Collection.tallies_listings (nameOf k) hist
    have hnames :
        (Collection.listings (nameOf k) hist).all.map (nameOf k) = hist.map (nameOf k ·.1) := by
      rw [hall, map_map]
      rfl
    have hid : ∀ r ∈ (Collection.listings (nameOf k) hist).all,
        m.id? r.entity = some (nameOf k r) := by
      rw [hall]
      exact forall_mem_map.mpr hid
    refine ⟨fun r guarded => ?_, (h.sum_eq.trans (length_map _)).symm, fun id => ?_,
      fun name conditional r => ?_, fun name conditional => ?_, ?_⟩
    · refine (h.getD_eq _).trans ?_
      rw [hnames, count_eq_countP, countP_map]
      rfl
    · simp [h.contains_iff, hnames]
    · rw [Model.lookup_eq_some_iff hid, hall]
    · rw [Model.lookup_eq_none_iff hid, hall, forall_mem_map]
    · rw [h.collisions_eq, hnames, hall, length_map]
  · intro c nodes topics services params
    obtain ⟨hn, hnodes⟩ := Collection.tallies_listings (nameOf _) nodes
    obtain ⟨ht, htopics⟩ := Collection.tallies_listings (nameOf _) topics
    obtain ⟨hs, hservices⟩ := Collection.tallies_listings (nameOf _) services
    obtain ⟨hp, hparams⟩ := Collection.tallies_listings (nameOf _) params
    have hempty : Table.empty.Sums [] := ⟨nodup_nil, fun _ => Iff.rfl, rfl⟩
    have hsums := (((hempty.plus hn.sums).plus ht.sums).plus hs.sums).plus hp.sums
    rw [hnodes, htopics, hservices, hparams] at hsums
    simp only [map_map] at hsums
    refine (congrArg₂ (fun a b : Nat => (a : Int) - b) (sum_eq_foldl.symm.trans hsums.sum_eq)
      (Table.size_eq_dedup hsums.nodup hsums.mem_keys)).trans ?_
    simp [Function.comp_def, Int.add_assoc]

/-- Two topics. -/
def hall : Model :=
  { topics := #[{ configuration := ⟨0⟩, name := ⟨"seen", "/seen"⟩, guards := ⟨0⟩ },
      { configuration := ⟨0⟩, name := ⟨"heard", "/heard"⟩, guards := ⟨0⟩ }] }

def hallName (k : EntityKind) (r : Ref k) : String := (hall.id? r.entity).getD ""

/-- The first topic is listed twice. -/
def hallHistory : List (Ref .topic × Bool) := [(⟨0⟩, false), (⟨1⟩, true), (⟨0⟩, true)]

/-- One of two topics is listed twice. -/
theorem collections_tell_twice : Collection.Tells hall (hallName .topic) hallHistory ∧
    Model.collisions { (default : Configuration) with
      nodes := .listings (hallName _) [], topics := .listings (hallName _) hallHistory
      services := .listings (hallName _) [], params := .listings (hallName _) [] } = 1 := by
  obtain ⟨htells, hcollisions⟩ := collections_tell hall hallName
  exact ⟨htells .topic hallHistory (by decide),
    (hcollisions default [] hallHistory [] []).trans (by decide)⟩

end RosAudit
