import RosAudit.Proofs.Configure.Frame.Scope

/-!
# The leaves of a nested value

A parameter whose value is a record stands for one parameter for each leaf. `unfold` finds the
leaves with a stack, from which the last entry of a record is taken first. `Value.leaves` lists them
by recursion, in document order and with the keys that lead to each, and `unfold_eq_leaves` says
that the stack gives this list backwards, each leaf under the name that its keys add up to.
-/

namespace RosAudit

open List

/-- Every key of the records in a value is a text. -/
inductive Value.Keyed : Value → Prop
  | record {es : List (Value × Value)} (hkeys : ∀ e ∈ es, ∃ key, e.1 = .text key)
      (hvalues : ∀ e ∈ es, e.2.Keyed) : (record es).Keyed
  | leaf {v : Value} (h : ∀ es, v ≠ .record es) : v.Keyed

def Value.key : Value → String
  | .text s => s
  | _ => ""

mutual

/-- The leaves of a value in document order, each with the keys that lead to it. -/
def Value.leaves : Value → List (List String × Value)
  | .record es => leavesOf es
  | v => [([], v)]

def Value.leavesOf : List (Value × Value) → List (List String × Value)
  | [] => []
  | e :: es => (e.2.leaves.map fun l => (e.1.key :: l.1, l.2)) ++ leavesOf es

end

/-- A leaf under the name that its keys add up to, from a name on. -/
def named (name : String) (l : List String × Value) : String × Value :=
  (l.1.foldl (fun ns key => joinName key ns) name, l.2)

theorem Value.leaves_of_ne {v : Value} (h : ∀ es, v ≠ .record es) : v.leaves = [([], v)] := by
  cases v with
  | record es => exact absurd rfl (h es)
  | _ => rfl

/-- What is found for a value on the stack. -/
def found (x : String × Value × Value) : List (String × Value) :=
  (x.2.2.leaves.map (named (joinName x.2.1.key x.1))).reverse

theorem flatMap_found (name es) :
    (es.reverse.map fun e => (name, e.1, e.2)).flatMap found =
      ((Value.leavesOf es).map (named name)).reverse := by
  induction es with
  | nil => rfl
  | cons e es ih =>
    have hkey : named name ∘ (fun l => (e.1.key :: l.1, l.2)) = named (joinName e.1.key name) := rfl
    rw [reverse_cons, map_append, flatMap_append, ih, Value.leavesOf, map_append,
      map_map, hkey, reverse_append]
    simp [found]

/-- The loop invariant : what is still to be found are the leaves of the values on the stack, from
the top down. -/
theorem unfoldAll_eq_found {stack : List (String × Value × Value)}
    (hkeys : ∀ x ∈ stack, ∃ key, x.2.1 = .text key) (hvalues : ∀ x ∈ stack, x.2.2.Keyed) :
    (unfoldAll stack).map (map fun x => (x.1, x.2.1)) = .ok (stack.flatMap found) := by
  fun_induction unfoldAll stack with
  | case1 => rfl
  | case2 ns key es stack ih =>
    obtain ⟨hes, hstack⟩ := forall_mem_cons.mp hvalues
    cases hes with
    | leaf h => exact absurd rfl (h es)
    | record hekeys hevalues =>
      simp only [pushEntries_eq, mem_append, mem_map, mem_reverse] at ih
      rw [pushEntries_eq, ih, flatMap_append, flatMap_found, flatMap_cons]
      · rfl
      · rintro x (⟨e, he, rfl⟩ | hx)
        · exact hekeys e he
        · exact hkeys x (mem_cons_of_mem _ hx)
      · rintro x (⟨e, he, rfl⟩ | hx)
        · exact hevalues e he
        · exact hstack x hx
  | case3 ns key v stack hne ih =>
    have hrest := ih (forall_mem_cons.mp hkeys).2 (forall_mem_cons.mp hvalues).2
    have hv : found (ns, .text key, v) = [(joinName key ns, v)] := by
      simp [found, Value.leaves_of_ne hne, named, Value.key]
    rw [flatMap_cons, hv]
    cases hall : unfoldAll stack with
    | error f => rw [hall] at hrest; cases hrest
    | ok rest =>
      rw [hall] at hrest
      exact congrArg (Except.map ((joinName key ns, v) :: ·)) hrest
  | case4 stack hnil _ hleaf =>
    obtain ⟨⟨ns, k, v⟩, rest, rfl⟩ := exists_cons_of_ne_nil hnil
    obtain ⟨key, rfl⟩ := hkeys _ mem_cons_self
    exact absurd rfl (hleaf ns key v rest)

/-- Unfolding a value gives its leaves in the reverse of their document order, each once and under
the name that its keys add up to. A value that is no record is its own leaf. -/
theorem unfold_eq_leaves (name : String) {v : Value} (h : v.Keyed) :
    (unfold name v).map (map fun x => (x.1, x.2.1)) =
      .ok (v.leaves.reverse.map (named name)) ∧
    ((∀ es, v ≠ .record es) →
      (unfold name v).map (map fun x => (x.1, x.2.1)) = .ok [(name, v)]) := by
  have hname : joinName name "" = name := by
    unfold joinName
    split <;> rfl
  have hall : (unfold name v).map (map fun x => (x.1, x.2.1)) =
      .ok (v.leaves.reverse.map (named name)) := by
    rw [unfold, unfoldAll_eq_found (forall_mem_singleton.mpr ⟨name, rfl⟩)
      (forall_mem_singleton.mpr h)]
    simp [found, Value.key, hname]
  refine ⟨hall, fun hne => ?_⟩
  rw [hall, Value.leaves_of_ne hne]
  rfl

/-- A record with a record, an empty one and a list in it. -/
def gains : Value :=
  .object [("p", .int 2), ("d", .object [("rate", .int 5), ("~raw", .bool true)]),
    ("none", .object []), ("ks", .list [.int 1])]

theorem unfold_eq_leaves_gains : gains.Keyed ∧
    (unfold "arm" gains).map (map fun x => (x.1, x.2.1)) =
      .ok [("arm/ks", .list [.int 1]), ("~raw", .bool true), ("arm/d/rate", .int 5),
        ("arm/p", .int 2)] := by
  have hkeyed : gains.Keyed := by
    refine .record (by simp) ?_
    simp only [forall_mem_map, forall_mem_cons]
    refine ⟨.leaf (by simp), .record (by simp) ?_, .record (by simp) (by simp), .leaf (by simp),
      forall_mem_nil _⟩
    simp only [forall_mem_map, forall_mem_cons]
    exact ⟨.leaf (by simp), .leaf (by simp), forall_mem_nil _⟩
  exact ⟨hkeyed, (unfold_eq_leaves "arm" hkeyed).1⟩

end RosAudit
