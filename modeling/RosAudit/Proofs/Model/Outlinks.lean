import Mathlib.Data.Set.Function
import Mathlib.Logic.Relation
import RosAudit.Model.Graph
import RosAudit.Proofs.Job

/-!
# Who hears from a node

A node instance reaches the subscribers of the topics it publishes and the servers of the services
it asks (`Model.Hears`), and through them others. `Model.follow` takes instances from a queue, and
each time puts the successors of the first one into it again. After the first turn nothing new can
come into the queue, so the loop lists what is in it then, each name once (`Model.outlinks_eq`).

It goes no further than one step, so it lists all that is reached exactly if two steps never lead to
anything new (`Model.outlinks_reaches_iff`).
-/

namespace RosAudit.Model

open Relation List

/-- A message of `a` gets to `b` : `b` subscribes to a topic of `a`, or serves what `a` asks for. -/
def Hears (m : Model) (a b : Ref .inst) : Prop :=
  (∃ p ∈ (m.inst a).publishers, ∃ s ∈ (m.topic ⟨(m.link p).target.index⟩).subscribers,
    (m.link s).node = b) ∨
  ∃ c ∈ (m.inst a).clients, ∃ l ∈ serversOf (m.service ⟨(m.link c).target.index⟩),
    (m.link l).node = b

/-- No service has taken over the server of another one, as only a copy under a new name does. -/
def ServedApart (m : Model) : Prop := ∀ r s, (m.service r).server ≠ .group s

variable {m : Model}

theorem successors_ok (h : m.ServedApart) (r : Ref .inst) :
    ∃ next, m.successors r = .ok next ∧ ∀ x, x ∈ next ↔ m.Hears r x := by
  let asked := fun c : Ref .link =>
    (serversOf (m.service ⟨(m.link c).target.index⟩)).map fun l => (m.link l).node
  refine ⟨_, bind_eq_ok.mpr ⟨_, mapM_eq_ok_map (g := asked) fun c _ => ?_, rfl⟩, fun x => ?_⟩
  · dsimp only [asked, serversOf]
    cases hs : (m.service ⟨(m.link c).target.index⟩).server with
    | nobody | one l | empty => rfl
    | group s => exact absurd hs (h _ s)
  · simp [asked, Hears]

/-! ## Taking from a queue -/

/-- The first instance of each name that was not seen before. -/
def firstByName (m : Model) : List String → List (Ref .inst) → List (Ref .inst)
  | _, [] => []
  | seen, r :: rs =>
    if (m.inst r).name.full ∈ seen then firstByName m seen rs
    else r :: firstByName m ((m.inst r).name.full :: seen) rs

/-- Every one of the instances `xs` has a name that was seen, or that one in the queue has. -/
def Covered (m : Model) (seen : List String) (queue xs : List (Ref .inst)) : Prop :=
  ∀ x ∈ xs, (m.inst x).name.full ∈ seen ∨ ∃ y ∈ queue, (m.inst y).name.full = (m.inst x).name.full

/-- When the first of a queue was taken, its name has been seen. -/
theorem Covered.take {seen seen' : List String} {r queue xs} (h : m.Covered seen (r :: queue) xs)
    (hsub : seen ⊆ seen') (hr : (m.inst r).name.full ∈ seen') : m.Covered seen' queue xs := by
  intro x hx
  rcases h x hx with hseen | ⟨y, hy, hname⟩
  · exact .inl (hsub hseen)
  · rcases mem_cons.mp hy with rfl | hy
    · exact .inl (hname ▸ hr)
    · exact .inr ⟨y, hy, hname⟩

theorem firstByName_append {seen queue xs} (h : m.Covered seen queue xs) :
    m.firstByName seen (queue ++ xs) = m.firstByName seen queue := by
  induction queue generalizing seen with
  | nil =>
    induction xs with
    | nil => rfl
    | cons x xs ih =>
      have hx : (m.inst x).name.full ∈ seen := by simpa using h x mem_cons_self
      simp only [nil_append, firstByName, hx, if_true]
      exact ih fun y hy => h y (mem_cons_of_mem x hy)
  | cons r queue ih =>
    rw [cons_append, firstByName, firstByName]
    split
    · rw [ih (h.take (Subset.refl _) ‹_›)]
    · rw [ih (h.take (subset_cons_self _ _) mem_cons_self)]

/-- Once the queue has every name that the successors of `r` bring again, all that is still listed
are the first of each name in it. -/
theorem follow_eq {r next} (hnext : m.successors r = .ok next) (queue visited nodes)
    (h : m.Covered visited queue next) :
    m.follow r queue visited nodes = .ok (nodes ++ m.firstByName visited queue) := by
  fun_induction m.follow r queue visited nodes with
  | case1 visited nodes => simp [firstByName, pure_eq_ok]
  | case2 visited nodes current queue hseen ih =>
    rw [contains_iff_mem] at hseen
    rw [ih (h.take (Subset.refl _) hseen), firstByName, if_pos hseen]
  | case3 visited nodes current queue hseen ih =>
    rw [contains_iff_mem] at hseen
    have hrest := h.take (subset_cons_self _ _) mem_cons_self
    rw [hnext, ok_bind, ih next fun x hx => (hrest x hx).imp_right ?_, firstByName, if_neg hseen,
      firstByName_append hrest, append_assoc, singleton_append]
    rintro ⟨y, hy, hname⟩
    exact ⟨y, mem_append_left next hy, hname⟩

/-- The loop ends for every graph, and stops only if the successors of the first instance cannot be
told. -/
theorem outlinks_eq (m : Model) (r : Ref .inst) :
    m.outlinks r = (m.successors r).map fun next => m.firstByName [] (r :: next) := by
  rw [outlinks, follow, if_neg (by simp)]
  cases hnext : m.successors r with
  | error f => rfl
  | ok next =>
    have hcovered : m.Covered [(m.inst r).name.full] next next := fun x hx => .inr ⟨x, hx, rfl⟩
    rw [ok_bind, nil_append, follow_eq hnext _ _ _ hcovered]
    rfl

theorem firstByName_spec (rs) (hnames : Set.InjOn (fun x => (m.inst x).name.full) { x | x ∈ rs })
    (seen) :
    ((m.firstByName seen rs).map fun x => (m.inst x).name.full).Nodup ∧
      ∀ x, x ∈ m.firstByName seen rs ↔ x ∈ rs ∧ (m.inst x).name.full ∉ seen := by
  induction rs generalizing seen with
  | nil => simp [firstByName]
  | cons r rs ih =>
    have hfirst := fun x (hx : x ∈ rs) => hnames (mem_cons_of_mem r hx) mem_cons_self
    replace ih := ih (hnames.mono fun x => mem_cons_of_mem r)
    by_cases hseen : (m.inst r).name.full ∈ seen
    · simp only [firstByName, hseen, if_true]
      grind
    · simp only [firstByName, hseen, if_false, map_cons]
      grind

/-! ## What is listed -/

/-- What is listed starts with the instance itself, has each name once, and is what can be reached
in at most one step. So nothing is missing exactly if a second step leads to nothing new. -/
theorem outlinks_reaches_iff (m : Model) (h : m.ServedApart) (r : Ref .inst)
    (hnames : Set.InjOn (fun x => (m.inst x).name.full) { x | x = r ∨ m.Hears r x }) :
    ∃ rs, m.outlinks r = .ok rs ∧ rs.head? = some r ∧
      (rs.map fun x => (m.inst x).name.full).Nodup ∧ (∀ x, x ∈ rs ↔ x = r ∨ m.Hears r x) ∧
      ((∀ x, x ∈ rs ↔ ReflTransGen m.Hears r x) ↔
        ∀ x y, m.Hears r x → m.Hears x y → y = r ∨ m.Hears r y) := by
  obtain ⟨next, hnext, hmem⟩ := successors_ok h r
  obtain ⟨hnodup, hlisted⟩ := firstByName_spec (r :: next) (by simpa [hmem] using hnames) []
  simp only [mem_cons, hmem, not_mem_nil, not_false_eq_true, and_true] at hlisted
  refine ⟨_, by rw [outlinks_eq, hnext]; rfl, rfl, hnodup, hlisted, ?_⟩
  simp only [hlisted]
  constructor
  · intro hall x y hx hy
    exact (hall y).mpr (.tail (.single hx) hy)
  · refine fun hclosed x => ⟨fun hx => ?_, fun hx => ?_⟩
    · rcases hx with rfl | hx
      · exact .refl
      · exact .single hx
    · induction hx with
      | refl => exact .inl rfl
      | tail _ hstep ih =>
        rcases ih with rfl | hfirst
        · exact .inr hstep
        · exact hclosed _ _ hfirst hstep

/-- The eye publishes what the ear subscribes to, and the ear asks what the arm serves. -/
def relay : Model :=
  let inst (s : String) : NodeInstance :=
    { configuration := ⟨0⟩, name := ⟨s, s⟩, node := ⟨0⟩, guards := ⟨0⟩ }
  let link (m : Model) (i : Nat) (target : Entity) (side : LinkSide) : Model :=
    let x : Link := { role := .topic, node := ⟨i⟩, target, name := ⟨"", ""⟩, guards := ⟨0⟩ }
    (m.addLink x).1.attach (m.addLink x).2 side
  let m : Model :=
    { instances := #[inst "/eye", inst "/ear", inst "/arm"]
      topics := #[{ configuration := ⟨0⟩, name := ⟨"/seen", "/seen"⟩, guards := ⟨0⟩ }]
      services := #[{ configuration := ⟨0⟩, name := ⟨"/move", "/move"⟩, guards := ⟨0⟩ }] }
  let m := link (link m 0 ⟨.topic, 0⟩ .publishers) 1 ⟨.topic, 0⟩ .subscribers
  link (link m 1 ⟨.service, 0⟩ .clients) 2 ⟨.service, 0⟩ .servers

theorem relay_hears {x} (h : relay.Hears ⟨0⟩ x) : x = ⟨1⟩ := by
  rcases h with ⟨p, hp, s, hs, rfl⟩ | ⟨c, hc, -⟩
  · cases mem_singleton.mp hp
    cases mem_singleton.mp hs
    rfl
  · cases hc

theorem outlinks_reaches_iff_relay :
    ∃ rs, relay.outlinks ⟨0⟩ = .ok rs ∧ ∀ x, x ∈ rs ↔ x = ⟨0⟩ ∨ relay.Hears ⟨0⟩ x := by
  have hserved : relay.ServedApart := by rintro ⟨_ | r⟩ s h <;> cases h
  obtain ⟨rs, hrs, -, -, hmem, -⟩ := outlinks_reaches_iff relay hserved ⟨0⟩
    ((Set.injOn_pair.mpr (by decide)).mono fun x hx => hx.imp_right relay_hears)
  exact ⟨rs, hrs, hmem⟩

/-- The arm is reached from the eye and not listed. -/
theorem outlinks_relay : relay.outlinks ⟨0⟩ = .ok [⟨0⟩, ⟨1⟩] ∧
    ReflTransGen relay.Hears ⟨0⟩ ⟨2⟩ := by
  refine ⟨by rw [outlinks_eq]; decide, .tail (.single (b := ⟨1⟩) (.inl ?_)) (.inr ?_)⟩
  · exact ⟨⟨0⟩, by decide, ⟨1⟩, by decide, rfl⟩
  · exact ⟨⟨2⟩, by decide, ⟨3⟩, by decide, rfl⟩

end RosAudit.Model
