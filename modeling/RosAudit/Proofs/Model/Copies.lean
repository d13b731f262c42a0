import RosAudit.Proofs.Model.Listing

/-!
# Copies under another name

A resource can be copied under another name. The copy is new, has a list of guards of its own that
says the same, and nothing that was there changes (`Model.Copied`).

Besides the name and the guards, a topic is copied field by field, and so is a node instance up to
its arguments : the copy has the list of them, which is something else if they were one text, and
there is no copy if they cannot be listed. The copy of a service has a group with its server in
place of the server, and the copy of a parameter has no launch file (`Model.remap_copies`).
-/

namespace RosAudit

def Parameter.typeOrImplied (p : Parameter) : Option String :=
  (nonEmpty? p.type).orElse fun _ => typeOfValue p.value

namespace Model

variable {m : Model} {k : EntityKind} {α : Type} [Inhabited α] {c : Model × Ref k}
  {store : Model → Array α} {g : Ref .guards} {x : Ref .guards → α}

/-- The resource `c.2` is new, and it is `x` with a copy of the guards `g`. All the rest is as it
was. -/
structure Copied (m : Model) (c : Model × Ref k) (store : Model → Array α) (g : Ref .guards)
    (x : Ref .guards → α) : Prop where
  rest : Grows m c.1
  new : c.2 = ⟨(store m).size⟩
  copy : (store c.1).getD c.2.index default = x ⟨m.guards.size⟩
  guards : c.1.guardList ⟨m.guards.size⟩ = m.guardList g

theorem copied_push (hgrows : Grows (m.copyGuards g).1 c.1) (hnew : c.2 = ⟨(store m).size⟩)
    (hstore : store c.1 = (store m).push (x ⟨m.guards.size⟩))
    (hguards : c.1.guards = (m.copyGuards g).1.guards) : m.Copied c store g x where
  rest := (m.grows_addGuards _).trans hgrows
  new := hnew
  copy := by
    rw [hstore, hnew]
    exact getD_push_size _ _ _
  guards := by
    rw [guardList, hguards]
    exact getD_push_size _ _ _

/-- What a copy under another name has, for every kind of resource. -/
theorem remap_copies (m : Model) (n : Name) :
    (∀ r, (∃ f, (m.inst r).argv.each = .error f ∧ m.remapInstance r n = .error f) ∨
      ∃ argv c, (m.inst r).argv.each = .ok argv ∧ m.remapInstance r n = .ok c ∧
        m.Copied c instances (m.inst r).guards fun g =>
          { m.inst r with name := n, guards := g, argv := .list argv }) ∧
    (∀ r, m.Copied (m.remapTopic r n) topics (m.topic r).guards fun g =>
      { m.topic r with name := n, guards := g }) ∧
    (∀ r, m.Copied (m.remapService r n) services (m.service r).guards fun g =>
      { m.service r with name := n, guards := g, server := (m.service r).server.grouped }) ∧
    ∀ r, m.Copied (m.remapParam r n) params (m.param r).guards fun g =>
      { m.param r with
        name := n, guards := g, launch := none, type := (m.param r).typeOrImplied } := by
  refine ⟨fun r => ?_, fun r => copied_push (grows_addTopic _ _) rfl rfl rfl,
    fun r => copied_push (grows_addService _ _) rfl rfl rfl,
    fun r => copied_push (grows_makeParam _ _) rfl rfl rfl⟩
  cases hargv : (m.inst r).argv.each with
  | error f => exact .inl ⟨f, rfl, by rw [remapInstance, hargv]; rfl⟩
  | ok argv =>
    refine .inr ⟨argv, _, rfl, by rw [remapInstance, hargv]; rfl, copied_push ?_ rfl rfl rfl⟩
    exact { Grows.refl _ with instances := kept_push _ _ }

/-- A node with one text for its arguments, a service with a server, and a parameter that a launch
file sets. -/
def forge : Model where
  instances := #[{ configuration := ⟨0⟩, name := ⟨"smith", "/smith"⟩, node := ⟨0⟩, guards := ⟨0⟩
                   argv := .text "-v" }]
  services := #[{ configuration := ⟨0⟩, name := ⟨"grind", "/grind"⟩, guards := ⟨0⟩
                  server := .one ⟨0⟩ }]
  params := #[{ configuration := ⟨0⟩, name := ⟨"rate", "/rate"⟩, type := some "int", value := .int 5
                launch := some ⟨0⟩, guards := ⟨1⟩ }]
  guards := #[[], []]

/-- The copy of the parameter has no launch file, the server of the service is no longer one link,
and the argument of the node has come apart. -/
theorem forge_copies_differ :
    ((forge.remapParam ⟨0⟩ ⟨"speed", "/speed"⟩).1.param ⟨1⟩).launch ≠ (forge.param ⟨0⟩).launch ∧
    ((forge.remapService ⟨0⟩ ⟨"crush", "/crush"⟩).1.service ⟨1⟩).server ≠
      (forge.service ⟨0⟩).server ∧
    (forge.remapInstance ⟨0⟩ ⟨"mason", "/mason"⟩).map (fun c => (c.1.inst c.2).argv) =
      .ok (.texts ["-", "v"]) :=
  ⟨by decide, by decide, rfl⟩

end Model

end RosAudit
