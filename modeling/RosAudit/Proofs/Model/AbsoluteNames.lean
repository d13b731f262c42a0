import RosAudit.Proofs.Model.Quiet

/-!
# Absolute names

A name of the graph is absolute if it begins at the root. Names are put together from a namespace
and a private namespace, and then renamed : the outcome is absolute whatever was written, as long as
the namespaces and the new names are (`Name.isAbsolute_make`).

`Model.Absolute m r` says that a resource exists and has an absolute name, and for a node instance
that it renames to and from absolute names only. `Model.Keeps m m'` says that what was absolute in
`m` is so in `m'`, also all that a configuration lists. Making, copying, linking and guarding
resources is of this kind whatever the names are (`keeps_*`). Two things are only if the names in
them are absolute : to list a resource, and to rename.
-/

namespace RosAudit

/-! ## Names -/

def IsAbsolute (s : String) : Prop := s.toList.head? = some '/'

instance : DecidablePred IsAbsolute := fun s =>
  inferInstanceAs (Decidable (s.toList.head? = some '/'))

theorem isAbsolute_root : IsAbsolute "/" := by decide

def IsRooted (ns : String) : Prop := ns = "" ∨ IsAbsolute ns

theorem IsAbsolute.isRooted {s} (h : IsAbsolute s) : IsRooted s :=
  .inr h

theorem IsAbsolute.append {s} (h : IsAbsolute s) (t : String) : IsAbsolute (s ++ t) := by
  unfold IsAbsolute at h ⊢
  rw [String.toList_append, List.head?_append, h]
  rfl

theorem IsRooted.append {s} (h : IsRooted s) (t : String) : IsAbsolute (s ++ "/" ++ t) := by
  refine IsAbsolute.append ?_ t
  rcases h with rfl | h
  · decide
  · exact h.append "/"

def Remaps.Absolute (t : Remaps) : Prop := ∀ e ∈ t.entries, IsAbsolute e.1 ∧ IsAbsolute e.2

namespace Remaps

theorem absolute_empty : Absolute Table.empty :=
  fun _ he => nomatch he

theorem Absolute.put {t} (h : Absolute t) {source target} (hs : IsAbsolute source)
    (ht : IsAbsolute target) : Absolute (t.put source target) := by
  obtain ⟨es⟩ := t
  change ∀ e ∈ Table.putEntry source target es, IsAbsolute e.1 ∧ IsAbsolute e.2
  induction es with
  | nil => simp [Table.putEntry, hs, ht]
  | cons e es ih =>
    obtain ⟨he, hes⟩ := List.forall_mem_cons.mp h
    unfold Table.putEntry
    split
    · exact List.forall_mem_cons.mpr ⟨⟨he.1, ht⟩, hes⟩
    · exact List.forall_mem_cons.mpr ⟨he, ih hes⟩

theorem Absolute.getD {t} (h : Absolute t) {full} (hfull : IsAbsolute full) :
    IsAbsolute (Table.getD t full full) := by
  unfold Table.getD
  cases hget : t.get? full with
  | none => exact hfull
  | some target =>
    obtain ⟨l₁, l₂, hes, -⟩ := List.lookup_eq_some_iff.mp hget
    exact (h (full, target) (by simp [hes])).2

end Remaps

namespace Name

variable {name ns privateNs full : String}

theorem isAbsolute_resolve (hns : IsRooted ns) (hprivate : IsRooted privateNs)
    (h : resolve name ns privateNs = .ok full) : IsAbsolute full := by
  unfold resolve at h
  split at h
  · cases h
  · cases h
    exact hprivate.append _
  · rename_i heq
    cases h
    simp [IsAbsolute, heq]
  · cases h
    split
    · rename_i hlast
      rcases hns with rfl | hns
      · simp at hlast
      · exact hns.append name
    · exact hns.append name

theorem isAbsolute_make {remaps n} (hns : IsRooted ns) (hprivate : IsRooted privateNs)
    (hremaps : remaps.Absolute) (h : make name ns privateNs remaps = .ok n) :
    IsAbsolute n.full := by
  unfold make transform at h
  cases hfull : resolve name ns privateNs with
  | error f =>
    rw [hfull] at h
    cases h
  | ok full =>
    rw [hfull] at h
    cases h
    exact hremaps.getD (isAbsolute_resolve hns hprivate hfull)

end Name

/-! ## Resources -/

/-- An instance with an absolute name, that renames to and from absolute names only. -/
structure NodeInstance.Absolute (x : NodeInstance) : Prop where
  name : IsAbsolute x.name.full
  remaps : x.remaps.Absolute

namespace Model

def Absolute (m : Model) {k : EntityKind} (r : Ref k) : Prop :=
  match k with
  | .inst => Holds m.instances NodeInstance.Absolute r.index
  | .topic => Holds m.topics (fun t => IsAbsolute t.name.full) r.index
  | .service => Holds m.services (fun s => IsAbsolute s.name.full) r.index
  | .param => Holds m.params (fun p => IsAbsolute p.name.full) r.index
  | _ => True

end Model

/-- All that a configuration lists is absolute. -/
structure Configuration.Absolute (k : Configuration) (m : Model) : Prop where
  nodes : ∀ r ∈ k.nodes.all, m.Absolute r
  topics : ∀ r ∈ k.topics.all, m.Absolute r
  services : ∀ r ∈ k.services.all, m.Absolute r
  params : ∀ r ∈ k.params.all, m.Absolute r

theorem Configuration.Absolute.mono {k : Configuration} {m m' : Model} (h : k.Absolute m)
    (hm : ∀ {k : EntityKind} (r : Ref k), m.Absolute r → m'.Absolute r) : k.Absolute m' :=
  ⟨fun r hr => hm r (h.nodes r hr), fun r hr => hm r (h.topics r hr),
    fun r hr => hm r (h.services r hr), fun r hr => hm r (h.params r hr)⟩

namespace Model

/-- What is absolute in `m` is absolute in `m'`. -/
structure Keeps (m m' : Model) : Prop where
  resource : ∀ {k : EntityKind} (r : Ref k), m.Absolute r → m'.Absolute r
  listed : ∀ c, (m.configuration c).Absolute m → (m'.configuration c).Absolute m'

instance : IsPreorder Model Keeps where
  refl _ := ⟨fun _ h => h, fun _ h => h⟩
  trans _ _ _ h h' :=
    ⟨fun r hr => h'.resource r (h.resource r hr), fun c hc => h'.listed c (h.listed c hc)⟩

namespace Keeps

variable {m m' m'' : Model}

theorem trans (h : Keeps m m') (h' : Keeps m' m'') : Keeps m m'' :=
  trans_of Keeps h h'

theorem of_lists (hresource : ∀ {k : EntityKind} (r : Ref k), m.Absolute r → m'.Absolute r)
    (hc : m'.configurations = m.configurations) : Keeps m m' where
  resource := hresource
  listed c h := by
    have hconf : m'.configuration c = m.configuration c := by rw [configuration, hc, configuration]
    exact hconf ▸ h.mono hresource

theorem of_eq (hi : m'.instances = m.instances) (ht : m'.topics = m.topics)
    (hs : m'.services = m.services) (hp : m'.params = m.params)
    (hc : m'.configurations = m.configurations) : Keeps m m' := by
  refine of_lists (fun {k} r h => ?_) hc
  unfold Absolute at h ⊢
  cases k <;> simp_all only

end Keeps

variable (m : Model)

theorem keeps_addGuards (gs) : Keeps m (m.addGuards gs).1 :=
  .of_eq rfl rfl rfl rfl rfl

theorem keeps_addNode (x : Node) : Keeps m (m.addNode x).1 :=
  .of_eq rfl rfl rfl rfl rfl

theorem keeps_updateNode (r : Ref .node) (f : Node → Node) : Keeps m (m.updateNode r f) :=
  .of_eq rfl rfl rfl rfl rfl

theorem keeps_addManifest (x p) : Keeps m (m.addManifest x p).1 := by
  refine List.foldlRecOn (motive := Keeps m) _ _ ?_ fun m' h e _ => h.trans ?_
  all_goals exact .of_eq rfl rfl rfl rfl rfl

/-! ## New resources -/

theorem keeps_addInstance (x) : Keeps m (m.addInstance x).1 := by
  refine .of_lists (fun {k} r h => ?_) rfl
  cases k with
  | inst => exact h.push x
  | _ => exact h

theorem keeps_addTopic (x : Topic) : Keeps m (m.addTopic x).1 := by
  refine .of_lists (fun {k} r h => ?_) rfl
  cases k with
  | topic => exact h.push x
  | _ => exact h

theorem keeps_addService (x : Service) : Keeps m (m.addService x).1 := by
  refine .of_lists (fun {k} r h => ?_) rfl
  cases k with
  | service => exact h.push x
  | _ => exact h

theorem keeps_makeParam (x : Parameter) : Keeps m (m.makeParam x).1 := by
  refine .of_lists (fun {k} r h => ?_) rfl
  cases k with
  | param => exact h.push _
  | _ => exact h

/-! ## Changed resources -/

theorem keeps_updateInstance (r : Ref .inst) {f} (hf : ∀ x, x.Absolute → (f x).Absolute) :
    Keeps m (m.updateInstance r f) := by
  refine .of_lists (fun {k} r' h => ?_) rfl
  cases k with
  | inst => exact h.modify r.index hf
  | _ => exact h

theorem keeps_updateTopic (r) {f} (hf : ∀ t, (f t).name = t.name) :
    Keeps m (m.updateTopic r f) := by
  refine .of_lists (fun {k} r' h => ?_) rfl
  cases k with
  | topic => exact h.modify r.index fun t ht => by rwa [hf]
  | _ => exact h

theorem keeps_updateService (r) {f} (hf : ∀ s, (f s).name = s.name) :
    Keeps m (m.updateService r f) := by
  refine .of_lists (fun {k} r' h => ?_) rfl
  cases k with
  | service => exact h.modify r.index fun t ht => by rwa [hf]
  | _ => exact h

theorem keeps_updateParam (r) {f} (hf : ∀ p, (f p).name = p.name) :
    Keeps m (m.updateParam r f) := by
  refine .of_lists (fun {k} r' h => ?_) rfl
  cases k with
  | param => exact h.modify r.index fun t ht => by rwa [hf]
  | _ => exact h

theorem keeps_attach (l : Ref .link) (side : LinkSide) : Keeps m (m.attach l side) := by
  have hi : Keeps m (m.updateInstance (m.link l).node fun n => n.addTo side l) := by
    refine m.keeps_updateInstance _ fun x hx => ?_
    cases side <;> exact ⟨hx.name, hx.remaps⟩
  cases side with
  | publishers | subscribers => exact hi.trans (keeps_updateTopic _ _ fun _ => rfl)
  | servers | clients => exact hi.trans (keeps_updateService _ _ fun _ => rfl)
  | reads | writes => exact hi.trans (keeps_updateParam _ _ fun _ => rfl)

/-! ## Listed resources -/

theorem keeps_updateConfiguration (c) {f}
    (hf : (m.configuration c).Absolute m → (f (m.configuration c)).Absolute m) :
    Keeps m (m.updateConfiguration c f) where
  resource {k} r h := by
    cases k <;> exact h
  listed c' h := by
    have hmono : ∀ k : Configuration, k.Absolute m → k.Absolute (m.updateConfiguration c f) :=
      fun k hk => hk.mono fun {k} r hr => by cases k <;> exact hr
    rcases getD_modify_or m.configurations default f c.index c'.index with hc | ⟨hi, hc⟩
    · rw [configuration, updateConfiguration, hc]
      exact hmono _ h
    · rw [configuration, updateConfiguration, hc]
      rw [configuration, ← hi] at h
      exact hmono _ (hf h)

theorem absolute_add {k} {known : Collection k} {r} (h : ∀ r ∈ known.all, m.Absolute r)
    (hr : m.Absolute r) (id : String) (guarded : Bool) :
    ∀ r' ∈ (known.add r id guarded).1.all, m.Absolute r' := by
  simpa [Collection.add, or_imp, forall_and, hr] using h

theorem keeps_listParam {r} (h : m.Absolute r) : Keeps m (m.listParam r).1 :=
  m.keeps_updateConfiguration _ fun hc => { hc with params := m.absolute_add hc.params h _ _ }

theorem keeps_startInstance (gs) {x} (hx : ∀ g, (x g).Absolute) :
    Keeps m (m.startInstance gs x).1 ∧
      (m.startInstance gs x).1.Absolute (m.startInstance gs x).2 := by
  have hnew := (m.keeps_addGuards gs).trans (keeps_addInstance _ (x ⟨m.guards.size⟩))
  have hnode := hnew.trans (keeps_updateNode _ (x ⟨m.guards.size⟩).node
    fun n => { n with instances := n.instances ++ [⟨m.instances.size⟩] })
  have habsolute : Holds (m.instances.push (x ⟨m.guards.size⟩)) NodeInstance.Absolute
      m.instances.size := holds_push_size (hx _)
  refine ⟨hnode.trans (keeps_updateConfiguration _ _ fun hc => ?_), habsolute⟩
  exact { hc with nodes := absolute_add _ hc.nodes habsolute _ _ }

end Model

end RosAudit
