import Mathlib.Order.Defs.Unbundled
import RosAudit.Model.Graph
import RosAudit.Package.Manifest

/-!
# Quiet changes

Most of what happens to a model while a configuration is built does not concern its node
instances and topics : guards, packages and programs are added, parameters and services are
linked, links are made before they are attached. `Model.Quiet m m'` says that `m'` comes from `m`
by such changes. Node instances are the same up to their services and parameters (`core`), topics
are the same up to their guards, new topics and links come after the old ones, and every
configuration lists the nodes and topics that it did.
-/

/-! ## Objects in a store -/

namespace RosAudit

def Kept {α : Type} (xs ys : Array α) : Prop := ∀ (i : Nat) x, xs[i]? = some x → ys[i]? = some x

def Holds {α : Type} (xs : Array α) (P : α → Prop) (i : Nat) : Prop := ∃ x, xs[i]? = some x ∧ P x

variable {α : Type} {xs ys zs : Array α} {P : α → Prop} {i : Nat}

theorem Kept.refl (xs : Array α) : Kept xs xs :=
  fun _ _ h => h

theorem Kept.trans (h : Kept xs ys) (h' : Kept ys zs) : Kept xs zs :=
  fun i x hx => h' i x (h i x hx)

theorem kept_push (xs : Array α) (y : α) : Kept xs (xs.push y) := by
  intro i x hx
  have hi : i < xs.size := (Array.getElem?_eq_some_iff.mp hx).1
  rw [Array.getElem?_push_lt hi, ← hx, Array.getElem?_eq_getElem hi]

namespace Holds

theorem getD (h : Holds xs P i) (d : α) : P (xs.getD i d) := by
  obtain ⟨x, hx, hP⟩ := h
  rwa [Array.getD_eq_getD_getElem?, hx]

theorem kept (h : Holds xs P i) (hk : Kept xs ys) : Holds ys P i := by
  obtain ⟨x, hx, hP⟩ := h
  exact ⟨x, hk i x hx, hP⟩

theorem getD_eq (h : Holds xs P i) (hk : Kept xs ys) (d : α) : ys.getD i d = xs.getD i d := by
  obtain ⟨x, hx, -⟩ := h
  rw [Array.getD_eq_getD_getElem?, Array.getD_eq_getD_getElem?, hx, hk i x hx]

theorem push (h : Holds xs P i) (y : α) : Holds (xs.push y) P i :=
  h.kept (kept_push xs y)

theorem modify (h : Holds xs P i) (j : Nat) {f} (hf : ∀ x, P x → P (f x)) :
    Holds (xs.modify j f) P i := by
  obtain ⟨x, hx, hP⟩ := h
  rw [Holds, Array.getElem?_modify, hx]
  split
  · exact ⟨f x, rfl, hf x hP⟩
  · exact ⟨x, rfl, hP⟩

end Holds

theorem not_holds_size : ¬ Holds xs P xs.size := by
  rintro ⟨x, hx, -⟩
  rw [Array.getElem?_size] at hx
  cases hx

theorem holds_push_size {y} (h : P y) : Holds (xs.push y) P xs.size :=
  ⟨y, Array.getElem?_push_size, h⟩

/-! ## Stores -/

section Store

variable {α β : Type} (a : Array α) (d : α)

theorem getD_push_of_lt {i} (x : α) (h : i < a.size) : (a.push x).getD i d = a.getD i d := by
  simp [Array.getD_eq_getD_getElem?, Array.getElem?_push_lt h, Array.getElem?_eq_getElem h]

theorem getD_push_size (x : α) : (a.push x).getD a.size d = x := by
  simp [Array.getD_eq_getD_getElem?]

variable (f : α → α)

theorem getD_modify_self {i} (h : i < a.size) : (a.modify i f).getD i d = f (a.getD i d) := by
  simp [Array.getD_eq_getD_getElem?, Array.getElem?_modify, Array.getElem?_eq_getElem h]

theorem getD_modify_of_ne {i j} (h : i ≠ j) : (a.modify i f).getD j d = a.getD j d := by
  simp [Array.getD_eq_getD_getElem?, Array.getElem?_modify, h]

theorem getD_modify_or (i j : Nat) : (a.modify i f).getD j d = a.getD j d ∨
    i = j ∧ (a.modify i f).getD j d = f (a.getD i d) := by
  by_cases hij : i = j
  · subst hij
    by_cases hi : i < a.size
    · exact .inr ⟨rfl, getD_modify_self a d f hi⟩
    · exact .inl (by simp [hi])
  · exact .inl (getD_modify_of_ne a d f hij)

theorem view_getD_push {x} (g : α → β) (hx : g x = g d) (i : Nat) :
    g ((a.push x).getD i d) = g (a.getD i d) := by
  rcases Nat.lt_trichotomy i a.size with hi | rfl | hi
  · rw [getD_push_of_lt a d x hi]
  · rw [getD_push_size, hx, Array.getD_eq_getD_getElem?, Array.getElem?_eq_none (Nat.le_refl _)]
    rfl
  · have hpush : (a.push x).size ≤ i := by
      rwa [Array.size_push]
    rw [Array.getD_eq_getD_getElem?, Array.getD_eq_getD_getElem?, Array.getElem?_eq_none hpush,
      Array.getElem?_eq_none (Nat.le_of_lt hi)]

theorem view_getD_modify {f} (g : α → β) (hf : ∀ x, g (f x) = g x) (i j : Nat) :
    g ((a.modify i f).getD j d) = g (a.getD j d) := by
  rcases getD_modify_or a d f i j with h | ⟨rfl, h⟩
  · rw [h]
  · rw [h, hf]

variable {k : EntityKind} {r r' : Ref k}

theorem getD_modify_ref_of_ne (h : r' ≠ r) :
    (a.modify r.index f).getD r'.index d = a.getD r'.index d :=
  getD_modify_of_ne a d f fun h' => h (congrArg Ref.mk h'.symm)

/-- Of all the lists that objects have, one list of one object grows. -/
theorem side_getD_modify {f} (g : α → LinkSide → List (Ref .link)) {l side}
    (hf : ∀ x side', g (f x) side' = g x side' ++ if side' = side then [l] else [])
    (hr : r.index < a.size) (r' side') : g ((a.modify r.index f).getD r'.index d) side' =
      g (a.getD r'.index d) side' ++ if r' = r ∧ side' = side then [l] else [] := by
  by_cases h : r' = r
  · subst h
    rw [getD_modify_self a d f hr, hf]
    simp
  · rw [getD_modify_ref_of_ne a d f h]
    simp [h]

end Store

/-! ## Quiet changes -/

/-- A node instance without its links to services and parameters. -/
def NodeInstance.core (x : NodeInstance) : NodeInstance :=
  { x with servers := [], clients := [], reads := [], writes := [] }

/-- A topic without its guards. -/
def Topic.core (t : Topic) : Topic := { t with guards := default }

def LinkSide.isTopic : LinkSide → Bool
  | .publishers | .subscribers => true
  | _ => false

def LinkSide.isService : LinkSide → Bool
  | .servers | .clients => true
  | _ => false

/-- Does a side tie a node instance to parameters? -/
def LinkSide.isParam : LinkSide → Bool
  | .reads | .writes => true
  | _ => false

variable {side : LinkSide}

theorem LinkSide.of_isTopic (h : side.isTopic = true) :
    side.isService = false ∧ side.isParam = false := by
  cases side with
  | publishers | subscribers => exact ⟨rfl, rfl⟩
  | _ => cases h

theorem LinkSide.of_isService (h : side.isService = true) :
    side.isTopic = false ∧ side.isParam = false := by
  cases side with
  | servers | clients => exact ⟨rfl, rfl⟩
  | _ => cases h

theorem LinkSide.of_isParam (h : side.isParam = true) :
    side.isTopic = false ∧ side.isService = false := by
  cases side with
  | reads | writes => exact ⟨rfl, rfl⟩
  | _ => cases h

variable {m m' : Model}

namespace Model

theorem along_foldl {α : Type} {R} [IsPreorder Model R] {f} (hf : ∀ m a, R m (f m a)) :
    ∀ (as : List α) (m : Model),
    R m (as.foldl f m)
  | [], m => refl_of R m
  | a :: as, m => trans_of R (hf m a) (along_foldl hf as (f m a))

/-- The change from `m` to `m'` spares the `part` of every node instance, the `core` of every object
in a store, and what configurations `list` of these objects. -/
structure Still {α : Type} [Inhabited α] {k : EntityKind} (part : NodeInstance → NodeInstance)
    (store : Model → Array α) (core : α → α) (list : Configuration → Collection k) (m m' : Model) :
    Prop where
  size_configurations : m'.configurations.size = m.configurations.size
  size_instances : m'.instances.size = m.instances.size
  part : ∀ r, part (m'.inst r) = part (m.inst r)
  size_store : (store m).size ≤ (store m').size
  core : ∀ i < (store m).size, core ((store m').getD i default) = core ((store m).getD i default)
  size_links : m.links.size ≤ m'.links.size
  link : ∀ r : Ref .link, r.index < m.links.size → m'.link r = m.link r
  nodes : ∀ c, (m'.configuration c).nodes = (m.configuration c).nodes
  list : ∀ c, list (m'.configuration c) = list (m.configuration c)

namespace Still

variable {α : Type} [Inhabited α] {k : EntityKind} {part : NodeInstance → NodeInstance}
  {store : Model → Array α} {core : α → α} {list : Configuration → Collection k}

theorem of_store (hi : m'.instances = m.instances) (hl : m'.links = m.links)
    (hc : m'.configurations = m.configurations) (hsize : (store m).size ≤ (store m').size)
    (hcore : ∀ i < (store m).size,
      core ((store m').getD i default) = core ((store m).getD i default)) :
    Still part store core list m m' where
  size_configurations := by rw [hc]
  size_instances := by rw [hi]
  part r := by rw [inst, hi, inst]
  size_store := hsize
  core := hcore
  size_links := Nat.le_of_eq (congrArg Array.size hl.symm)
  link r _ := by rw [Model.link, hl, Model.link]
  nodes c := by rw [configuration, hc, configuration]
  list c := by rw [configuration, hc, configuration]

theorem of_eq (hi : m'.instances = m.instances) (hs : store m' = store m) (hl : m'.links = m.links)
    (hc : m'.configurations = m.configurations) : Still part store core list m m' :=
  of_store hi hl hc (Nat.le_of_eq (by rw [hs])) fun _ _ => by rw [hs]

theorem refl (m : Model) : Still part store core list m m :=
  of_eq rfl rfl rfl rfl

theorem trans {m m' m''} (h : Still part store core list m m')
    (h' : Still part store core list m' m'') : Still part store core list m m'' where
  size_configurations := h'.size_configurations.trans h.size_configurations
  size_instances := h'.size_instances.trans h.size_instances
  part r := (h'.part r).trans (h.part r)
  size_store := Nat.le_trans h.size_store h'.size_store
  core i hi := (h'.core i (Nat.lt_of_lt_of_le hi h.size_store)).trans (h.core i hi)
  size_links := Nat.le_trans h.size_links h'.size_links
  link r hr := (h'.link r (Nat.lt_of_lt_of_le hr h.size_links)).trans (h.link r hr)
  nodes c := (h'.nodes c).trans (h.nodes c)
  list c := (h'.list c).trans (h.list c)

instance : IsPreorder Model (Still part store core list) where
  refl := refl
  trans _ _ _ := trans

theorem view_inst {β : Type} (h : Still part store core list m m') (g : NodeInstance → β)
    (hg : ∀ x, g (part x) = g x) (r : Ref .inst) : g (m'.inst r) = g (m.inst r) := by
  rw [← hg, h.part r, hg]

theorem view {β : Type} (h : Still part store core list m m') (g : α → β)
    (hg : ∀ x, g (core x) = g x) {i} (hi : i < (store m).size) :
    g ((store m').getD i default) = g ((store m).getD i default) := by
  rw [← hg, h.core i hi, hg]

theorem addLink (x : Link) (hs : store (m.addLink x).1 = store m) :
    Still part store core list m (m.addLink x).1 :=
  { (refl m : Still part store core list m m) with
    size_store := Nat.le_of_eq (by rw [hs])
    core := fun _ _ => by rw [hs]
    size_links := by simp [Model.addLink]
    link := fun _ hr => getD_push_of_lt _ _ x hr }

theorem updateInstance {r f} (hf : ∀ x, part (f x) = part x)
    (hs : store (m.updateInstance r f) = store m) :
    Still part store core list m (m.updateInstance r f) :=
  { (refl m : Still part store core list m m) with
    size_instances := by simp [Model.updateInstance]
    part := fun r' => view_getD_modify _ _ part hf r.index r'.index
    size_store := Nat.le_of_eq (by rw [hs])
    core := fun _ _ => by rw [hs] }

theorem updateConfiguration {c f} (hn : ∀ k, (f k).nodes = k.nodes) (hf : ∀ k, list (f k) = list k)
    (hs : store (m.updateConfiguration c f) = store m) :
    Still part store core list m (m.updateConfiguration c f) :=
  { (refl m : Still part store core list m m) with
    size_configurations := by simp [Model.updateConfiguration]
    size_store := Nat.le_of_eq (by rw [hs])
    core := fun _ _ => by rw [hs]
    nodes := fun c' => view_getD_modify _ _ Configuration.nodes hn c.index c'.index
    list := fun c' => view_getD_modify _ _ list hf c.index c'.index }

end Still

abbrev Quiet : Model → Model → Prop :=
  Still NodeInstance.core Model.topics Topic.core Configuration.topics

theorem Quiet.remaps_inst (h : Quiet m m') (r : Ref .inst) :
    (m'.inst r).remaps = (m.inst r).remaps :=
  h.view_inst NodeInstance.remaps (fun _ => rfl) r

variable (m : Model)

theorem quiet_addGuards (gs) : Quiet m (m.addGuards gs).1 :=
  .of_eq rfl rfl rfl rfl

theorem quiet_addNode (x : Node) : Quiet m (m.addNode x).1 :=
  .of_eq rfl rfl rfl rfl

theorem quiet_updateService (r) (f : Service → Service) : Quiet m (m.updateService r f) :=
  .of_eq rfl rfl rfl rfl

theorem quiet_addLink (x : Link) : Quiet m (m.addLink x).1 :=
  .addLink x rfl

theorem quiet_addTopic (x : Topic) : Quiet m (m.addTopic x).1 :=
  .of_store rfl rfl rfl (by simp [addTopic]) fun _ hi =>
    congrArg Topic.core (getD_push_of_lt _ _ x hi)

theorem quiet_updateTopic (r) {f} (hf : ∀ t, (f t).core = t.core) : Quiet m (m.updateTopic r f) :=
  .of_store rfl rfl rfl (by simp [updateTopic]) fun i _ =>
    view_getD_modify _ _ Topic.core hf r.index i

/-! ## Changes made of others -/

theorem quiet_listParam (r) : Quiet m (m.listParam r).1 :=
  .updateConfiguration (fun _ => rfl) (fun _ => rfl) rfl

theorem quiet_remapTopic (r n) : Quiet m (m.remapTopic r n).1 :=
  (m.quiet_addGuards _).trans (quiet_addTopic _ _)

theorem quiet_addManifest (x p) : Quiet m (m.addManifest x p).1 := by
  refine Still.trans ?_ (along_foldl (fun m' e => ?_) _ _)
  all_goals exact .of_eq rfl rfl rfl rfl

theorem instances_attach (l : Ref .link) (side : LinkSide) : (m.attach l side).instances =
    m.instances.modify (m.link l).node.index fun n => n.addTo side l := by
  cases side <;> rfl

theorem quiet_attach (l : Ref .link) (h : side.isTopic = false) : Quiet m (m.attach l side) := by
  have hi : Quiet m (m.updateInstance (m.link l).node fun n => n.addTo side l) := by
    refine .updateInstance (fun x => ?_) rfl
    cases side with
    | publishers | subscribers => cases h
    | _ => rfl
  cases side with
  | publishers | subscribers => cases h
  | servers | clients => exact hi.trans (quiet_updateService _ _ _)
  | reads | writes => exact hi.trans (.of_eq rfl rfl rfl rfl)

/-! ## Starting an instance -/

section Start

variable (gs : List Guard) (x : Ref .guards → NodeInstance)

theorem configurations_startInstance : ∃ nodes : Collection .inst,
    nodes.all = (m.configuration (x ⟨m.guards.size⟩).configuration).nodes.all ++
      [⟨m.instances.size⟩] ∧
    (m.startInstance gs x).1.configurations =
      m.configurations.modify (x ⟨m.guards.size⟩).configuration.index fun k =>
        { k with nodes := nodes } := by
  have hx : (m.instances.push (x ⟨m.guards.size⟩)).getD m.instances.size default =
      x ⟨m.guards.size⟩ := getD_push_size _ _ _
  simp only [startInstance, addGuards, addInstance, updateNode, listInstance, inst, hx]
  exact ⟨_, rfl, rfl⟩

end Start

end Model

end RosAudit
