import RosAudit.Proofs.Configure.Linker
import RosAudit.Proofs.Model.Listing

/-!
# Listing what a node without guards uses

A topic or a service is listed before the link that leads to it is attached, so it is listed without
guards. After that its guards are those of the calls that lead to it, but never those of a node. A
service that a hint names is the exception : its copy is listed, and the link goes to the hint
itself. Were a copy made of it again, that copy would have guards. But its name is taken by then.

`Hints.filing_link` : what is listed after a node was linked is clear and enabled.
-/

namespace RosAudit

open Job Model LaunchScope List

/-! ## Settling guards -/

variable {c : Ref .configuration}

namespace Model

variable {m m' m'' : Model} {touched : Entity → Prop} {k : EntityKind}

/-- What is clear is spared, and every configuration lists the same. Only resources with `touched`
may have other guards now. -/
structure Regards (touched : Entity → Prop) (m m' : Model) : Prop extends Attends m m' where
  remaps : ∀ r, m.ClearNode r → (m'.inst r).remaps = (m.inst r).remaps
  guards : ∀ {k : EntityKind} (r : Ref k), m.Clear r → ¬ touched r.entity →
    m'.guardsAt r = m.guardsAt r

theorem Regards.trans (h : Regards touched m m') (h' : Regards touched m' m'') :
    Regards touched m m'' where
  toAttends := h.toAttends.trans h'.toAttends
  remaps r hr := (h'.remaps r (h.spares.clearNode hr)).trans (h.remaps r hr)
  guards r hr ht := (h'.guards r (h.spares.clear hr) ht).trans (h.guards r hr ht)

theorem Grows.regards (h : Grows m m') (touched : Entity → Prop) : Regards touched m m' where
  toAttends := h.attends
  remaps _ hr := congrArg NodeInstance.remaps (Holds.getD_eq hr h.instances default)
  guards _ hr _ := h.guardsAt_eq hr

theorem regards_attach {l} (hl : m.ClearLink l) (side : LinkSide) (touched : Entity → Prop) :
    Regards touched m (m.attach l side) where
  toAttends := (m.spares_attach hl side).attends (by cases side <;> rfl)
  remaps r _ := by
    cases side <;> exact view_getD_modify _ _ NodeInstance.remaps (fun _ => by rfl) _ _
  guards {k} r _ _ := by
    cases k with
    | inst => cases side <;> exact view_getD_modify _ _ NodeInstance.guards (fun _ => by rfl) _ _
    | topic =>
      cases side <;> first | rfl | exact view_getD_modify _ _ Topic.guards (fun _ => by rfl) _ _
    | service =>
      cases side <;> first | rfl | exact view_getD_modify _ _ Service.guards (fun _ => by rfl) _ _
    | param =>
      cases side <;> first | rfl | exact view_getD_modify _ _ Parameter.guards (fun _ => by rfl) _ _
    | _ => rfl

theorem regards_guardTopic (m t g) :
    Regards (· = t.entity) m (m.updateTopic t fun x => { x with guards := g }) where
  toAttends := by
    refine Spares.attends (m.spares_updateTopic t fun x => ?_) rfl
    exact ⟨rfl, rfl, fun _ h => .inl h⟩
  remaps _ _ := rfl
  guards {k} r _ hr := by
    cases k with
    | topic =>
      refine congrArg Topic.guards (getD_modify_of_ne _ _ _ fun h => hr ?_)
      exact congrArg (Entity.mk .topic) h.symm
    | _ => rfl

theorem regards_guardService (m t g) :
    Regards (· = t.entity) m (m.updateService t fun x => { x with guards := g }) where
  toAttends := by
    refine Spares.attends (m.spares_updateService t fun x => ?_) rfl
    exact ⟨rfl, rfl, fun _ h => .inl h⟩
  remaps _ _ := rfl
  guards {k} r _ hr := by
    cases k with
    | service =>
      refine congrArg Service.guards (getD_modify_of_ne _ _ _ fun h => hr ?_)
      exact congrArg (Entity.mk .service) h.symm
    | _ => rfl

theorem ClearNode.guardList {r} (h : m.ClearNode r) : m.guardList (m.inst r).guards = [] :=
  Bare.guardList (Holds.getD h default)

theorem regards_gatherGuards {assign} (hassign : ∀ m g, Regards touched m (assign m g))
    (current : Model → Ref .guards) {ls} (hls : ∀ l ∈ ls, m.ClearLink l) :
    Regards touched m (gatherGuards assign current ls m) := by
  cases ls with
  | nil => exact (Grows.refl m).regards touched
  | cons l ls =>
    have hnode : m.ClearNode (m.link l).node := Holds.getD (hls l mem_cons_self) default
    rw [gatherGuards, hnode.guardList]
    exact hassign m _

theorem regards_settleTopic {t} (ht : m.Clear t) : Regards (· = t.entity) m (settleTopic t m) := by
  have hassign := fun m g => regards_guardTopic m t g
  have hstart := ((m.grows_addGuards []).regards _).trans (hassign _ (m.addGuards []).2)
  have hlinks := Holds.getD (hstart.spares.clear ht) default
  have hpublishers := regards_gatherGuards hassign (fun m => (m.topic t).guards)
    fun l hl => hlinks l (mem_append_left _ hl)
  refine hstart.trans (hpublishers.trans (regards_gatherGuards hassign _ fun l hl => ?_))
  exact hpublishers.spares.clearLink (hlinks l (mem_append_right _ hl))

theorem regards_settleService {t} (ht : m.Clear t) (h : settleService t m = .ok m') :
    Regards (· = t.entity) m m' := by
  have hassign := fun m g => regards_guardService m t g
  have hstart := ((m.grows_addGuards []).regards _).trans (hassign _ (m.addGuards []).2)
  have hlinks := Holds.getD (hstart.spares.clear ht) default
  have hclients := fun l hl => hlinks l (mem_append_right _ hl)
  unfold settleService at h
  dsimp only at h
  split at h
  · cases h
  · rename_i l hserver
    cases h
    have hl := hlinks l (Service.mem_links_of_one hserver)
    have hserved := regards_gatherGuards hassign (fun m => (m.service t).guards)
      (forall_mem_singleton.mpr hl)
    refine hstart.trans (hserved.trans (regards_gatherGuards hassign _ fun l hl => ?_))
    exact hserved.spares.clearLink (hclients l hl)
  · cases h
    exact hstart.trans (regards_gatherGuards hassign _ hclients)

theorem extendGuards_nil (m : Model) (g : Ref .guards) : m.extendGuards g [] = m := by
  have hsame : m.guards.modify g.index (· ++ []) = m.guards := by
    refine Array.ext_getElem? fun i => ?_
    rw [Array.getElem?_modify]
    split <;> simp
  rw [extendGuards, hsame]

/-! ## Making resources -/

/-- A clear resource without guards was made, for a configuration and under a name. -/
structure Made {k : EntityKind} (m : Model) (c : Ref .configuration) (n : Name)
    (x : Model × Ref k) : Prop where
  grows : Grows m x.1
  new : ¬ m.Clear x.2
  clear : x.1.Clear x.2
  bare : x.1.Bare (x.1.guardsAt x.2)
  owner : x.1.ownerOf x.2 = c
  title : x.1.title x.2 = n.full

theorem Grows.made {n : Name} {x : Model × Ref k} (h : Grows m m')
    (hx : m'.Made c n x) : m.Made c n x :=
  { hx with
    grows := h.trans hx.grows
    new := fun hnew => hx.new (h.spares.clear hnew) }

theorem made_addTopic {x} (hg : m.Bare x.guards) (hl : ∀ l ∈ x.links, m.ClearLink l) :
    m.Made x.configuration x.name (m.addTopic x) := by
  have hself : (m.addTopic x).1.topic ⟨m.topics.size⟩ = x := getD_push_size _ _ _
  exact {
    grows := m.grows_addTopic x
    new := not_holds_size
    clear := holds_push_size fun l hl' => (m.grows_addTopic x).spares.clearLink (hl l hl')
    bare := (congrArg (fun x : Topic => (m.addTopic _).1.Bare x.guards) hself).mpr hg
    owner := congrArg Topic.configuration hself
    title := congrArg (fun x : Topic => x.name.full) hself }

theorem made_addService {x} (hg : m.Bare x.guards) (hl : ∀ l ∈ x.links, m.ClearLink l) :
    m.Made x.configuration x.name (m.addService x) := by
  have hself : (m.addService x).1.service ⟨m.services.size⟩ = x := getD_push_size _ _ _
  exact {
    grows := m.grows_addService x
    new := not_holds_size
    clear := holds_push_size fun l hl' => (m.grows_addService x).spares.clearLink (hl l hl')
    bare := (congrArg (fun x : Service => (m.addService _).1.Bare x.guards) hself).mpr hg
    owner := congrArg Service.configuration hself
    title := congrArg (fun x : Service => x.name.full) hself }

theorem made_makeParam {x} (hg : m.Bare x.guards) :
    m.Made x.configuration x.name (m.makeParam x) := by
  have hself : (m.makeParam x).1.param ⟨m.params.size⟩ = _ := getD_push_size _ _ _
  exact {
    grows := m.grows_makeParam x
    new := not_holds_size
    clear := holds_push_size hg
    bare := (congrArg (fun x : Parameter => (m.makeParam _).1.Bare x.guards) hself).mpr hg
    owner := (congrArg Parameter.configuration hself).trans rfl
    title := (congrArg (fun x : Parameter => x.name.full) hself).trans rfl }

end Model

/-- Resources of a kind are made and copied without guards, and listed in the lists of that kind. -/
structure ResourceRules.Files {k : EntityKind} (rules : ResourceRules k) : Prop where
  collection : ∀ x, rules.collection x = x.listing k
  relist : ∀ (x : Configuration) (known : Collection k), (x.relist known).listing k = known
  title : ∀ (m : Model) r, (rules.nameOf m r).full = m.title r
  list : ∀ (m : Model) r, (rules.list m r).1 = m.enrol r
  create : ∀ (m : Model) c n type, m.Made c n (rules.create m c n type)
  copy : ∀ m r n, Grows m (rules.remap m r n).1
  remap : ∀ {m : Model} {r} n, m.Clear r → m.Bare (m.guardsAt r) →
    m.Made (m.ownerOf r) n (rules.remap m r n)

theorem files_topicRules : topicRules.Files where
  collection _ := rfl
  relist _ _ := rfl
  title _ _ := rfl
  list _ _ := rfl
  create m c n type := (m.grows_addGuards []).made (made_addTopic
    (x := { configuration := c, name := n, type, guards := (m.addGuards []).2 })
    m.bare_addGuards (forall_mem_nil _))
  copy m _ _ := (m.grows_addGuards _).trans (grows_addTopic _ _)
  remap {m r} n hr hbare := by
    have hgrows := m.grows_addGuards []
    have hlinks := Holds.getD hr default
    have hmade := hgrows.made (made_addTopic
      (x := { m.topic r with name := n, guards := (m.addGuards []).2 })
      m.bare_addGuards fun l hl => hgrows.spares.clearLink (hlinks l hl))
    simp only [topicRules, remapTopic, copyGuards]
    rwa [show m.guardList (m.topic r).guards = [] from hbare.guardList]

theorem files_serviceRules : serviceRules.Files where
  collection _ := rfl
  relist _ _ := rfl
  title _ _ := rfl
  list _ _ := rfl
  create m c n type := (m.grows_addGuards []).made (made_addService
    (x := { configuration := c, name := n, type, guards := (m.addGuards []).2 })
    m.bare_addGuards (forall_mem_nil _))
  copy m _ _ := (m.grows_addGuards _).trans (grows_addService _ _)
  remap {m r} n hr hbare := by
    have hgrows := m.grows_addGuards []
    have hlinks := Holds.getD hr default
    have hmade := hgrows.made (made_addService
      (x := { m.service r with
        name := n, guards := (m.addGuards []).2, server := (m.service r).server.grouped })
      m.bare_addGuards fun l hl => hgrows.spares.clearLink
        (hlinks l (Service.links_copy_subset _ _ _ hl)))
    simp only [serviceRules, remapService, copyGuards]
    rwa [show m.guardList (m.service r).guards = [] from hbare.guardList]

theorem files_paramRules : paramRules.Files where
  collection _ := rfl
  relist _ _ := rfl
  title _ _ := rfl
  list _ _ := rfl
  create m c n type := (m.grows_addGuards []).made (made_makeParam
    (x := { configuration := c, name := n, type, guards := (m.addGuards []).2 }) m.bare_addGuards)
  copy m _ _ := (m.grows_addGuards _).trans (grows_makeParam _ _)
  remap {m r} n _ hbare := by
    have hmade := (m.grows_addGuards []).made (made_makeParam
      (x := { m.param r with name := n, guards := (m.addGuards []).2, launch := none })
      m.bare_addGuards)
    simp only [paramRules, remapParam, copyGuards]
    rwa [show m.guardList (m.param r).guards = [] from hbare.guardList]

theorem ResourceRules.Files.listed {rules : ResourceRules k} (hrules : rules.Files) {m : Model}
    {n : Name} {x : Model × Ref k} (hc : c.index < x.1.configurations.size) (hx : m.Made c n x) :
    x.2 ∈ (((x.1.enrol x.2).configuration c).listing k).all ∧
      (((x.1.enrol x.2).configuration c).listing k).contains n.full = true := by
  rw [enrol, hx.owner, Model.configuration, updateConfiguration, getD_modify_self _ _ _ hc,
    hrules.relist]
  exact ⟨mem_append_right _ (mem_singleton_self _),
    Collection.contains_add.mpr (.inl hx.title.symm)⟩

/-! ## While a node is linked -/

variable {asked others : List Entity}

namespace Model

variable {m₀ m m' : Model} {c : Ref .configuration} {r : Ref .inst} {remaps : Remaps}
  {k : EntityKind}

/-- The name under which a copy of the resource would be listed is taken. -/
def Taken (m : Model) (c : Ref .configuration) (remaps : Remaps) (t : Ref k) : Prop :=
  ∃ n, Name.make (m.title t) "/" "" remaps = .ok n ∧
    ((m.configuration c).listing k).contains n.full = true

/-- A resource that a hint names. It is not listed itself, and a copy that is listed has no guards.
-/
structure Pending (m : Model) (c : Ref .configuration) (remaps : Remaps) (t : Ref k) : Prop where
  clear : m.Clear t
  owner : m.ownerOf t = c
  unlisted : t ∉ ((m.configuration c).listing k).all
  bare : m.Bare (m.guardsAt t) ∨ m.Taken c remaps t

/-- A resource that links may lead to : one that is listed, or a hint whose name is taken. -/
structure Attachable (m : Model) (c : Ref .configuration) (remaps : Remaps) (t : Ref k) : Prop where
  clear : m.Clear t
  listed : t ∈ ((m.configuration c).listing k).all ∨ m.Taken c remaps t

/-- What was clear in `m₀` is clear, and the configuration `c` lists clear resources as enabled. -/
structure Orderly (m₀ m : Model) (c : Ref .configuration) : Prop where
  since : Spares m₀ m
  place : c.index < m.configurations.size
  listed : m.ListsAll c

/-- The node `r` with the renamings `remaps` is being linked, and hints name the resources `asked`.
-/
structure Filing (m₀ m : Model) (c : Ref .configuration) (r : Ref .inst) (remaps : Remaps)
    (asked : List Entity) : Prop extends Orderly m₀ m c where
  node : m.Clear r
  configuration : m.ownerOf r = c
  renamings : (m.inst r).remaps = remaps
  pending : ∀ {k : EntityKind} (t : Ref k), t.entity ∈ asked → m.Pending c remaps t

/-- Hints of the kind that is being linked name `hints`, links may lead to `known`, and the links
`ls` are made and not attached yet. -/
structure Tying (m₀ m : Model) (c : Ref .configuration) (r : Ref .inst) (remaps : Remaps)
    (others : List Entity) (hints known : List (Ref k)) (ls : List (Ref .link)) : Prop
    extends Filing m₀ m c r remaps (others ++ hints.map Ref.entity) where
  known : ∀ t ∈ known, m.Attachable c remaps t
  links : ∀ l ∈ ls, m.ClearLink l ∧
    ∃ t : Ref k, (m.link l).target = t.entity ∧ m.Attachable c remaps t

theorem Filing.tying {hints : List (Ref k)} (h : Filing m₀ m c r remaps asked)
    (hasked : others ++ hints.map Ref.entity ⊆ asked) :
    Tying m₀ m c r remaps others hints [] [] :=
  ⟨{ h with pending := fun t ht => h.pending t (hasked ht) }, forall_mem_nil _,
    forall_mem_nil _⟩

section Change

/-- A change that spares what is clear, and after which no less is listed. -/
structure Widens (m m' : Model) (c : Ref .configuration) (added : Entity → Prop) : Prop where
  spares : Spares m m'
  size : m'.configurations.size = m.configurations.size
  lists : m'.ListsAll c
  longer : ∀ k, Longer added ((m.configuration c).listing k) ((m'.configuration c).listing k)

variable {added : Entity → Prop} (hm : Widens m m' c added)
include hm

theorem Taken.widens {t : Ref k} (h : m.Taken c remaps t) (ht : m.Clear t) :
    m'.Taken c remaps t := by
  obtain ⟨n, hn, hname⟩ := h
  refine ⟨n, ?_, (hm.longer k).names _ hname⟩
  rwa [(hm.spares.same ht).1]

theorem Attachable.widens {t : Ref k} (h : m.Attachable c remaps t) : m'.Attachable c remaps t where
  clear := hm.spares.clear h.clear
  listed := h.listed.imp ((hm.longer k).old t) fun htaken => htaken.widens hm h.clear

theorem Filing.widens (h : Filing m₀ m c r remaps asked) (hadded : ∀ e ∈ asked, ¬ added e)
    (hremaps : (m'.inst r).remaps = (m.inst r).remaps)
    (hguards : ∀ {k : EntityKind} (t : Ref k), t.entity ∈ asked →
      m'.guardsAt t = m.guardsAt t ∨ m.Taken c remaps t) : Filing m₀ m' c r remaps asked where
  since := h.since.trans hm.spares
  place := by
    rw [hm.size]
    exact h.place
  listed := hm.lists
  node := hm.spares.clear h.node
  configuration := (hm.spares.same h.node).2.trans h.configuration
  renamings := hremaps.trans h.renamings
  pending {k} t ht := by
    have hpending := h.pending t ht
    refine ⟨hm.spares.clear hpending.clear, (hm.spares.same hpending.clear).2.trans hpending.owner,
      fun hlisted => ?_, ?_⟩
    · rcases (hm.longer k).new t hlisted with hold | hnew
      · exact hpending.unlisted hold
      · exact hadded _ ht hnew
    · rcases hguards t ht with hsame | htaken
      · rw [hsame]
        exact hpending.bare.imp (hm.spares.bare _) fun htaken => htaken.widens hm hpending.clear
      · exact .inr (htaken.widens hm hpending.clear)

theorem Tying.of_filing {hints known : List (Ref k)} {ls : List (Ref .link)}
    (h : Tying m₀ m c r remaps others hints known ls)
    (h' : Filing m₀ m' c r remaps (others ++ hints.map Ref.entity)) :
    Tying m₀ m' c r remaps others hints known ls where
  toFiling := h'
  known t ht := (h.known t ht).widens hm
  links l hl := by
    obtain ⟨hclear, t, htarget, ht⟩ := h.links l hl
    refine ⟨hm.spares.clearLink hclear, t, ?_, ht.widens hm⟩
    rwa [link, Holds.getD_eq hclear hm.spares.links]

end Change

/-! ## The steps of linking -/

section Steps

variable {asked others : List Entity} {hints known : List (Ref k)} {l : Ref .link}
  {ls : List (Ref .link)} {touched : Entity → Prop}

theorem Regards.widens (hm : Regards touched m m') (h : m.ListsAll c) :
    Widens m m' c fun _ => False :=
  ⟨hm.spares, hm.size, h.attends hm.toAttends, fun k => hm.listing c k ▸ Longer.refl _ _⟩

theorem Filing.regards (h : Filing m₀ m c r remaps asked) (hm : Regards touched m m')
    (htouched : ∀ {k : EntityKind} (t : Ref k), t.entity ∈ asked → touched t.entity →
      m.Taken c remaps t) : Filing m₀ m' c r remaps asked := by
  refine Filing.widens (hm.widens h.listed) h (fun _ _ h => h) (hm.remaps r h.node) fun t ht => ?_
  by_cases htouch : touched t.entity
  · exact .inr (htouched t ht htouch)
  · exact .inl (hm.guards t (h.pending t ht).clear htouch)

theorem Filing.grows (h : Filing m₀ m c r remaps asked) (hm : Grows m m') :
    Filing m₀ m' c r remaps asked :=
  h.regards (hm.regards fun _ => False) fun _ _ h => h.elim

theorem Tying.grows (h : Tying m₀ m c r remaps others hints known ls) (hm : Grows m m') :
    Tying m₀ m' c r remaps others hints known ls :=
  h.of_filing ((hm.regards fun _ => False).widens h.listed) (h.toFiling.grows hm)

theorem Tying.enrol (h : Tying m₀ m c r remaps others hints known ls) {k' n} {x : Model × Ref k'}
    (hx : m.Made c n x) :
    Tying m₀ (x.1.enrol x.2) c r remaps others hints known ls := by
  have hmade := h.grows hx.grows
  have hwidens : Widens x.1 (x.1.enrol x.2) c (· = x.2.entity) :=
    ⟨x.1.spares_enrol x.2, Array.size_modify, lists_enrol hmade.listed hx.clear hx.bare,
      x.1.longer_enrol x.2 c⟩
  refine hmade.of_filing hwidens (hmade.toFiling.widens hwidens ?_ rfl fun {k} t ht => .inl ?_)
  · rintro _ hasked rfl
    exact hx.new (h.pending x.2 hasked).clear
  · cases k <;> rfl

theorem Tying.attach (h : Tying m₀ m c r remaps others hints known (l :: ls)) (side : LinkSide)
    (hsettle : ∀ t : Ref k, (m.attach l side).Clear t →
      (⟨((m.attach l side).link l).target.index⟩ : Ref k) = t →
      Regards (· = t.entity) (m.attach l side) m') :
    Tying m₀ m' c r remaps others hints known ls := by
  obtain ⟨hl, t, htarget, ht⟩ := h.links l mem_cons_self
  have hattach := regards_attach hl side (· = t.entity)
  have hsame : (⟨((m.attach l side).link l).target.index⟩ : Ref k) = t := by
    rw [link, Holds.getD_eq hl hattach.spares.links]
    exact congrArg (fun e : Entity => (⟨e.index⟩ : Ref k)) htarget
  have hsettled := hattach.trans (hsettle t (hattach.spares.clear ht.clear) hsame)
  have hrest : Tying m₀ m c r remaps others hints known ls :=
    { h with links := fun l' hl' => h.links l' (mem_cons_of_mem l hl') }
  refine hrest.of_filing (hsettled.widens h.listed) (h.toFiling.regards hsettled ?_)
  -- a hint is not listed, so a link leads to it only if its name is taken
  rintro k' ⟨i⟩ hasked htouched
  cases htouched
  exact ht.listed.resolve_left (h.pending _ hasked).unlisted

theorem Tying.attachOnly (h : Tying m₀ m c r remaps others hints known (l :: ls))
    (side : LinkSide) : Tying m₀ (m.attach l side) c r remaps others hints known ls :=
  h.attach side fun _ _ _ => (Grows.refl _).regards _

end Steps

theorem Filing.linker {rules : ResourceRules k} (hrules : rules.Files) (m₀ c r remaps others) :
    Linker rules Grows c r (fun hints known ls m => Tying m₀ m c r remaps others hints known ls)
      (Orderly m₀ · c) where
  stop h := h.toOrderly
  guards m := m.grows_addGuards []
  along h hm := h.grows hm
  configuration h := h.configuration
  consult {hints m} h := by
    refine { h with known := fun t ht => ?_ }
    rw [hrules.collection] at ht
    exact ⟨(h.listed k).clear t ht, .inl ht⟩
  forget h hknown := { h with known := fun t ht => h.known t (hknown ht) }
  drop h hls := { h with links := fun l hl => h.links l (hls.subset hl) }
  addLink {hints known ls m t x} h ht hnode htarget := by
    have hgrows := m.grows_addLink x
    have hold := h.grows hgrows
    have hself : (m.addLink x).1.link ⟨m.links.size⟩ = x := getD_push_size _ _ _
    refine { hold with links := fun l hl => ?_ }
    rcases mem_append.mp hl with hl | hl
    · exact hold.links l hl
    · rw [mem_singleton.mp hl, hself]
      refine ⟨holds_push_size ?_, t, htarget, hold.known t ht⟩
      rw [hnode]
      exact hold.node
  enter {hints hs known m₁ m} n type _ h _ hm := by
    have hmade := hrules.create m c n type
    have hnew := (h.grows hm).enrol hmade
    rw [hrules.list]
    refine { hnew with known := forall_mem_cons.mpr ⟨⟨?_, .inl ?_⟩, hnew.known⟩ }
    · exact (spares_enrol _ _).clear hmade.clear
    · exact (hrules.listed ((h.grows hm).grows hmade.grows).place hmade).1
  remap m hint n := hrules.copy m hint n
  adopt {hints known ls m hint n} h hhint hname hfree := by
    have hpending := h.pending hint (mem_append_right _ (mem_map_of_mem hhint))
    rw [hrules.collection] at hfree
    rw [hrules.title, h.renamings] at hname
    have hbare : m.Bare (m.guardsAt hint) := by
      refine hpending.bare.resolve_right fun ⟨n', hn', htaken⟩ => ?_
      obtain rfl : n' = n := Except.ok.inj (hn'.symm.trans hname)
      exact Bool.noConfusion (htaken.symm.trans hfree)
    have hmade := hrules.remap n hpending.clear hbare
    rw [hpending.owner] at hmade
    have hnew := h.enrol hmade
    have hlisted := hrules.listed (h.grows hmade.grows).place hmade
    have hspares := hmade.grows.spares.trans (spares_enrol _ (rules.remap m hint n).2)
    rw [hrules.list]
    refine { hnew with known := forall_mem_cons.mpr ⟨?_, hnew.known⟩ }
    split
    · exact ⟨(spares_enrol _ _).clear hmade.clear, .inl hlisted.1⟩
    · refine ⟨hspares.clear hpending.clear, .inr ⟨n, ?_, hlisted.2⟩⟩
      rwa [(hspares.same hpending.clear).1]

section

variable (m₀ : Model) (c : Ref .configuration) (r : Ref .inst) (remaps : Remaps)
  (others : List Entity)

theorem Filing.topicLinker : TopicLinker Grows c r
      (fun hints known ls m => Tying m₀ m c r remaps others hints known ls) (Orderly m₀ · c) where
  toLinker := Filing.linker files_topicRules m₀ c r remaps others
  attach {_ _ _ _ _ side} _ h := by
    refine h.attach side ?_
    rintro t ht rfl
    exact regards_settleTopic ht
  attachMissing {_ _ _ _ _ side} _ h := by
    rw [ClearNode.guardList (h.attachOnly side).node, extendGuards_nil]
    exact h.attachOnly side

theorem Filing.serviceLinker : ServiceLinker Grows c r
      (fun hints known ls m => Tying m₀ m c r remaps others hints known ls) (Orderly m₀ · c) where
  toLinker := Filing.linker files_serviceRules m₀ c r remaps others
  attach {_ _ _ _ _ side} _ h := by
    refine ⟨(h.attachOnly side).toOrderly, fun m' hm' => h.attach side ?_⟩
    rintro t ht rfl
    exact regards_settleService ht hm'

end

theorem Filing.addHint {rules : ResourceRules k} (hrules : rules.Files)
    (h : Filing m₀ m c r remaps asked) (n type) :
    Filing m₀ (rules.create m c n type).1 c r remaps
      (asked ++ [(rules.create m c n type).2.entity]) := by
  have hmade := hrules.create m c n type
  have hold := h.grows hmade.grows
  refine { hold with pending := fun {k'} t ht => ?_ }
  rcases mem_append.mp ht with ht | ht
  · exact hold.pending t ht
  · -- a new resource is not listed, since all that is listed was there before
    have hunlisted : (rules.create m c n type).2 ∉
        (((rules.create m c n type).1.configuration c).listing k).all := by
      rw [hmade.grows.attends.listing]
      exact fun hmem => hmade.new ((h.listed k).clear _ hmem)
    obtain ⟨i⟩ := t
    cases mem_singleton.mp ht
    exact ⟨hmade.clear, hmade.owner, hunlisted, .inl hmade.bare⟩

end Model

/-! ## All the linking of a node -/

namespace Hints

variable {m₀ : Model} {c : Ref .configuration} {r : Ref .inst} {remaps : Remaps} {s : LaunchScope}

theorem filing_resources {rules : ResourceRules k} (hrules : rules.Files) (hc : s.configuration = c)
    (v key asked) :
    MeetsModel (Filing m₀ · c r remaps asked)
      (fun ts m => Filing m₀ m c r remaps (asked ++ ts.map Ref.entity)) (Orderly m₀ · c)
      (resources rules s v key) := by
  have law := Filing.linker hrules m₀ c r remaps asked
  refine ((law.meets_resources hc [] fun n type _ _ h => ?_).pre fun w hw => ?_).post
    fun ts w hw => hw.toFiling
  · refine (h.toFiling.addHint hrules n type).tying ?_
    simp
  · exact hw.tying (by simp)

theorem filing_make (hc : s.configuration = c) (v : Value) :
    MeetsModel (Filing m₀ · c r remaps [])
      (fun h m => Filing m₀ m c r remaps ((h.advertise ++ h.subscribe).map Ref.entity ++
        (h.service ++ h.client).map Ref.entity)) (Orderly m₀ · c) (make s v) := by
  refine of_ite (fun w hw => hw.toOrderly) ?_
  refine (filing_resources files_topicRules hc _ _ _).bind fun advertise => ?_
  refine (filing_resources files_topicRules hc _ _ _).bind fun subscribe => ?_
  refine (filing_resources files_serviceRules hc _ _ _).bind fun service => ?_
  refine (filing_resources files_serviceRules hc _ _ _).bind fun client => ?_
  refine meets_pure fun w hw => ?_
  simpa only [nil_append, map_append, append_assoc] using hw

theorem filing_link (hc : s.configuration = c) (hr : s.node = some r) (v : Value) :
    MeetsModel (Filing m₀ · c r remaps []) (fun _ => (Orderly m₀ · c)) (Orderly m₀ · c)
      (link s v) := by
  refine (filing_make hc v).bind fun h => ?_
  have htopics := Filing.topicLinker m₀ c r remaps ((h.service ++ h.client).map Ref.entity)
  have hled := htopics.meets_makeTopics hr fun t (ht : t ∈ h.advertise ++ h.subscribe) => ht
  refine Meets.bind (hled.pre fun w hw => hw.tying ?_) fun _ => ?_
  · exact append_subset.mpr ⟨subset_append_right _ _, subset_append_left _ _⟩
  have hservices := Filing.serviceLinker m₀ c r remaps []
  have hserved := hservices.meets_makeServices hr fun t (ht : t ∈ h.service ++ h.client) => ht
  refine (hserved.pre fun w hw => hw.toFiling.tying (subset_append_left _ _)).bind fun _ => ?_
  have hmissing : Meets (fun w => Tying m₀ w.model c r remaps [] [] [] []) _ _ (h.makeMissing s) :=
    (Filing.topicLinker m₀ c r remaps []).meets_makeMissing hr h
  refine (hmissing.pre fun w hw => hw.toFiling.tying (nil_subset _)).bind fun _ => ?_
  have hnote : Within (· = ·) (s.noteParams [] []) :=
    (s.bounded_noteParams [] []).within
  exact hnote.meets (returns_true _) (fun _ _ _ hw heq _ => heq ▸ hw.toOrderly)
    fun _ _ _ hw heq => heq ▸ hw.toOrderly

end Hints

theorem FutureLink.filing_make {m₀ remaps} {f : FutureLink} (hf : f.hints = []) :
    MeetsModel (Filing m₀ · c f.node remaps []) (fun _ => (Orderly m₀ · c)) (Orderly m₀ · c)
      f.make := by
  have law := Filing.linker files_paramRules m₀ c f.node remaps []
  have hhints : ∀ t ∈ f.hints, t ∈ ([] : List (Ref .param)) := by
    rw [hf]
    exact fun t ht => ht
  suffices h : MeetsModel (Tying (k := .param) m₀ · c f.node remaps [] [] [] [])
      (fun _ => (Orderly m₀ · c)) (Orderly m₀ · c) f.make from
    h.pre fun w hw => hw.tying (nil_subset _)
  refine law.meets_first within_get (returns_true _) fun w _ => ?_
  refine law.meets_first (within_ofResult _) (returns_true _) fun name _ => ?_
  refine law.meets_first (within_ofResult _) (returns_true _) fun called _ => ?_
  refine law.meets_first (within_ofResult _) (returns_true _) fun target _ => ?_
  refine (law.meets_linksFor rfl hhints).bind fun ls => ?_
  refine Meets.pre ?_ fun w hw => law.drop hw (sublist_effective f.repeats ls)
  refine (meets_forIn (I := fun ls (w : Workbench) => Tying (k := .param) m₀ w.model c f.node remaps
    [] [] [] ls) fun l ls _ w hw => ?_).bind fun _ => meets_pure fun w hw => hw.toOrderly
  exact ⟨⟨_, rfl⟩, hw.attachOnly f.side⟩

end RosAudit
