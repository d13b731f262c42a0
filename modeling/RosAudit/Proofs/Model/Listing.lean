import RosAudit.Proofs.Model.Collection
import RosAudit.Proofs.Model.Quiet

/-!
# What a configuration lists

A configuration lists its resources by kind, and the four kinds are listed in the same way
(`Model.enrol`). When a resource is listed, its guards decide whether it counts as enabled or as
conditional. `Model.Lists` says that all that a collection lists is clear and was listed as enabled.

* `lists_enrol` : it goes on to hold when a clear resource without guards is listed;
* `startInstance_nil` : a node is started without guards, and is listed so.
-/

/-! ## Resources without guards -/

namespace RosAudit

open List

/-- Every object of `xs` is in `ys` at the same index, up to a change that `rel` allows. -/
def Tracks {α : Type} (rel : α → α → Prop) (xs ys : Array α) : Prop :=
  ∀ (i : Nat) x, xs[i]? = some x → Holds ys (rel x) i

section Tracks

variable {α : Type} {rel rel' rel'' : α → α → Prop} {xs ys zs : Array α} {P Q : α → Prop} {i : Nat}
  {l : Ref .link}

theorem Kept.tracks (h : Kept xs ys) (hrel : ∀ x, rel x x) : Tracks rel xs ys :=
  fun i x hx => ⟨x, h i x hx, hrel x⟩

theorem tracks_modify (xs : Array α) (i : Nat) {f} (hrel : ∀ x, rel x x) (hf : ∀ x, rel x (f x)) :
    Tracks rel xs (xs.modify i f) := by
  intro j x hx
  rw [Holds, Array.getElem?_modify, hx]
  split
  · exact ⟨f x, rfl, hf x⟩
  · exact ⟨x, rfl, hrel x⟩

theorem Tracks.view {β : Type} (h : Tracks rel xs ys) (hi : Holds xs P i) (d : α)
    {g : α → β} (hg : ∀ x y, rel x y → g y = g x) : g (ys.getD i d) = g (xs.getD i d) := by
  obtain ⟨x, hx, -⟩ := hi
  obtain ⟨y, hy, hrel⟩ := h i x hx
  rw [Array.getD_eq_getD_getElem?, Array.getD_eq_getD_getElem?, hx, hy]
  exact hg x y hrel

theorem Tracks.holds (h : Tracks rel xs ys) (hi : Holds xs P i)
    (hrel : ∀ x y, rel x y → P x → Q y) : Holds ys Q i := by
  obtain ⟨x, hx, hP⟩ := hi
  obtain ⟨y, hy, hxy⟩ := h i x hx
  exact ⟨y, hy, hrel x y hxy hP⟩

theorem Tracks.trans (h : Tracks rel xs ys) (h' : Tracks rel' ys zs)
    (hrel : ∀ x y z, rel x y → rel' y z → rel'' x z) : Tracks rel'' xs zs :=
  fun i x hx => h'.holds (h i x hx) fun y z hyz hxy => hrel x y z hxy hyz

end Tracks

/-- The links of a topic. -/
def Topic.links (t : Topic) : List (Ref .link) := t.publishers ++ t.subscribers

/-- The links of a service. -/
def Service.links (s : Service) : List (Ref .link) := Model.serversOf s ++ s.clients

theorem Service.mem_links_of_one {s : Service} (h : s.server = .one l) : l ∈ s.links := by
  simp [links, Model.serversOf, h]

/-- A copy has no links but those of the service that it is made from. -/
theorem Service.links_copy_subset (s : Service) (n : Name) (g : Ref .guards) :
    ({ s with name := n, guards := g, server := s.server.grouped } : Service).links ⊆ s.links := by
  intro l hl
  cases hs : s.server <;> simp_all [links, Model.serversOf, Server.grouped]

namespace Model

def Bare (m : Model) (g : Ref .guards) : Prop := m.guards[g.index]? = some []

theorem Bare.guardList {m : Model} {g} (h : m.Bare g) : m.guardList g = [] := by
  rw [Model.guardList, Array.getD_eq_getD_getElem?, h]
  rfl

def ClearNode (m : Model) (r : Ref .inst) : Prop :=
  Holds m.instances (fun x => m.Bare x.guards) r.index

def ClearLink (m : Model) (l : Ref .link) : Prop :=
  Holds m.links (fun x => m.ClearNode x.node) l.index

/-- A resource that exists. A node instance or a parameter has no guards, and a topic or a service
is linked with nodes that have none. -/
def Clear (m : Model) {k : EntityKind} (r : Ref k) : Prop :=
  match k with
  | .inst => m.ClearNode r
  | .link => m.ClearLink r
  | .topic => Holds m.topics (fun t => ∀ l ∈ t.links, m.ClearLink l) r.index
  | .service => Holds m.services (fun s => ∀ l ∈ s.links, m.ClearLink l) r.index
  | .param => Holds m.params (fun p => m.Bare p.guards) r.index
  | _ => False

def ownerOf (m : Model) {k : EntityKind} (r : Ref k) : Ref .configuration :=
  match k with
  | .inst => (m.inst r).configuration
  | .topic => (m.topic r).configuration
  | .service => (m.service r).configuration
  | .param => (m.param r).configuration
  | _ => default

def guardsAt (m : Model) {k : EntityKind} (r : Ref k) : Ref .guards :=
  match k with
  | .inst => (m.inst r).guards
  | .topic => (m.topic r).guards
  | .service => (m.service r).guards
  | .param => (m.param r).guards
  | _ => default

/-- The full name of a resource. -/
def title (m : Model) {k : EntityKind} (r : Ref k) : String := (m.id? r.entity).getD ""

/-! ## Changes that spare what is clear -/

/-- What is clear in `m` is clear in `m'`, with its name and its configuration. -/
structure Spares (m m' : Model) : Prop where
  bare : ∀ g, m.Bare g → m'.Bare g
  links : Kept m.links m'.links
  instances : Tracks (fun x y => y.guards = x.guards ∧ y.name = x.name ∧
    y.configuration = x.configuration) m.instances m'.instances
  params : Tracks (fun x y => y.guards = x.guards ∧ y.name = x.name ∧
    y.configuration = x.configuration) m.params m'.params
  topics : Tracks (fun x y => y.name = x.name ∧ y.configuration = x.configuration ∧
    ∀ l ∈ y.links, l ∈ x.links ∨ m'.ClearLink l) m.topics m'.topics
  services : Tracks (fun x y => y.name = x.name ∧ y.configuration = x.configuration ∧
    ∀ l ∈ y.links, l ∈ x.links ∨ m'.ClearLink l) m.services m'.services

section Spares

variable {m m' m'' : Model} (h : Spares m m') {k : EntityKind}
include h

theorem Spares.clearNode {r} (hr : m.ClearNode r) : m'.ClearNode r :=
  h.instances.holds hr fun _ _ hxy hbare => (congrArg m'.Bare hxy.1).mpr (h.bare _ hbare)

theorem Spares.clearLink (hl : m.ClearLink l) : m'.ClearLink l := by
  obtain ⟨x, hx, hnode⟩ := hl
  exact ⟨x, h.links _ x hx, h.clearNode hnode⟩

theorem Spares.clear {r : Ref k} (hr : m.Clear r) : m'.Clear r := by
  cases k with
  | inst => exact h.clearNode hr
  | link => exact h.clearLink hr
  | topic =>
    exact h.topics.holds hr fun _ _ hxy hlinks l hl =>
      (hxy.2.2 l hl).elim (fun hl => h.clearLink (hlinks l hl)) id
  | service =>
    exact h.services.holds hr fun _ _ hxy hlinks l hl =>
      (hxy.2.2 l hl).elim (fun hl => h.clearLink (hlinks l hl)) id
  | param =>
    exact h.params.holds hr fun _ _ hxy hbare => (congrArg m'.Bare hxy.1).mpr (h.bare _ hbare)
  | _ => cases hr

theorem Spares.same {r : Ref k} (hr : m.Clear r) :
    m'.title r = m.title r ∧ m'.ownerOf r = m.ownerOf r := by
  cases k with
  | inst =>
    exact ⟨h.instances.view hr default fun x y hxy => congrArg Name.full hxy.2.1,
      h.instances.view hr default fun x y hxy => hxy.2.2⟩
  | topic =>
    exact ⟨h.topics.view hr default fun x y hxy => congrArg Name.full hxy.1,
      h.topics.view hr default fun x y hxy => hxy.2.1⟩
  | service =>
    exact ⟨h.services.view hr default fun x y hxy => congrArg Name.full hxy.1,
      h.services.view hr default fun x y hxy => hxy.2.1⟩
  | param =>
    exact ⟨h.params.view hr default fun x y hxy => congrArg Name.full hxy.2.1,
      h.params.view hr default fun x y hxy => hxy.2.2⟩
  | link => exact ⟨rfl, rfl⟩
  | _ => cases hr

end Spares

variable {m m' m'' : Model}

theorem Spares.of_kept (hg : Kept m.guards m'.guards) (hl : Kept m.links m'.links)
    (hi : Kept m.instances m'.instances) (hp : Kept m.params m'.params)
    (ht : Kept m.topics m'.topics) (hs : Kept m.services m'.services) : Spares m m' where
  bare g h := hg g.index [] h
  links := hl
  instances := hi.tracks fun _ => ⟨rfl, rfl, rfl⟩
  params := hp.tracks fun _ => ⟨rfl, rfl, rfl⟩
  topics := ht.tracks fun _ => ⟨rfl, rfl, fun _ h => .inl h⟩
  services := hs.tracks fun _ => ⟨rfl, rfl, fun _ h => .inl h⟩

theorem Spares.refl (m : Model) : Spares m m :=
  .of_kept (.refl _) (.refl _) (.refl _) (.refl _) (.refl _) (.refl _)

theorem Spares.trans (h : Spares m m') (h' : Spares m' m'') : Spares m m'' where
  bare g hg := h'.bare g (h.bare g hg)
  links := h.links.trans h'.links
  instances := h.instances.trans h'.instances fun _ _ _ hxy hyz =>
    ⟨hyz.1.trans hxy.1, hyz.2.1.trans hxy.2.1, hyz.2.2.trans hxy.2.2⟩
  params := h.params.trans h'.params fun _ _ _ hxy hyz =>
    ⟨hyz.1.trans hxy.1, hyz.2.1.trans hxy.2.1, hyz.2.2.trans hxy.2.2⟩
  topics := h.topics.trans h'.topics fun _ _ _ hxy hyz => ⟨hyz.1.trans hxy.1,
    hyz.2.1.trans hxy.2.1, fun l hl => (hyz.2.2 l hl).elim
      (fun hl => (hxy.2.2 l hl).imp_right h'.clearLink) .inr⟩
  services := h.services.trans h'.services fun _ _ _ hxy hyz => ⟨hyz.1.trans hxy.1,
    hyz.2.1.trans hxy.2.1, fun l hl => (hyz.2.2 l hl).elim
      (fun hl => (hxy.2.2 l hl).imp_right h'.clearLink) .inr⟩

section Update

variable (m : Model)

theorem spares_updateInstance (r : Ref .inst) {f}
    (hf : ∀ x, (f x).guards = x.guards ∧ (f x).name = x.name ∧
      (f x).configuration = x.configuration) :
    Spares m (m.updateInstance r f) :=
  { Spares.refl m with
    instances := tracks_modify _ _ (fun _ => ⟨rfl, rfl, rfl⟩) hf
    topics := (Kept.refl _).tracks fun _ => ⟨rfl, rfl, fun _ h => .inl h⟩
    services := (Kept.refl _).tracks fun _ => ⟨rfl, rfl, fun _ h => .inl h⟩ }

theorem spares_updateTopic (t) {f}
    (hf : ∀ x, (f x).name = x.name ∧ (f x).configuration = x.configuration ∧
      ∀ l ∈ (f x).links, l ∈ x.links ∨ m.ClearLink l) :
    Spares m (m.updateTopic t f) :=
  { Spares.refl m with
    topics := tracks_modify _ _ (fun _ => ⟨rfl, rfl, fun _ h => .inl h⟩) hf }

theorem spares_updateService (t) {f}
    (hf : ∀ x, (f x).name = x.name ∧ (f x).configuration = x.configuration ∧
      ∀ l ∈ (f x).links, l ∈ x.links ∨ m.ClearLink l) :
    Spares m (m.updateService t f) :=
  { Spares.refl m with
    services := tracks_modify _ _ (fun _ => ⟨rfl, rfl, fun _ h => .inl h⟩) hf }

theorem spares_attach (hl : m.ClearLink l) (side : LinkSide) : Spares m (m.attach l side) := by
  have hi : Spares m (m.updateInstance (m.link l).node fun n => n.addTo side l) := by
    refine m.spares_updateInstance _ fun x => ?_
    cases side <;> exact ⟨rfl, rfl, rfl⟩
  have hnew : ∀ {ls : List (Ref .link)} {l'}, l' ∈ ls ∨ l' = l → l' ∈ ls ∨
      (m.updateInstance (m.link l).node fun n => n.addTo side l).ClearLink l' := by
    rintro ls l' (hold | rfl)
    · exact .inl hold
    · exact .inr (hi.clearLink hl)
  cases side with
  | publishers | subscribers =>
    refine hi.trans (spares_updateTopic _ _ fun x => ⟨rfl, rfl, fun l' hl' => hnew ?_⟩)
    simp only [Topic.links, mem_append, mem_singleton] at hl' ⊢
    tauto
  | servers | clients =>
    refine hi.trans (spares_updateService _ _ fun x => ⟨rfl, rfl, fun l' hl' => hnew ?_⟩)
    simp only [Service.links, serversOf, mem_append, mem_singleton] at hl' ⊢
    tauto
  | reads | writes =>
    exact hi.trans { Spares.refl _ with
      params := tracks_modify _ _ (fun _ => ⟨rfl, rfl, rfl⟩) fun _ => ⟨rfl, rfl, rfl⟩ }

end Update

/-! ## Growth -/

/-- Something was added, and all the rest is as it was. -/
structure Grows (m m' : Model) : Prop where
  guards : Kept m.guards m'.guards
  links : Kept m.links m'.links
  instances : Kept m.instances m'.instances
  params : Kept m.params m'.params
  topics : Kept m.topics m'.topics
  services : Kept m.services m'.services
  configurations : m'.configurations = m.configurations

theorem Grows.refl (m : Model) : Grows m m :=
  ⟨.refl _, .refl _, .refl _, .refl _, .refl _, .refl _, rfl⟩

theorem Grows.trans (h : Grows m m') (h' : Grows m' m'') : Grows m m'' :=
  ⟨h.guards.trans h'.guards, h.links.trans h'.links, h.instances.trans h'.instances,
    h.params.trans h'.params, h.topics.trans h'.topics, h.services.trans h'.services,
    h'.configurations.trans h.configurations⟩

instance : IsPreorder Model Grows where
  refl := Grows.refl
  trans _ _ _ := Grows.trans

theorem Grows.spares (h : Grows m m') : Spares m m' :=
  .of_kept h.guards h.links h.instances h.params h.topics h.services

theorem Grows.guardsAt_eq (h : Grows m m') {r : Ref k} (hr : m.Clear r) :
    m'.guardsAt r = m.guardsAt r := by
  cases k with
  | inst => exact congrArg NodeInstance.guards (Holds.getD_eq hr h.instances default)
  | topic => exact congrArg Topic.guards (Holds.getD_eq hr h.topics default)
  | service => exact congrArg Service.guards (Holds.getD_eq hr h.services default)
  | param => exact congrArg Parameter.guards (Holds.getD_eq hr h.params default)
  | _ => rfl

section Add

variable (m : Model) {known : Collection k}

theorem grows_addGuards (gs) : Grows m (m.addGuards gs).1 :=
  { Grows.refl m with guards := kept_push _ _ }

theorem grows_addLink (x : Link) : Grows m (m.addLink x).1 :=
  { Grows.refl m with links := kept_push _ _ }

theorem grows_addTopic (x : Topic) : Grows m (m.addTopic x).1 :=
  { Grows.refl m with topics := kept_push _ _ }

theorem grows_addService (x : Service) : Grows m (m.addService x).1 :=
  { Grows.refl m with services := kept_push _ _ }

theorem grows_makeParam (x : Parameter) : Grows m (m.makeParam x).1 :=
  { Grows.refl m with params := kept_push _ _ }

theorem grows_addNode (x : Node) : Grows m (m.addNode x).1 :=
  { Grows.refl m with }

theorem grows_addManifest (x p) : Grows m (m.addManifest x p).1 := by
  refine Grows.trans ?_ (along_foldl (fun m' e => ?_) _ _)
  · exact { Grows.refl m with }
  · exact { Grows.refl m' with }

theorem bare_addGuards : (m.addGuards []).1.Bare (m.addGuards []).2 :=
  Array.getElem?_push_size

end Add

end Model

def Configuration.listing (x : Configuration) : (k : EntityKind) → Collection k
  | .inst => x.nodes
  | .topic => x.topics
  | .service => x.services
  | .param => x.params
  | _ => {}

def Configuration.relist (x : Configuration) : {k : EntityKind} → Collection k → Configuration
  | .inst, known => { x with nodes := known }
  | .topic, known => { x with topics := known }
  | .service, known => { x with services := known }
  | .param, known => { x with params := known }
  | _, _ => x

theorem Configuration.forall_listing_relist {P : ∀ k, Collection k → Prop} {x : Configuration}
    (h : ∀ k, P k (x.listing k)) (hknown : P k known) (k') :
    P k' ((x.relist known).listing k') := by
  cases k with
  | inst | topic | service | param => cases k' <;> first | exact hknown | exact h _
  | _ => exact h k'

namespace Model

variable {m m' : Model} {c : Ref .configuration} {k : EntityKind}

/-- A collection whose resources are clear and were listed as enabled. Those with a partly unknown
name are listed as such. -/
structure Lists (m : Model) (known : Collection k) : Prop where
  enabled : known.enabled = known.all
  conditional : known.conditional = []
  unresolved : known.unresolved = known.all.filter fun r => (m.title r).toList.contains '?'
  clear : ∀ r ∈ known.all, m.Clear r

theorem Lists.spares (h : m.Lists known) (hm : Spares m m') :
    m'.Lists known where
  enabled := h.enabled
  conditional := h.conditional
  unresolved := by
    rw [h.unresolved]
    exact filter_congr fun r hr => by rw [(hm.same (h.clear r hr)).1]
  clear r hr := hm.clear (h.clear r hr)

theorem Lists.add (h : m.Lists known) {r} (hr : m.Clear r) :
    m.Lists (known.add r (m.title r) false).1 where
  enabled := by simp [Collection.add, h.enabled]
  conditional := by simp [Collection.add, h.conditional]
  unresolved := by
    simp only [Collection.add, filter_append, filter_cons, h.unresolved]
    split <;> simp
  clear := by
    simpa [Collection.add, or_imp, forall_and, hr] using h.clear

def ListsAll (m : Model) (c : Ref .configuration) : Prop :=
  ∀ k, m.Lists ((m.configuration c).listing k)

/-- What is clear is spared, and every configuration lists the same. -/
structure Attends (m m' : Model) : Prop where
  spares : Spares m m'
  size : m'.configurations.size = m.configurations.size
  listing : ∀ c k, (m'.configuration c).listing k = (m.configuration c).listing k

theorem Attends.trans {m''} (h : Attends m m') (h' : Attends m' m'') : Attends m m'' where
  spares := h.spares.trans h'.spares
  size := h'.size.trans h.size
  listing c k := (h'.listing c k).trans (h.listing c k)

theorem Spares.attends (h : Spares m m') (hc : m'.configurations = m.configurations) :
    Attends m m' where
  spares := h
  size := by rw [hc]
  listing c k := by rw [configuration, hc, configuration]

theorem Grows.attends (h : Grows m m') : Attends m m' :=
  h.spares.attends h.configurations

theorem ListsAll.attends (h : m.ListsAll c) (hm : Attends m m') : m'.ListsAll c := by
  intro k
  rw [hm.listing]
  exact (h k).spares hm.spares

theorem spares_updateConfiguration (m c) (f : Configuration → Configuration) :
    Spares m (m.updateConfiguration c f) :=
  .of_kept (.refl _) (.refl _) (.refl _) (.refl _) (.refl _) (.refl _)

theorem attends_updateConfiguration (m c) {f} (hf : ∀ x k, (f x).listing k = x.listing k) :
    Attends m (m.updateConfiguration c f) where
  spares := m.spares_updateConfiguration c f
  size := Array.size_modify
  listing _ k :=
    view_getD_modify m.configurations default (fun x => x.listing k) (fun x => hf x k) _ _

/-! ## Listing a resource -/

def enrol (m : Model) (r : Ref k) : Model :=
  m.updateConfiguration (m.ownerOf r) fun x => x.relist
    (((m.configuration (m.ownerOf r)).listing k).add r (m.title r)
      (!(m.guardList (m.guardsAt r)).isEmpty)).1

theorem spares_enrol (m : Model) (r : Ref k) : Spares m (m.enrol r) :=
  m.spares_updateConfiguration _ _

theorem forall_listing_enrol {P : ∀ k, Collection k → Prop} (r)
    (h : ∀ k, P k ((m.configuration c).listing k))
    (hadd : P k (((m.configuration c).listing k).add r (m.title r) (!(m.guardList (m.guardsAt
      r)).isEmpty)).1)
    (k') :
    P k' (((m.enrol r).configuration c).listing k') := by
  rw [enrol, configuration, updateConfiguration]
  rcases getD_modify_or m.configurations default _ (m.ownerOf r).index c.index with hc | ⟨hi, hc⟩
  · rw [hc]
    exact h k'
  · obtain rfl : m.ownerOf r = c := congrArg Ref.mk hi
    rw [hc]
    exact Configuration.forall_listing_relist h hadd k'

theorem lists_enrol (h : m.ListsAll c) {r : Ref k} (hr : m.Clear r) (hg : m.Bare (m.guardsAt r)) :
    (m.enrol r).ListsAll c := by
  refine forall_listing_enrol (P := fun k known => (m.enrol r).Lists known) r (fun k => ?_) ?_
  · exact (h k).spares (m.spares_enrol r)
  · rw [hg.guardList]
    exact ((h k).add hr).spares (m.spares_enrol r)

/-- Nothing is listed that was not, other than resources with `added`. -/
structure Longer (added : Entity → Prop) (known known' : Collection k) : Prop where
  new : ∀ t ∈ known'.all, t ∈ known.all ∨ added t.entity
  old : ∀ t ∈ known.all, t ∈ known'.all
  names : ∀ name, known.contains name = true → known'.contains name = true

theorem Longer.refl (added : Entity → Prop) (known : Collection k) : Longer added known known :=
  ⟨fun _ ht => .inl ht, fun _ ht => ht, fun _ h => h⟩

theorem longer_enrol (m : Model) (r : Ref k) (c k') :
    Longer (· = r.entity) ((m.configuration c).listing k')
      (((m.enrol r).configuration c).listing k') := by
  refine forall_listing_enrol
    (P := fun k known => Longer (· = r.entity) ((m.configuration c).listing k) known) r
    (fun k => Longer.refl _ _) ?_ k'
  refine ⟨fun t ht => ?_, fun t ht => mem_append_left [r] ht, fun name h => ?_⟩
  · rcases mem_append.mp ht with ht | ht
    · exact .inl ht
    · exact .inr (congrArg Ref.entity (mem_singleton.mp ht))
  · exact Collection.contains_add.mpr (.inr h)

theorem startInstance_nil (m) {x : Ref .guards → NodeInstance} (hx : ∀ g, (x g).guards = g) (c)
    (hc : ∀ g, (x g).configuration = c) :
    Spares m (m.startInstance [] x).1 ∧
    (m.startInstance [] x).1.configurations.size = m.configurations.size ∧
    (m.startInstance [] x).1.Clear (m.startInstance [] x).2 ∧
    (m.startInstance [] x).1.ownerOf (m.startInstance [] x).2 = c ∧
    (m.ListsAll c → (m.startInstance [] x).1.ListsAll c) := by
  let g : Ref .guards := (m.addGuards []).2
  let r : Ref .inst := ((m.addGuards []).1.addInstance (x g)).2
  let m₁ : Model := ((m.addGuards []).1.addInstance (x g)).1.updateNode (x g).node
    fun n => { n with instances := n.instances ++ [r] }
  have hgrows : Grows m m₁ :=
    { m.grows_addGuards [] with instances := kept_push _ _, links := .refl _, params := .refl _ }
  have hself : m₁.inst r = x g := getD_push_size _ _ _
  have hbare : m₁.Bare (x g).guards := by
    rw [hx]
    exact m.bare_addGuards
  have hclear : m₁.Clear r := holds_push_size hbare
  have hspares := m₁.spares_enrol r
  refine ⟨hgrows.spares.trans hspares, Array.size_modify, hspares.clear hclear, ?_, fun h => ?_⟩
  · exact (hspares.same hclear).2.trans ((congrArg NodeInstance.configuration hself).trans (hc g))
  · refine lists_enrol (h.attends hgrows.attends) hclear ?_
    rwa [guardsAt, hself]

end Model

end RosAudit
