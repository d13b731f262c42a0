import RosAudit.Proofs.Model.Collection
import RosAudit.Proofs.Model.TwoSided

/-!
# Links to services

A service has one server at most, and any number of clients. `Model.ServiceLinks m c hinted` says
how the links of the nodes and the services of a configuration agree. Where hints name services, a
link may go to the service that was made for a hint, while a copy of that service is listed
(`Overlooked`).

`Model.Serviced` adds what is needed to see that references stay good. It is kept by changes after
which the services and their links are the same (`Serviced.of_alike`).
-/

/-! ## Calm changes -/

namespace RosAudit

open List

def NodeInstance.serving (x : NodeInstance) : NodeInstance :=
  { x with publishers := [], subscribers := [], reads := [], writes := [] }

/-- A service without its guards. -/
def Service.core (s : Service) : Service := { s with guards := default }

namespace Model

abbrev Calm : Model → Model → Prop :=
  Still NodeInstance.serving Model.services Service.core Configuration.services

variable {side : LinkSide}

theorem Calm.side_inst {m m'} (h : Calm m m') (r : Ref .inst) (hside : side.isService = true) :
    (m'.inst r).side side = (m.inst r).side side := by
  refine h.view_inst (·.side side) (fun x => ?_) r
  cases side with
  | servers | clients => rfl
  | _ => cases hside

variable (m : Model)

theorem calm_addLink (x : Link) : Calm m (m.addLink x).1 :=
  .addLink x rfl

theorem calm_addService (x : Service) : Calm m (m.addService x).1 :=
  .of_store rfl rfl rfl (by simp [addService]) fun _ hi =>
    congrArg Service.core (getD_push_of_lt _ _ x hi)

theorem calm_updateService (t) {f} (hf : ∀ s, (f s).core = s.core) : Calm m (m.updateService t f) :=
  .of_store rfl rfl rfl (by simp [updateService]) fun i _ =>
    view_getD_modify _ _ Service.core hf t.index i

theorem calm_addManifest (x p) : Calm m (m.addManifest x p).1 := by
  refine Still.trans ?_ (along_foldl (fun m' e => ?_) _ _)
  all_goals exact .of_eq rfl rfl rfl rfl

theorem calm_attach (l : Ref .link) (h : side.isService = false) : Calm m (m.attach l side) := by
  have hi : Calm m (m.updateInstance (m.link l).node fun n => n.addTo side l) := by
    refine .updateInstance (fun x => ?_) rfl
    cases side with
    | servers | clients => cases h
    | _ => rfl
  cases side with
  | servers | clients => cases h
  | _ => exact hi.trans (.of_eq rfl rfl rfl rfl)

end Model

def Service.addTo (s : Service) (l : Ref .link) : LinkSide → Service
  | .servers => { s with server := .one l }
  | .clients => { s with clients := s.clients ++ [l] }
  | _ => s

def Service.label (s : Service) : Service := { s.core with server := .nobody, clients := [] }

variable {t s t' : Ref .service} {l l' : Ref .link}

namespace Model

variable {m : Model}

/-! ## The links of a configuration -/

/-- The service `t` was made for a hint and is not listed. In its place the service `s` is, a copy
of it under the name that it gets by renaming. -/
structure Overlooked (m : Model) (c : Ref .configuration) (s t : Ref .service) : Prop where
  index : t.index < m.services.size
  unlisted : t ∉ (m.configuration c).services.all
  listed : s ∈ (m.configuration c).services.all
  name : (m.service s).name.given = (m.service t).name.full
  type : (m.service s).type = (m.service t).type

/-- A service that links of a configuration go to. It is listed, or it was overlooked, which happens
only where hints name services. -/
def Linkable (m : Model) (c : Ref .configuration) (hinted : Prop) (t : Ref .service) : Prop :=
  t ∈ (m.configuration c).services.all ∨ hinted ∧ ∃ s, m.Overlooked c s t

def Held (m : Model) (c : Ref .configuration) (side : LinkSide) (l : Ref .link)
    (t : Ref .service) : Prop :=
  (m.link l).target = t.entity ∧ ∃ r ∈ (m.configuration c).nodes.all, l ∈ (m.inst r).side side

/-- The links between the nodes and the services of a configuration. What a node has as a client,
its service lists. A service that a node serves has a server, and the server of a service is a link
that a node serves it by. A copy that is listed for a hint begins with an empty group of servers. -/
structure ServiceLinks (m : Model) (c : Ref .configuration) (hinted : Prop) : Prop where
  ofServer : ∀ r ∈ (m.configuration c).nodes.all, ∀ l ∈ (m.inst r).servers,
    (m.link l).node = r ∧ ∃ t, (m.link l).target = t.entity ∧ m.Linkable c hinted t ∧
      ∃ l', (m.service t).server = .one l' ∧ m.Held c .servers l' t
  ofClient : ∀ r ∈ (m.configuration c).nodes.all, ∀ l ∈ (m.inst r).clients,
    (m.link l).node = r ∧ ∃ t, (m.link l).target = t.entity ∧ m.Linkable c hinted t ∧
      l ∈ (m.service t).clients
  server : ∀ t ∈ (m.configuration c).services.all, (m.service t).server = .nobody ∨
    (∃ l, (m.service t).server = .one l ∧ m.Held c .servers l t) ∨
    hinted ∧ (m.service t).server = .empty ∧ ∃ h, m.Overlooked c t h
  client : ∀ t ∈ (m.configuration c).services.all, ∀ l ∈ (m.service t).clients,
    m.Held c .clients l t

/-- The links to the services of a configuration agree, and what they refer to is there. -/
structure Serviced (m : Model) (c : Ref .configuration) (hinted : Prop) : Prop
    extends m.ServiceLinks c hinted where
  service : ∀ t ∈ (m.configuration c).services.all, t.index < m.services.size
  link : ∀ {side : LinkSide}, side.isService = true → ∀ r ∈ (m.configuration c).nodes.all,
    ∀ l ∈ (m.inst r).side side, l.index < m.links.size

variable {c : Ref .configuration} {hinted : Prop}

theorem serviced_addConfiguration (m : Model) {x} (hn : x.nodes.all = [])
    (hs : x.services.all = []) :
    (m.addConfiguration x).1.Serviced (m.addConfiguration x).2 hinted := by
  have hnew : (m.addConfiguration x).1.configuration (m.addConfiguration x).2 = x :=
    getD_push_size _ _ _
  refine ⟨⟨?_, ?_, ?_, ?_⟩, ?_, fun _ => ?_⟩
  · simp [hnew, hn]
  · simp [hnew, hn]
  · simp [hnew, hs]
  · simp [hnew, hs]
  · simp [hnew, hs]
  · simp [hnew, hn]

theorem Serviced.index_of_linkable (h : m.Serviced c hinted) (ht : m.Linkable c hinted t) :
    t.index < m.services.size := by
  rcases ht with ht | ⟨-, s, ht⟩
  · exact h.service t ht
  · exact ht.index

/-! ## What stays -/

/-- For the configuration `c`, `m'` has the nodes of `m` with their links, and the services up to
theirs. Only new services are listed in addition. -/
structure Retains (c : Ref .configuration) (m m' : Model) : Prop where
  nodes : (m.configuration c).nodes.all ⊆ (m'.configuration c).nodes.all
  side : ∀ r ∈ (m.configuration c).nodes.all, ∀ {side : LinkSide}, side.isService = true →
    (m.inst r).side side ⊆ (m'.inst r).side side
  services : (m.configuration c).services.all ⊆ (m'.configuration c).services.all
  fresh : ∀ t ∈ (m'.configuration c).services.all,
    t ∈ (m.configuration c).services.all ∨ m.services.size ≤ t.index
  names : ∀ n, (m.configuration c).services.contains n = true →
    (m'.configuration c).services.contains n = true
  size_services : m.services.size ≤ m'.services.size
  label : ∀ t : Ref .service, t.index < m.services.size →
    (m'.service t).label = (m.service t).label
  size_links : m.links.size ≤ m'.links.size
  link : ∀ l : Ref .link, l.index < m.links.size → m'.link l = m.link l

section Retains

variable {m' : Model} (h : Retains c m m')
include h

theorem Retains.view_service {β : Type} (g : Service → β) (hg : ∀ s, g s.label = g s)
    (ht : t.index < m.services.size) : g (m'.service t) = g (m.service t) := by
  rw [← hg, h.label t ht, hg]

theorem Retains.unlisted (ht : t.index < m.services.size)
    (hunlisted : t ∉ (m.configuration c).services.all) :
    t ∉ (m'.configuration c).services.all :=
  fun hmem => (h.fresh t hmem).elim hunlisted (Nat.not_le_of_lt ht)

variable (hm : m.Serviced c hinted)
include hm

theorem Overlooked.mono (ht : m.Overlooked c s t) : m'.Overlooked c s t := by
  have hs := hm.service s ht.listed
  refine ⟨Nat.lt_of_lt_of_le ht.index h.size_services, h.unlisted ht.index ht.unlisted,
    h.services ht.listed, ?_, ?_⟩
  · rw [h.view_service Service.name (fun _ => rfl) hs,
      h.view_service Service.name (fun _ => rfl) ht.index]
    exact ht.name
  · rw [h.view_service Service.type (fun _ => rfl) hs,
      h.view_service Service.type (fun _ => rfl) ht.index]
    exact ht.type

theorem Linkable.mono (ht : m.Linkable c hinted t) : m'.Linkable c hinted t := by
  rcases ht with ht | ⟨hhinted, s, ht⟩
  · exact .inl (h.services ht)
  · exact .inr ⟨hhinted, s, ht.mono h hm⟩

theorem Held.mono (hside : side.isService = true) (hl : m.Held c side l t) :
    m'.Held c side l t := by
  obtain ⟨htarget, r, hr, hmem⟩ := hl
  refine ⟨?_, r, h.nodes hr, h.side r hr hside hmem⟩
  rwa [h.link l (hm.link hside r hr l hmem)]

theorem Retains.server (ht : t ∈ (m.configuration c).services.all) :
    (m.service t).server = .nobody ∨
    (∃ l, (m.service t).server = .one l ∧ m'.Held c .servers l t) ∨
    hinted ∧ (m.service t).server = .empty ∧ ∃ h, m'.Overlooked c t h := by
  rcases hm.server t ht with hnobody | ⟨l, hone, hheld⟩ | ⟨hhinted, hgroup, t', ht'⟩
  · exact .inl hnobody
  · exact .inr (.inl ⟨l, hone, hheld.mono h hm rfl⟩)
  · exact .inr (.inr ⟨hhinted, hgroup, t', ht'.mono h hm⟩)

end Retains

/-! ## Changes of other things -/

/-- For the configuration `c`, `m'` has the services of `m` and their links. Its new nodes have no
links to services. -/
structure Alike (c : Ref .configuration) (m m' : Model) : Prop where
  nodes : (m.configuration c).nodes.all ⊆ (m'.configuration c).nodes.all
  side : ∀ r ∈ (m.configuration c).nodes.all, ∀ {side : LinkSide}, side.isService = true →
    (m'.inst r).side side = (m.inst r).side side
  fresh : ∀ r ∈ (m'.configuration c).nodes.all, r ∉ (m.configuration c).nodes.all →
    ∀ {side : LinkSide}, side.isService = true → (m'.inst r).side side = []
  services : (m'.configuration c).services = (m.configuration c).services
  size_services : m.services.size ≤ m'.services.size
  core_service : ∀ t : Ref .service, t.index < m.services.size →
    (m'.service t).core = (m.service t).core
  size_links : m.links.size ≤ m'.links.size
  link : ∀ l : Ref .link, l.index < m.links.size → m'.link l = m.link l

theorem Calm.alike {m'} (h : Calm m m') (c) : Alike c m m' where
  nodes := by rw [h.nodes]; exact List.Subset.refl _
  side r _ _ hside := h.side_inst r hside
  fresh r hr hnew := by
    rw [h.nodes] at hr
    exact absurd hr hnew
  services := h.list c
  size_services := h.size_store
  core_service t ht := h.core t.index ht
  size_links := h.size_links
  link := h.link

theorem alike_updateInstance (m c n) {f}
    (hf : ∀ {side}, side.isService = true → ∀ x, (f x).side side = x.side side) :
    Alike c m (m.updateInstance n f) where
  nodes := List.Subset.refl _
  side r _ side hside :=
    view_getD_modify _ _ (fun x : NodeInstance => x.side side) (hf hside) n.index r.index
  fresh _ hr hnew := absurd hr hnew
  services := rfl
  size_services := Nat.le_refl _
  core_service _ _ := rfl
  size_links := Nat.le_refl _
  link _ _ := rfl

section Alike

variable {m' : Model} (h : Alike c m m')
include h

theorem Alike.mem (side : LinkSide) (hside : side.isService = true) {r}
    (hr : r ∈ (m'.configuration c).nodes.all) (hl : l ∈ (m'.inst r).side side) :
    r ∈ (m.configuration c).nodes.all ∧ l ∈ (m.inst r).side side := by
  by_cases hold : r ∈ (m.configuration c).nodes.all
  · exact ⟨hold, h.side r hold hside ▸ hl⟩
  · rw [h.fresh r hr hold hside] at hl
    exact absurd hl not_mem_nil

theorem Alike.view_service {β : Type} (g : Service → β) (hg : ∀ s, g s.core = g s)
    (ht : t.index < m.services.size) : g (m'.service t) = g (m.service t) := by
  rw [← hg, h.core_service t ht, hg]

theorem Alike.retains : Retains c m m' where
  nodes := h.nodes
  side r hr _ hside := by
    rw [h.side r hr hside]
    exact List.Subset.refl _
  services := by
    rw [h.services]
    exact List.Subset.refl _
  fresh t ht := .inl (h.services ▸ ht)
  names n hn := by rwa [h.services]
  size_services := h.size_services
  label t ht := h.view_service Service.label (fun _ => rfl) ht
  size_links := h.size_links
  link := h.link

theorem Serviced.of_alike (hm : m.Serviced c hinted) : m'.Serviced c hinted where
  ofServer r hr l hl := by
    obtain ⟨hr, hl⟩ := h.mem .servers rfl hr hl
    obtain ⟨hnode, t, htarget, ht, l', hserver, hheld⟩ := hm.ofServer r hr l hl
    rw [h.link l (hm.link rfl r hr l hl)]
    refine ⟨hnode, t, htarget, ht.mono h.retains hm, l', ?_, hheld.mono h.retains hm rfl⟩
    rwa [h.view_service Service.server (fun _ => rfl) (hm.index_of_linkable ht)]
  ofClient r hr l hl := by
    obtain ⟨hr, hl⟩ := h.mem .clients rfl hr hl
    obtain ⟨hnode, t, htarget, ht, hclient⟩ := hm.ofClient r hr l hl
    rw [h.link l (hm.link rfl r hr l hl)]
    refine ⟨hnode, t, htarget, ht.mono h.retains hm, ?_⟩
    rwa [h.view_service Service.clients (fun _ => rfl) (hm.index_of_linkable ht)]
  server t ht := by
    rw [h.services] at ht
    rw [h.view_service Service.server (fun _ => rfl) (hm.service t ht)]
    exact h.retains.server hm ht
  client t ht l hl := by
    rw [h.services] at ht
    rw [h.view_service Service.clients (fun _ => rfl) (hm.service t ht)] at hl
    exact (hm.client t ht l hl).mono h.retains hm rfl
  service t ht := by
    rw [h.services] at ht
    exact Nat.lt_of_lt_of_le (hm.service t ht) h.size_services
  link hside r hr l hl := by
    obtain ⟨hr, hl⟩ := h.mem _ hside hr hl
    exact Nat.lt_of_lt_of_le (hm.link hside r hr l hl) h.size_links

end Alike

/-! ## New services -/

def enterService (m : Model) (x : Service) : Model :=
  ((m.addService x).1.listService ⟨m.services.size⟩).1

section Enter

variable (m : Model) (x : Service)

theorem service_enterService (ht : t.index < m.services.size) :
    (m.enterService x).service t = m.service t :=
  getD_push_of_lt _ _ x ht

theorem service_enterService_new : (m.enterService x).service ⟨m.services.size⟩ = x :=
  getD_push_size _ _ x

theorem size_services_enterService : (m.enterService x).services.size = m.services.size + 1 :=
  Array.size_push x

theorem configurations_enterService : (m.enterService x).configurations =
    m.configurations.modify x.configuration.index fun k => { k with services :=
      ((m.configuration x.configuration).services.add ⟨m.services.size⟩ x.name.full
        (!(m.guardList x.guards).isEmpty)).1 } := by
  have hx : (m.services.push x).getD m.services.size default = x := getD_push_size _ _ _
  simp only [enterService, addService, listService, service, hx]
  rfl

theorem nodes_enterService (c) :
    ((m.enterService x).configuration c).nodes = (m.configuration c).nodes := by
  exact view_getD_modify _ _ Configuration.nodes (fun _ => by rfl) _ _

variable {m x}

theorem services_enterService (hc : c.index < m.configurations.size) (hx : x.configuration = c) :
    ((m.enterService x).configuration c).services =
      ((m.configuration c).services.add ⟨m.services.size⟩ x.name.full
        (!(m.guardList x.guards).isEmpty)).1 := by
  rw [configuration, configurations_enterService, hx, getD_modify_self _ _ _ hc]

theorem mem_services_enterService (hc : c.index < m.configurations.size)
    (hx : x.configuration = c) :
    t ∈ ((m.enterService x).configuration c).services.all ↔
      t ∈ (m.configuration c).services.all ∨ t = ⟨m.services.size⟩ := by
  rw [services_enterService hc hx]
  exact mem_append.trans (or_congr_right mem_singleton)

/-- A service that may be entered : it has no clients, and no servers, or it is the copy of a
service that was made for a hint and is not listed. -/
structure Enterable (m : Model) (c : Ref .configuration) (hinted : Prop) (x : Service) : Prop where
  configuration : x.configuration = c
  clients : x.clients = []
  server : x.server = .nobody ∨ hinted ∧ x.server = .empty ∧ ∃ t : Ref .service,
    t.index < m.services.size ∧ t ∉ (m.configuration c).services.all ∧
    x.name.given = (m.service t).name.full ∧ x.type = (m.service t).type

theorem retains_enterService (hc : c.index < m.configurations.size) (hx : x.configuration = c) :
    Retains c m (m.enterService x) where
  nodes := by
    rw [nodes_enterService]
    exact List.Subset.refl _
  side _ _ _ _ := List.Subset.refl _
  services _ ht := (mem_services_enterService hc hx).mpr (.inl ht)
  fresh t ht := by
    rcases (mem_services_enterService hc hx).mp ht with ht | rfl
    · exact .inl ht
    · exact .inr (Nat.le_refl _)
  names n hn := by
    rw [services_enterService hc hx]
    exact Collection.contains_add.mpr (.inr hn)
  size_services := by
    rw [size_services_enterService]
    exact Nat.le_succ _
  label t ht := by rw [m.service_enterService x ht]
  size_links := Nat.le_refl _
  link _ _ := rfl

theorem Overlooked.of_copy (hc : c.index < m.configurations.size) (hx : x.configuration = c)
    (ht : t.index < m.services.size) (hunlisted : t ∉ (m.configuration c).services.all)
    (hname : x.name.given = (m.service t).name.full) (htype : x.type = (m.service t).type) :
    (m.enterService x).Overlooked c ⟨m.services.size⟩ t := by
  have hold := retains_enterService hc hx
  refine ⟨Nat.lt_of_lt_of_le ht hold.size_services, hold.unlisted ht hunlisted,
    (mem_services_enterService hc hx).mpr (.inr rfl), ?_, ?_⟩
  · rwa [service_enterService_new, m.service_enterService x ht]
  · rw [service_enterService_new, m.service_enterService x ht]
    exact htype

theorem Serviced.enterService (hm : m.Serviced c hinted) (hc : c.index < m.configurations.size)
    (hx : m.Enterable c hinted x) : (m.enterService x).Serviced c hinted := by
  have hold := retains_enterService hc hx.configuration
  have hmem {t : Ref .service} := mem_services_enterService (t := t) hc hx.configuration
  refine ⟨⟨fun r hr l hl => ?_, fun r hr l hl => ?_, fun t ht => ?_, fun t ht l hl => ?_⟩,
    fun t ht => ?_, fun hside r hr => ?_⟩
  · rw [nodes_enterService] at hr
    obtain ⟨hnode, t, htarget, ht, l', hserver, hheld⟩ := hm.ofServer r hr l hl
    refine ⟨hnode, t, htarget, ht.mono hold hm, l', ?_, hheld.mono hold hm rfl⟩
    rwa [m.service_enterService x (hm.index_of_linkable ht)]
  · rw [nodes_enterService] at hr
    obtain ⟨hnode, t, htarget, ht, hclient⟩ := hm.ofClient r hr l hl
    refine ⟨hnode, t, htarget, ht.mono hold hm, ?_⟩
    rwa [m.service_enterService x (hm.index_of_linkable ht)]
  · rcases hmem.mp ht with ht | rfl
    · rw [m.service_enterService x (hm.service t ht)]
      exact hold.server hm ht
    · rw [service_enterService_new]
      rcases hx.server with hnobody | ⟨hhinted, hgroup, t, ht, hunlisted, hname, htype⟩
      · exact .inl hnobody
      · exact .inr
          (.inr ⟨hhinted, hgroup, t, .of_copy hc hx.configuration ht hunlisted hname htype⟩)
  · rcases hmem.mp ht with ht | rfl
    · rw [m.service_enterService x (hm.service t ht)] at hl
      exact (hm.client t ht l hl).mono hold hm rfl
    · rw [service_enterService_new, hx.clients] at hl
      exact absurd hl not_mem_nil
  · rw [size_services_enterService]
    rcases hmem.mp ht with ht | rfl
    · exact Nat.lt_succ_of_lt (hm.service t ht)
    · exact Nat.lt_succ_self _
  · rw [nodes_enterService] at hr
    exact hm.link hside r hr

end Enter

/-! ## Attaching a link -/

section Attach

variable {l : Ref .link} {side : LinkSide}

theorem services_attach (m : Model) (l : Ref .link) (hside : side.isService = true) :
    (m.attach l side).services =
      m.services.modify (m.link l).target.index fun s => s.addTo l side := by
  cases side with
  | servers | clients => rfl
  | _ => cases hside

theorem service_attach (hside : side.isService = true) (htarget : (m.link l).target = t.entity)
    (ht : t.index < m.services.size) (t') :
    (m.attach l side).service t' =
      if t' = t then (m.service t').addTo l side else m.service t' := by
  have hindex : (m.link l).target.index = t.index := congrArg Entity.index htarget
  rw [service, services_attach m l hside, hindex]
  split
  · subst t'
    exact getD_modify_self _ _ _ ht
  · exact getD_modify_ref_of_ne _ _ _ ‹_›

theorem size_services_attach (m : Model) (l : Ref .link) (hside : side.isService = true) :
    (m.attach l side).services.size = m.services.size := by
  rw [services_attach m l hside, Array.size_modify]

/-- A link from the node `r` of a configuration to the service `t`, both of which are there. -/
structure Going (m : Model) (c : Ref .configuration) (hinted : Prop) (r : Ref .inst)
    (t : Ref .service) (l : Ref .link) : Prop where
  index : l.index < m.links.size
  node : (m.link l).node = r
  listed : r ∈ (m.configuration c).nodes.all
  index_node : r.index < m.instances.size
  target : (m.link l).target = t.entity
  linkable : m.Linkable c hinted t
  index_target : t.index < m.services.size

section Going

variable {r : Ref .inst} {t : Ref .service} (hl : m.Going c hinted r t l)
  (hside : side.isService = true)
include hl

theorem mem_side_attach (side' : LinkSide) {r'} :
    l' ∈ ((m.attach l side).inst r').side side' ↔
      l' ∈ (m.inst r').side side' ∨ (r' = r ∧ side' = side) ∧ l' = l := by
  rw [side_inst_attach (hl.node ▸ hl.index_node), hl.node, mem_append, mem_ite_nil_right,
    mem_singleton]

theorem held_attach : (m.attach l side).Held c side l t := by
  refine ⟨by rw [link_attach, hl.target], r, ?_, ?_⟩
  · rw [configuration_attach]
    exact hl.listed
  · exact (mem_side_attach hl side).mpr (.inr ⟨⟨rfl, rfl⟩, rfl⟩)

include hside

theorem Going.retains : Retains c m (m.attach l side) where
  nodes := by
    rw [configuration_attach]
    exact List.Subset.refl _
  side _ _ side' _ _ hl' := (mem_side_attach hl side').mpr (.inl hl')
  services := by
    rw [configuration_attach]
    exact List.Subset.refl _
  fresh t ht := .inl (configuration_attach m l side c ▸ ht)
  names n hn := by rwa [configuration_attach]
  size_services := Nat.le_of_eq (size_services_attach m l hside).symm
  label t' _ := by
    rw [service_attach hside hl.target hl.index_target]
    split
    · cases side <;> rfl
    · rfl
  size_links := Nat.le_of_eq (size_links_attach m l side).symm
  link := fun l' _ => link_attach m l side l'

theorem server_attach (t') : ((m.attach l side).service t').server =
    if t' = t ∧ side = .servers then .one l else (m.service t').server := by
  rw [service_attach hside hl.target hl.index_target]
  cases side with
  | servers | clients => by_cases ht' : t' = t <;> simp [ht', Service.addTo]
  | _ => cases hside

theorem mem_clients_attach :
    l' ∈ ((m.attach l side).service t').clients ↔
      l' ∈ (m.service t').clients ∨ (t' = t ∧ side = .clients) ∧ l' = l := by
  rw [service_attach hside hl.target hl.index_target]
  cases side with
  | servers | clients => by_cases ht' : t' = t <;> simp [ht', Service.addTo]
  | _ => cases hside

theorem exists_server_attach (hm : m.Serviced c hinted)
    (ht' : (∃ l', (m.service t').server = .one l' ∧ m.Held c .servers l' t') ∨
      t' = t ∧ side = .servers) :
    ∃ l', ((m.attach l side).service t').server = .one l' ∧
      (m.attach l side).Held c .servers l' t' := by
  rw [server_attach hl hside]
  by_cases hnew : t' = t ∧ side = .servers
  · obtain ⟨rfl, rfl⟩ := hnew
    exact ⟨l, if_pos ⟨rfl, rfl⟩, held_attach hl⟩
  · obtain ⟨l', hserver, hheld⟩ := ht'.resolve_right hnew
    exact ⟨l', by rwa [if_neg hnew], hheld.mono (hl.retains hside) hm rfl⟩

theorem Serviced.attach (hm : m.Serviced c hinted) : (m.attach l side).Serviced c hinted where
  ofServer r' hr' l' hl' := by
    rw [configuration_attach] at hr'
    rw [link_attach]
    rcases (mem_side_attach hl .servers).mp hl' with hl' | ⟨⟨rfl, hs⟩, rfl⟩
    · obtain ⟨hnode, t', htarget, ht', hserver⟩ := hm.ofServer r' hr' l' hl'
      exact ⟨hnode, t', htarget, ht'.mono (hl.retains hside) hm,
        exists_server_attach hl hside hm (.inl hserver)⟩
    · refine ⟨hl.node, t, hl.target, hl.linkable.mono (hl.retains hside) hm, ?_⟩
      exact exists_server_attach hl hside hm (.inr ⟨rfl, hs.symm⟩)
  ofClient r' hr' l' hl' := by
    rw [configuration_attach] at hr'
    rw [link_attach]
    rcases (mem_side_attach hl .clients).mp hl' with hl' | ⟨⟨rfl, hs⟩, rfl⟩
    · obtain ⟨hnode, t', htarget, ht', hclient⟩ := hm.ofClient r' hr' l' hl'
      refine ⟨hnode, t', htarget, ht'.mono (hl.retains hside) hm, ?_⟩
      exact (mem_clients_attach hl hside).mpr (.inl hclient)
    · refine ⟨hl.node, t, hl.target, hl.linkable.mono (hl.retains hside) hm, ?_⟩
      exact (mem_clients_attach hl hside).mpr (.inr ⟨⟨rfl, hs.symm⟩, rfl⟩)
  server t' ht' := by
    rw [configuration_attach] at ht'
    by_cases hnew : t' = t ∧ side = .servers
    · exact .inr (.inl (exists_server_attach hl hside hm (.inr hnew)))
    · rw [server_attach hl hside, if_neg hnew]
      exact (hl.retains hside).server hm ht'
  client t' ht' l' hl' := by
    rw [configuration_attach] at ht'
    rcases (mem_clients_attach hl hside).mp hl' with hl' | ⟨⟨rfl, rfl⟩, rfl⟩
    · exact (hm.client t' ht' l' hl').mono (hl.retains hside) hm rfl
    · exact held_attach hl
  service t' ht' := by
    rw [configuration_attach] at ht'
    rw [size_services_attach m l hside]
    exact hm.service t' ht'
  link hside' r' hr' l' hl' := by
    rw [configuration_attach] at hr'
    rw [size_links_attach]
    rcases (mem_side_attach hl _).mp hl' with hl' | ⟨-, rfl⟩
    · exact hm.link hside' r' hr' l' hl'
    · exact hl.index

end Going

end Attach

end Model

end RosAudit
