import RosAudit.Proofs.Job
import RosAudit.Proofs.Model.ServiceLinks

/-!
# Services while a node is linked

`Model.Serving` describes a model while one node instance is linked to its services. A service that
was made for a hint is not in use (`Asked`), until a copy of it is listed under the name that it
gets by renaming (`Named`). From then on links go to the service itself, and it stays unlisted,
since its name is taken. So the copies that are listed never had a server or a client.
-/

namespace RosAudit

open List

theorem Name.given_of_make {name ns pns remaps n} (h : Name.make name ns pns remaps = .ok n) :
    n.given = name := by
  obtain ⟨full, -, h⟩ := bind_eq_ok.mp h
  cases h
  rfl

variable {m' : Model} {t : Ref .service}

namespace Model

variable {m : Model} {c : Ref .configuration} {hinted : Prop}

/-! ## While a node is linked -/

/-- The name that a service gets by the renamings of the node `r` is listed. -/
def Named (m : Model) (c : Ref .configuration) (r : Ref .inst) (t : Ref .service) : Prop :=
  ∃ n, Name.make (m.service t).name.full "/" "" (m.inst r).remaps = .ok n ∧
    (m.configuration c).services.contains n.full = true

/-- A service that was made for a hint. It is not in use, unless its name is listed. -/
structure Asked (m : Model) (c : Ref .configuration) (r : Ref .inst) (t : Ref .service) : Prop where
  index : t.index < m.services.size
  configuration : (m.service t).configuration = c
  unlisted : t ∉ (m.configuration c).services.all
  unused : (m.service t).server = .nobody ∧ (m.service t).clients = [] ∨ m.Named c r t

def Aimed (m : Model) (c : Ref .configuration) (hinted : Prop) (r : Ref .inst)
    (t : Ref .service) : Prop :=
  t ∈ (m.configuration c).services.all ∨ (hinted ∧ ∃ s, m.Overlooked c s t) ∧ m.Named c r t

/-- The node `r` is being linked. The services `hints` were made for hints, the links to be made may
go to the services `known`, and the links `ls` are not attached yet. -/
structure Serving (m : Model) (c : Ref .configuration) (hinted : Prop) (r : Ref .inst)
    (hints known : List (Ref .service)) (ls : List (Ref .link)) : Prop where
  serviced : m.Serviced c hinted
  place : c.index < m.configurations.size
  listed : r ∈ (m.configuration c).nodes.all
  index : r.index < m.instances.size
  configuration : (m.inst r).configuration = c
  asking : hints ≠ [] → hinted
  asked : ∀ t ∈ hints, m.Asked c r t
  known : ∀ t ∈ known, m.Aimed c hinted r t
  loose : ∀ l ∈ ls, l.index < m.links.size ∧ (m.link l).node = r ∧
    ∃ t, (m.link l).target = t.entity ∧ m.Aimed c hinted r t

theorem Aimed.linkable {r} (h : m.Aimed c hinted r t) : m.Linkable c hinted t :=
  h.imp_right And.left

section Linking

variable {r : Ref .inst} {t : Ref .service}

theorem Named.mono (h : Retains c m m') (hremaps : (m'.inst r).remaps = (m.inst r).remaps)
    (ht : t.index < m.services.size) (hn : m.Named c r t) : m'.Named c r t := by
  obtain ⟨n, hn, hlisted⟩ := hn
  refine ⟨n, ?_, h.names _ hlisted⟩
  rwa [h.view_service Service.name (fun _ => rfl) ht, hremaps]

theorem Aimed.mono (h : Retains c m m') (hremaps : (m'.inst r).remaps = (m.inst r).remaps)
    (hm : m.Serviced c hinted) (ht : m.Aimed c hinted r t) : m'.Aimed c hinted r t := by
  have hindex := hm.index_of_linkable ht.linkable
  rcases ht with ht | ⟨⟨hhinted, s, ht⟩, hn⟩
  · exact .inl (h.services ht)
  · exact .inr ⟨⟨hhinted, s, ht.mono h hm⟩, hn.mono h hremaps hindex⟩

theorem named_enterService {x} (hc : c.index < m.configurations.size) (hx : x.configuration = c)
    (ht : t.index < m.services.size)
    (hn : Name.make (m.service t).name.full "/" "" (m.inst r).remaps = .ok x.name) :
    (m.enterService x).Named c r t := by
  refine ⟨x.name, ?_, ?_⟩
  · rwa [m.service_enterService x ht]
  · rw [services_enterService hc hx]
    exact Collection.contains_add.mpr (.inl rfl)

theorem remaps_attach (m : Model) (l : Ref .link) (side : LinkSide) (r : Ref .inst) :
    ((m.attach l side).inst r).remaps = (m.inst r).remaps := by
  rw [inst, instances_attach]
  refine view_getD_modify _ _ NodeInstance.remaps (fun x => ?_) _ _
  cases side <;> rfl

end Linking

namespace Serving

variable {r : Ref .inst} {hints known : List (Ref .service)} {ls : List (Ref .link)}

section

variable (h : m.Serving c hinted r hints known ls)
include h

/-- What has to be shown of a change is that services made for hints do not come into use, unless
their names are listed. -/
theorem retain (hold : Retains c m m') (hserviced : m'.Serviced c hinted)
    (hplace : m'.configurations.size = m.configurations.size)
    (hindex : m'.instances.size = m.instances.size)
    (hconf : (m'.inst r).configuration = (m.inst r).configuration)
    (hremaps : (m'.inst r).remaps = (m.inst r).remaps)
    (hunused : ∀ t ∈ hints, (m.service t).server = .nobody ∧ (m.service t).clients = [] →
      (m'.service t).server = .nobody ∧ (m'.service t).clients = [] ∨ m'.Named c r t)
    :
    m'.Serving c hinted r hints known ls where
  serviced := hserviced
  place := hplace ▸ h.place
  listed := hold.nodes h.listed
  index := hindex ▸ h.index
  configuration := hconf.trans h.configuration
  asking := h.asking
  asked t ht := by
    have hasked := h.asked t ht
    refine ⟨Nat.lt_of_lt_of_le hasked.index hold.size_services, ?_,
      hold.unlisted hasked.index hasked.unlisted, ?_⟩
    · rw [hold.view_service Service.configuration (fun _ => rfl) hasked.index]
      exact hasked.configuration
    · exact hasked.unused.elim (hunused t ht) fun hn => .inr (hn.mono hold hremaps hasked.index)
  known t ht := (h.known t ht).mono hold hremaps h.serviced
  loose l hl := by
    obtain ⟨hindex, hnode, t, htarget, ht⟩ := h.loose l hl
    rw [hold.link l hindex]
    exact ⟨Nat.lt_of_lt_of_le hindex hold.size_links, hnode, t, htarget,
      ht.mono hold hremaps h.serviced⟩

theorem of_calm (hc : Calm m m') : m'.Serving c hinted r hints known ls := by
  have halike := hc.alike c
  refine h.retain halike.retains (h.serviced.of_alike halike) hc.size_configurations
    hc.size_instances (hc.view_inst NodeInstance.configuration (fun _ => rfl) r)
    (hc.view_inst NodeInstance.remaps (fun _ => rfl) r) fun t ht hunused => .inl ?_
  have hindex := (h.asked t ht).index
  rwa [halike.view_service Service.server (fun _ => rfl) hindex,
    halike.view_service Service.clients (fun _ => rfl) hindex]

theorem of_subset {known' ls'} (hknown : known' ⊆ known) (hls : ls' ⊆ ls) :
    m.Serving c hinted r hints known' ls' :=
  { h with known := fun t ht => h.known t (hknown ht), loose := fun l hl => h.loose l (hls hl) }

end

section

variable (h : m.Serving c hinted r hints known ls)
include h

variable {x : Service}

theorem addHint (hhinted : hinted) (hx : x.configuration = c)
    (hserver : x.server = .nobody) (hclients : x.clients = []) :
    (m.addService x).1.Serving c hinted r (hints ++ [⟨m.services.size⟩]) known ls := by
  have hold := h.of_calm (m.calm_addService x)
  have hnew : (m.addService x).1.service ⟨m.services.size⟩ = x := getD_push_size _ _ _
  refine { hold with asking := fun _ => hhinted, asked := fun t ht => ?_ }
  rcases mem_append.mp ht with ht | ht
  · exact hold.asked t ht
  · rw [mem_singleton.mp ht]
    refine ⟨by simp [addService], by rw [hnew, hx], fun hmem => ?_, .inl ?_⟩
    · exact Nat.lt_irrefl _ (h.serviced.service _ hmem)
    · rw [hnew]
      exact ⟨hserver, hclients⟩

theorem addLink {x} (ht : t ∈ known) (hnode : x.node = r) (htarget : x.target = t.entity) :
    (m.addLink x).1.Serving c hinted r hints known (ls ++ [⟨m.links.size⟩]) := by
  have hold := h.of_calm (m.calm_addLink x)
  have hnew : (m.addLink x).1.link ⟨m.links.size⟩ = x := getD_push_size _ _ _
  refine { hold with loose := fun l hl => ?_ }
  rcases mem_append.mp hl with hl | hl
  · exact hold.loose l hl
  · rw [mem_singleton.mp hl, hnew]
    exact ⟨by simp [Model.addLink], hnode, t, htarget, hold.known t ht⟩

theorem enterService (hx : m.Enterable c hinted x) :
    (m.enterService x).Serving c hinted r hints (⟨m.services.size⟩ :: known) ls := by
  have hold := h.retain (retains_enterService h.place hx.configuration)
    (h.serviced.enterService h.place hx) (by rw [configurations_enterService, Array.size_modify])
    rfl rfl rfl fun t ht hunused => .inl (by rwa [m.service_enterService x (h.asked t ht).index])
  refine { hold with known := forall_mem_cons.mpr ⟨.inl ?_, hold.known⟩ }
  exact (mem_services_enterService h.place hx.configuration).mpr (.inr rfl)

/-- The copy of a service that was made for a hint is listed, and links may be made to the service
itself. It was not in use, since its name was not listed. -/
theorem adopt (ht : t ∈ hints) {n}
    (hn : Name.make (m.service t).name.full "/" "" (m.inst r).remaps = .ok n)
    (hnew : (m.configuration c).services.contains n.full = false)
    (hx : x = { m.service t with name := n, guards := x.guards, server :=
      (m.service t).server.grouped }) :
    (m.enterService x).Serving c hinted r hints (t :: known) ls := by
  have hasked := h.asked t ht
  have hhinted := h.asking (ne_nil_of_mem ht)
  have hunused : (m.service t).server = .nobody ∧ (m.service t).clients = [] := by
    refine hasked.unused.resolve_right fun hnamed => ?_
    obtain ⟨n', hn', hlisted⟩ := hnamed
    obtain rfl : n' = n := Except.ok.inj (hn'.symm.trans hn)
    rw [hnew] at hlisted
    cases hlisted
  have hname : x.name = n := congrArg Service.name hx
  have htype : x.type = (m.service t).type := by rw [hx]
  have hgiven : x.name.given = (m.service t).name.full := by
    rw [hname]
    exact Name.given_of_make hn
  have hserver : x.server = .empty := by
    rw [hx, hunused.1]
    rfl
  have henterable : m.Enterable c hinted x := by
    refine ⟨?_, ?_, .inr ⟨hhinted, hserver, t, hasked.index, hasked.unlisted, hgiven, htype⟩⟩
    · rw [hx]
      exact hasked.configuration
    · rw [hx]
      exact hunused.2
  have hentered := h.enterService henterable
  have hoverlooked : (m.enterService x).Overlooked c ⟨m.services.size⟩ t :=
    .of_copy h.place henterable.configuration hasked.index hasked.unlisted hgiven htype
  have hnamed := named_enterService h.place henterable.configuration hasked.index (hname ▸ hn)
  refine { hentered with known := fun t' ht' => ?_ }
  rcases mem_cons.mp ht' with rfl | ht'
  · exact .inr ⟨⟨hhinted, _, hoverlooked⟩, hnamed⟩
  · exact hentered.known t' (mem_cons_of_mem _ ht')

end

theorem attach {l} (h : m.Serving c hinted r hints known (l :: ls)) {side}
    (hside : side.isService = true) : (m.attach l side).Serving c hinted r hints known ls := by
  obtain ⟨hindex, hnode, t, htarget, haimed⟩ := h.loose l mem_cons_self
  have hl : m.Going c hinted r t l :=
    ⟨hindex, hnode, h.listed, h.index, htarget, haimed.linkable,
      h.serviced.index_of_linkable haimed.linkable⟩
  have hrest := h.of_subset (List.Subset.refl _) (subset_cons_self l ls)
  refine hrest.retain (hl.retains hside) (h.serviced.attach hl hside)
    (size_configurations_attach ..)
    (size_instances_attach ..) (configuration_inst_attach ..) (remaps_attach ..)
    fun t' ht' hunused => ?_
  by_cases heq : t' = t
  · subst heq
    have hn := (haimed.resolve_left (h.asked t' ht').unlisted).2
    exact .inr (hn.mono (hl.retains hside) (remaps_attach ..) hl.index_target)
  · rw [service_attach hside hl.target hl.index_target, if_neg heq]
    exact .inl hunused

end Serving

end Model

end RosAudit
