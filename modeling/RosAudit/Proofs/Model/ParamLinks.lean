import Mathlib.Data.List.Forall2
import RosAudit.Proofs.Model.TwoSided

/-!
# Links to parameters

A node instance has a list of links to the parameters that it reads and one for those that it
writes, and so has each parameter. `Model.SameUses m m'` says that on the way from `m` to `m'` no
parameter came into use : both kinds of lists and the calls of all programs are the same, and no
parameter was taken off a configuration. Nearly all changes of a model are such (`sameUses_*`).

`Model.Accounts c r side calls` says what the links of the node instance `r` are on one of the two
sides. They were made one by one for the calls listed (`Serves`), each is with a parameter of the
configuration `c` and there once, and no parameter has another link from `r`. Only a link that is
attached changes this (`Accounts.of_sameUses`), by one call or not at all (`Accounts.attach_own`,
`Accounts.attach_other`).
-/

namespace RosAudit

open List

/-- The links of a parameter on a side. -/
def Parameter.side (p : Parameter) : LinkSide → List (Ref .link)
  | .reads => p.reads
  | .writes => p.writes
  | _ => []

def Node.paramCalls (n : Node) : LinkSide → List Call
  | .reads => n.readParam
  | .writes => n.writeParam
  | _ => []

theorem Node.paramCalls_congr {x y : Node} (h : ∀ k, x.calls k = y.calls k) (side : LinkSide) :
    x.paramCalls side = y.paramCalls side := by
  cases side with
  | reads => exact h .readParam
  | writes => exact h .writeParam
  | _ => rfl

theorem exists_of_forall₂ {α β : Type} {R} : ∀ {l : List α} {l' : List β},
    List.Forall₂ R l l' → ∀ b ∈ l', ∃ a, R a b
  | _, _, .nil, b, hb => by cases hb
  | _, _, .cons h hs, b, hb => by
    rcases mem_cons.mp hb with rfl | hb
    · exact ⟨_, h⟩
    · exact exists_of_forall₂ hs b hb

namespace Model

/-! ## Changes that use no parameter -/

/-- No parameter came into use between `m` and `m'`. -/
structure SameUses (m m' : Model) : Prop where
  size_instances : m.instances.size ≤ m'.instances.size
  node : ∀ r : Ref .inst, r.index < m.instances.size → (m'.inst r).node = (m.inst r).node
  configuration : ∀ r : Ref .inst, r.index < m.instances.size →
    (m'.inst r).configuration = (m.inst r).configuration
  side_inst : ∀ r {side : LinkSide}, side.isParam = true →
    (m'.inst r).side side = (m.inst r).side side
  side_param : ∀ p side, (m'.param p).side side = (m.param p).side side
  calls : ∀ n side, (m'.node n).paramCalls side = (m.node n).paramCalls side
  size_links : m.links.size ≤ m'.links.size
  link : ∀ l : Ref .link, l.index < m.links.size → m'.link l = m.link l
  params : ∀ c, (m.configuration c).params.all ⊆ (m'.configuration c).params.all

namespace SameUses

theorem of_eq {m m'} (hi : m'.instances = m.instances) (hp : m'.params = m.params)
    (hn : m'.nodes = m.nodes) (hl : m'.links = m.links) (hc :
      m'.configurations = m.configurations) :
    SameUses m m' where
  size_instances := Nat.le_of_eq (congrArg Array.size hi.symm)
  node r _ := by rw [inst, hi, inst]
  configuration r _ := by rw [inst, hi, inst]
  side_inst r _ _ := by rw [inst, hi, inst]
  side_param p _ := by rw [param, hp, param]
  calls n _ := by rw [Model.node, hn, Model.node]
  size_links := Nat.le_of_eq (congrArg Array.size hl.symm)
  link l _ := by rw [Model.link, hl, Model.link]
  params c := by
    rw [Model.configuration, Model.configuration, hc]
    exact List.Subset.refl _

theorem refl (m : Model) : SameUses m m :=
  of_eq rfl rfl rfl rfl rfl

theorem trans {m m' m''} (h : SameUses m m') (h' : SameUses m' m'') : SameUses m m'' where
  size_instances := Nat.le_trans h.size_instances h'.size_instances
  node r hr := (h'.node r (Nat.lt_of_lt_of_le hr h.size_instances)).trans (h.node r hr)
  configuration r hr :=
    (h'.configuration r (Nat.lt_of_lt_of_le hr h.size_instances)).trans (h.configuration r hr)
  side_inst r _ hside := (h'.side_inst r hside).trans (h.side_inst r hside)
  side_param p side := (h'.side_param p side).trans (h.side_param p side)
  calls n side := (h'.calls n side).trans (h.calls n side)
  size_links := Nat.le_trans h.size_links h'.size_links
  link l hl := (h'.link l (Nat.lt_of_lt_of_le hl h.size_links)).trans (h.link l hl)
  params c := List.Subset.trans (h.params c) (h'.params c)

instance : IsPreorder Model SameUses where
  refl := refl
  trans _ _ _ := trans

end SameUses

variable (m : Model)

theorem sameUses_addNode {x : Node} (hx : ∀ k, x.calls k = []) : SameUses m (m.addNode x).1 :=
  { SameUses.refl m with
    calls := fun n side => by
      refine view_getD_push _ _ (Node.paramCalls · side)
        (Node.paramCalls_congr (fun k => ?_) side) _
      rw [hx]
      cases k <;> rfl }

theorem sameUses_makeParam {x} (hx : x.reads = [] ∧ x.writes = []) : SameUses m (m.makeParam x).1 :=
  { SameUses.refl m with
    side_param := fun p side => by
      refine view_getD_push _ _ (Parameter.side · side) ?_ _
      cases side with
      | reads => exact hx.1
      | writes => exact hx.2
      | _ => rfl }

theorem sameUses_addLink (x : Link) : SameUses m (m.addLink x).1 :=
  { SameUses.refl m with
    size_links := by simp [addLink]
    link := fun _ hl => getD_push_of_lt _ _ x hl }

theorem sameUses_addManifest (x p) : SameUses m (m.addManifest x p).1 := by
  refine SameUses.trans ?_ (along_foldl (fun m' e => ?_) _ _)
  · exact .of_eq rfl rfl rfl rfl rfl
  · exact (m'.sameUses_addNode fun k => by cases k <;> rfl).trans (.of_eq rfl rfl rfl rfl rfl)

theorem sameUses_updateInstance (r : Ref .inst) {f} (hnode : ∀ x, (f x).node = x.node)
    (hc : ∀ x, (f x).configuration = x.configuration)
    (hside : ∀ {side}, side.isParam = true → ∀ x, (f x).side side = x.side side) :
    SameUses m (m.updateInstance r f) :=
  { SameUses.refl m with
    size_instances := by simp [updateInstance]
    node := fun r' _ => view_getD_modify _ _ NodeInstance.node hnode _ _
    configuration := fun r' _ => view_getD_modify _ _ NodeInstance.configuration hc _ _
    side_inst := fun r' side h => view_getD_modify _ _ (NodeInstance.side · side) (hside h) _ _ }

theorem sameUses_updateConfiguration (c) {f}
    (hf : (m.configuration c).params.all ⊆ (f (m.configuration c)).params.all) :
    SameUses m (m.updateConfiguration c f) :=
  { SameUses.refl m with
    params := fun c' => by
      rcases getD_modify_or m.configurations default f c.index c'.index with h | ⟨hc, h⟩
      · rw [configuration, updateConfiguration, configuration, h]
        exact List.Subset.refl _
      · obtain rfl : c = c' := congrArg Ref.mk hc
        rw [configuration, updateConfiguration, configuration, h]
        exact hf }

theorem sameUses_listParam (p) : SameUses m (m.listParam p).1 :=
  m.sameUses_updateConfiguration _ (subset_append_left _ _)

theorem mem_listParam {m : Model} {p q} {c : Ref .configuration}
    (h : q ∈ ((m.listParam p).1.configuration c).params.all) :
    q ∈ (m.configuration c).params.all ∨ q = p := by
  unfold listParam updateConfiguration configuration at h
  rcases getD_modify_or m.configurations default _ (m.param p).configuration.index c.index
    with heq | ⟨hindex, heq⟩ <;> rw [heq] at h
  · exact .inl h
  · obtain rfl : (m.param p).configuration = c := congrArg Ref.mk hindex
    rcases mem_append.mp h with h | h
    · exact .inl h
    · exact .inr (mem_singleton.mp h)

theorem sameUses_attach (l : Ref .link) {side} (h : side.isParam = false) :
    SameUses m (m.attach l side) := by
  have hi : SameUses m (m.updateInstance (m.link l).node fun n => n.addTo side l) := by
    refine m.sameUses_updateInstance _ (fun x => ?_) (fun x => ?_) fun {side'} h' x => ?_
    · cases side <;> rfl
    · cases side <;> rfl
    · cases side' with
      | reads | writes =>
        cases side with
        | reads | writes => cases h
        | _ => rfl
      | _ => cases h'
  cases side with
  | reads | writes => cases h
  | _ => exact hi.trans (.of_eq rfl rfl rfl rfl rfl)

/-! ## Accounts -/

/-- Every link that a parameter has is there, and so is its node instance. -/
def Grounded : Prop :=
  ∀ p side, ∀ l ∈ (m.param p).side side,
    l.index < m.links.size ∧ (m.link l).node.index < m.instances.size

/-- The link `l` was made for the call `call` of the node instance `r`. It is with a parameter of
the configuration `c`, and there once. -/
structure Serves (c : Ref .configuration) (r : Ref .inst) (side : LinkSide) (call : Call)
    (l : Ref .link) : Prop where
  index : l.index < m.links.size
  node : (m.link l).node = r
  role : (m.link l).role = .param
  name : call.name = some (m.link l).name.given
  type : (m.link l).type = call.type
  guards : (m.link l).guards = call.guards
  location : (m.link l).location = call.location
  target : ∃ p ∈ (m.configuration c).params.all, (m.link l).target = p.entity ∧
    ((m.param p).side side).count l = 1

/-- The links of `r` on a side were made one by one for some calls, and parameters have no other
links from `r` there. -/
structure Accounts (c : Ref .configuration) (r : Ref .inst) (side : LinkSide) (calls : List Call) :
    Prop where
  each : List.Forall₂ (m.Serves c r side) calls ((m.inst r).side side)
  nodup : ((m.inst r).side side).Nodup
  only : ∀ p, ∀ l ∈ (m.param p).side side, (m.link l).node = r → l ∈ (m.inst r).side side

variable {m} {m' : Model} {c : Ref .configuration} {r : Ref .inst} {side : LinkSide}
  {calls : List Call} {call : Call} {l : Ref .link}

theorem Grounded.of_sameUses (hm : m.Grounded) (h : SameUses m m') : m'.Grounded := by
  intro p side l hl
  rw [h.side_param] at hl
  obtain ⟨hlink, hnode⟩ := hm p side l hl
  rw [h.link l hlink]
  exact ⟨Nat.lt_of_lt_of_le hlink h.size_links, Nat.lt_of_lt_of_le hnode h.size_instances⟩

theorem Serves.of_sameUses (hl : m.Serves c r side call l) (h : SameUses m m') :
    m'.Serves c r side call l := by
  obtain ⟨p, hp, htarget, hcount⟩ := hl.target
  have hlink := h.link l hl.index
  constructor
  case index => exact Nat.lt_of_lt_of_le hl.index h.size_links
  case target => exact ⟨p, h.params c hp, by rw [hlink, htarget], by rw [h.side_param, hcount]⟩
  all_goals rw [hlink]
  · exact hl.node
  · exact hl.role
  · exact hl.name
  · exact hl.type
  · exact hl.guards
  · exact hl.location

theorem Accounts.of_sameUses (ha : m.Accounts c r side calls) (hside : side.isParam = true)
    (hm : m.Grounded) (h : SameUses m m') : m'.Accounts c r side calls := by
  constructor
  · rw [h.side_inst r hside]
    exact ha.each.imp fun _ _ hl => hl.of_sameUses h
  · rw [h.side_inst r hside]
    exact ha.nodup
  · intro p l hl hnode
    rw [h.side_param] at hl
    rw [h.link l (hm p side l hl).1] at hnode
    rw [h.side_inst r hside]
    exact ha.only p l hl hnode

theorem Accounts.index (ha : m.Accounts c r side calls) (hl : l ∈ (m.inst r).side side) :
    l.index < m.links.size := by
  obtain ⟨call, hserves⟩ := exists_of_forall₂ ha.each l hl
  exact hserves.index

theorem side_inst_of_le (hr : m.instances.size ≤ r.index) (side : LinkSide) :
    (m.inst r).side side = [] := by
  rw [inst, Array.getD_eq_getD_getElem?, Array.getElem?_eq_none hr]
  cases side <;> rfl

theorem accounts_nil (hm : m.Grounded) (hr : m.instances.size ≤ r.index) :
    m.Accounts c r side [] := by
  have hnone := side_inst_of_le hr side
  refine ⟨by rw [hnone]; exact .nil, by rw [hnone]; exact .nil, fun p l hl hnode => ?_⟩
  have hindex := (hm p side l hl).2
  rw [hnode] at hindex
  exact absurd hindex (Nat.not_lt_of_le hr)

/-! ## Attaching a link -/

theorem paramCalls_attach (m : Model) (l : Ref .link) (side : LinkSide) (r : Ref .inst)
    (side' : LinkSide) :
    ((m.attach l side).node ((m.attach l side).inst r).node).paramCalls side' =
      (m.node (m.inst r).node).paramCalls side' := by
  have hnode : ((m.attach l side).inst r).node = (m.inst r).node := by
    rw [inst, instances_attach]
    refine view_getD_modify _ _ NodeInstance.node (fun x => ?_) _ _
    cases side <;> rfl
  rw [hnode]
  cases side <;> rfl

theorem size_params_attach (m : Model) (l : Ref .link) (side : LinkSide) :
    (m.attach l side).params.size = m.params.size := by
  cases side with
  | reads | writes => exact Array.size_modify ..
  | _ => rfl

/-- A link to a parameter that is not yet listed with either side. -/
structure Bound (m : Model) (l : Ref .link) (p : Ref .param) : Prop where
  index : l.index < m.links.size
  node : (m.link l).node.index < m.instances.size
  target : (m.link l).target = p.entity
  param : p.index < m.params.size
  unlisted : ∀ p' side, l ∉ (m.param p').side side

section Attach

variable {p : Ref .param} {side' : LinkSide}

theorem side_param_attach (hside' : side'.isParam = true) (hl : m.Bound l p) (p' side) :
    ((m.attach l side').param p').side side =
      (m.param p').side side ++ if p' = p ∧ side = side' then [l] else [] := by
  have hindex : (m.link l).target.index = p.index := congrArg Entity.index hl.target
  cases side' with
  | reads | writes =>
    simp only [attach, updateParam, param, updateInstance, hindex]
    refine side_getD_modify _ _ Parameter.side (fun x side => ?_) hl.param p' side
    cases side <;> simp [Parameter.side]
  | _ => cases hside'

variable (hside' : side'.isParam = true) (hl : m.Bound l p)
include hside' hl

theorem mem_side_param_attach {p' l'} (h : l' ∈ ((m.attach l side').param p').side side) :
    l' ∈ (m.param p').side side ∨ l' = l ∧ p' = p ∧ side = side' := by
  rw [side_param_attach hside' hl, mem_append] at h
  rcases h with h | h
  · exact .inl h
  · split at h
    · rename_i hp
      exact .inr ⟨mem_singleton.mp h, hp⟩
    · cases h

theorem Grounded.attach (hm : m.Grounded) : (m.attach l side').Grounded := by
  intro p' side l' hl'
  rw [size_links_attach, size_instances_attach, link_attach]
  rcases mem_side_param_attach hside' hl hl' with h | ⟨rfl, -, -⟩
  · exact hm p' side l' h
  · exact ⟨hl.index, hl.node⟩

theorem Serves.attach {l'} (h : m.Serves c r side call l') (hne : l' ≠ l) :
    (m.attach l side').Serves c r side call l' := by
  obtain ⟨p', hp', htarget, hcount⟩ := h.target
  refine ⟨by simpa using h.index, by simpa using h.node, by simpa using h.role,
    by simpa using h.name, by simpa using h.type, by simpa using h.guards,
    by simpa using h.location, p', by simpa using hp', by simpa using htarget, ?_⟩
  have hnone : (if p' = p ∧ side = side' then [l] else []).count l' = 0 := by
    split
    · exact count_eq_zero.mpr fun h => hne (mem_singleton.mp h)
    · rfl
  rw [side_param_attach hside' hl, count_append, hcount, hnone]

theorem Accounts.each_attach (ha : m.Accounts c r side calls) (hnew : l ∉ (m.inst r).side side) :
    List.Forall₂ ((m.attach l side').Serves c r side) calls ((m.inst r).side side) := by
  obtain ⟨hlength, heach⟩ := forall₂_iff_get.mp ha.each
  refine forall₂_iff_get.mpr ⟨hlength, fun i h₁ h₂ => ?_⟩
  refine (heach i h₁ h₂).attach hside' hl fun h => hnew ?_
  exact h ▸ get_mem _ _

theorem Accounts.attach_other (ha : m.Accounts c r side calls)
    (hnew : l ∉ (m.inst r).side side) (hr : ¬ ((m.link l).node = r ∧ side' = side)) :
    (m.attach l side').Accounts c r side calls := by
  have hsame : ((m.attach l side').inst r).side side = (m.inst r).side side := by
    rw [side_inst_attach hl.node, if_neg fun h => hr ⟨h.1.symm, h.2.symm⟩, append_nil]
  refine ⟨?_, by rw [hsame]; exact ha.nodup, fun p' l' hl' hnode => ?_⟩
  · rw [hsame]
    exact ha.each_attach hside' hl hnew
  · rw [link_attach] at hnode
    rw [hsame]
    rcases mem_side_param_attach hside' hl hl' with h | ⟨rfl, -, hs⟩
    · exact ha.only p' l' h hnode
    · exact absurd ⟨hnode, hs.symm⟩ hr

theorem Accounts.attach_own (ha : m.Accounts c r side' calls) (hnode : (m.link l).node = r)
    (hnew : l ∉ (m.inst r).side side') (hserves : (m.attach l side').Serves c r side' call l) :
    (m.attach l side').Accounts c r side' (calls ++ [call]) := by
  have hgrown : ((m.attach l side').inst r).side side' = (m.inst r).side side' ++ [l] := by
    rw [side_inst_attach hl.node, if_pos ⟨hnode.symm, rfl⟩]
  constructor
  · rw [hgrown]
    exact rel_append (ha.each_attach hside' hl hnew) (.cons hserves .nil)
  · rw [hgrown]
    exact nodup_append.mpr ⟨ha.nodup, pairwise_singleton _ l, by
      rintro l' hl' _ hmem rfl
      exact hnew (mem_singleton.mp hmem ▸ hl')⟩
  · intro p' l' hl' hr
    rw [hgrown]
    rcases mem_side_param_attach hside' hl hl' with h | ⟨rfl, -, -⟩
    · exact mem_append_left _ (ha.only p' l' h (by rwa [link_attach] at hr))
    · exact mem_append_right _ mem_cons_self

end Attach

end Model

end RosAudit
