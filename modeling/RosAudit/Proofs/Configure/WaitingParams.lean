import Mathlib.Data.List.Infix
import RosAudit.Proofs.Configure.Places
import RosAudit.Proofs.Configure.WithoutTag

/-!
# Parameters that wait

The parameters that a launch file sets wait on the workbench, and only the end of the file lists
them in the configuration.

* `LaunchScope.exec_setDocument` : every parameter that a document stands for in a scope
(`documentParams`) waits when the document was loaded, be it a scalar or a record;
* `mem_listed_of_settleParams` : at the end all that waits is listed;
* `listed_of_addLaunch` : so what waits at any place in a launch file is listed when the file was
added.
-/

namespace RosAudit

open Job Model LaunchScope List

/-! ## Parameters of a model -/

variable {L : List (Ref .param) → List (Ref .param) → Prop} [IsPreorder (List (Ref .param)) L]

/-- A parameter without its links. -/
def Parameter.bare (p : Parameter) : Parameter := { p with reads := [], writes := [] }

namespace Model

/-- No parameter is lost or changed, but for its links, and the lists of the configurations are
related by `L`. -/
structure KeepsParams (L : List (Ref .param) → List (Ref .param) → Prop) (m m' : Model) : Prop where
  size_params : m.params.size ≤ m'.params.size
  bare : ∀ r : Ref .param, r.index < m.params.size → (m'.param r).bare = (m.param r).bare
  size_configurations : m'.configurations.size = m.configurations.size
  listed : ∀ c, L (m.configuration c).params.all (m'.configuration c).params.all

namespace KeepsParams

theorem of_eq {m m'} (hp : m'.params = m.params) (hc : m'.configurations = m.configurations) :
    KeepsParams L m m' where
  size_params := Nat.le_of_eq (congrArg Array.size hp.symm)
  bare r _ := by rw [param, hp, param]
  size_configurations := congrArg Array.size hc
  listed c := by
    rw [configuration, configuration, hc]
    exact refl_of L _

theorem trans {m m' m''} (h : KeepsParams L m m') (h' : KeepsParams L m' m'') :
    KeepsParams L m m'' where
  size_params := Nat.le_trans h.size_params h'.size_params
  bare r hr := (h'.bare r (Nat.lt_of_lt_of_le hr h.size_params)).trans (h.bare r hr)
  size_configurations := h'.size_configurations.trans h.size_configurations
  listed c := trans_of L (h.listed c) (h'.listed c)

omit [IsPreorder (List (Ref .param)) L] in
theorem names_listed {m m'} (h : KeepsParams Eq m m') {c}
    (hlisted : ∀ r ∈ (m.configuration c).params.all, r.index < m.params.size) :
    ((m'.configuration c).params.all.map m'.param).map (·.name.full) =
      ((m.configuration c).params.all.map m.param).map (·.name.full) := by
  rw [← h.listed c, map_map, map_map]
  refine map_congr_left fun r hr => ?_
  exact congrArg (·.name.full) (h.bare r (hlisted r hr))

instance : IsPreorder Model (KeepsParams L) where
  refl _ := of_eq rfl rfl
  trans _ _ _ := trans

end KeepsParams

variable (m : Model)

theorem keepsParams_makeParam (x : Parameter) : KeepsParams L m (m.makeParam x).1 :=
  { refl_of (KeepsParams L) m with
    size_params := by simp [makeParam, addParam]
    bare := fun _ hr => congrArg Parameter.bare (getD_push_of_lt _ _ _ hr) }

theorem keepsParams_updateConfiguration (c) {f}
    (hf : L (m.configuration c).params.all (f (m.configuration c)).params.all) :
    KeepsParams L m (m.updateConfiguration c f) :=
  { refl_of (KeepsParams L) m with
    size_configurations := Array.size_modify ..
    listed := fun c' => by
      rcases getD_modify_or m.configurations default f c.index c'.index with h | ⟨hc, h⟩
      · rw [configuration, updateConfiguration, configuration, h]
        exact refl_of L _
      · obtain rfl : c = c' := congrArg Ref.mk hc
        rw [configuration, updateConfiguration, configuration, h]
        exact hf }

theorem mem_listParam_self {m : Model} {r}
    (hc : (m.param r).configuration.index < m.configurations.size) :
    r ∈ ((m.listParam r).1.configuration (m.param r).configuration).params.all := by
  unfold listParam updateConfiguration
  dsimp only [configuration]
  rw [getD_modify_self _ _ _ hc]
  exact mem_append_right _ (mem_singleton_self r)

theorem keepsParams_attach (l : Ref .link) (side : LinkSide) :
    KeepsParams L m (m.attach l side) := by
  have hparam : ∀ m r {f},
      (∀ x, (f x).bare = x.bare) → KeepsParams L m (m.updateParam r f) := fun m r f hf =>
    { refl_of (KeepsParams L) m with
      size_params := by simp [updateParam]
      bare := fun r' _ => view_getD_modify _ _ Parameter.bare hf _ _ }
  have hinst : KeepsParams L m (m.updateInstance (m.link l).node fun n => n.addTo side l) :=
    .of_eq rfl rfl
  cases side with
  | reads | writes => exact hinst.trans (hparam _ _ fun _ => rfl)
  | _ => exact hinst.trans (.of_eq rfl rfl)

theorem keepsParams_startInstance (gs) (x : Ref .guards → NodeInstance) :
    KeepsParams L m (m.startInstance gs x).1 := by
  let g := (m.addGuards gs).2
  let made := (m.addGuards gs).1.addInstance (x g)
  let m₁ := made.1.updateNode (x g).node fun n => { n with instances := n.instances ++ [made.2] }
  have hmade : KeepsParams L m m₁ := .of_eq rfl rfl
  exact hmade.trans (m₁.keepsParams_updateConfiguration _ (refl_of L _))

end Model

instance : Making (KeepsParams L) where
  addGuards _ _ := .of_eq rfl rfl
  extendGuards _ _ _ := .of_eq rfl rfl
  guardTopic _ _ _ := .of_eq rfl rfl
  guardService _ _ _ := .of_eq rfl rfl
  addNode _ _ _ := .of_eq rfl rfl
  addManifest m x p :=
    let h := m.samePlan_addManifest x p
    .of_eq h.params h.configurations
  addTopic _ _ := .of_eq rfl rfl
  addService _ _ := .of_eq rfl rfl
  addLink _ _ := .of_eq rfl rfl
  makeParam m x _ := m.keepsParams_makeParam x

instance : TopicSteady (KeepsParams L) where
  listTopic m _ := m.keepsParams_updateConfiguration _ (refl_of L _)
  attachTopic m l side _ := m.keepsParams_attach l side

instance : ServiceSteady (KeepsParams L) where
  listService m _ := m.keepsParams_updateConfiguration _ (refl_of L _)
  attachService m l side _ := m.keepsParams_attach l side

instance : Steady (KeepsParams (· <+: ·)) where
  copyParam m x := m.keepsParams_makeParam x
  listParam m _ := m.keepsParams_updateConfiguration _ (List.prefix_append _ _)
  attachParam m l side _ := m.keepsParams_attach l side

/-! ## Parameters that wait -/

namespace Workbench

/-- No parameter that waits is lost, and the parameters of the model are kept. -/
structure Growing (L : List (Ref .param) → List (Ref .param) → Prop) (w w' : Workbench) : Prop where
  waiting : w.params <+: w'.params
  model : KeepsParams L w.model w'.model

instance : Collects (KeepsParams L) (Growing L) where
  refl w := ⟨List.prefix_rfl, refl_of (KeepsParams L) w.model⟩
  trans _ _ _ h h' := ⟨h.waiting.trans h'.waiting, h.model.trans h'.model⟩
  model _ _ h := ⟨List.prefix_rfl, h⟩
  wait w _ := ⟨List.prefix_append _ _, refl_of (KeepsParams L) w.model⟩

def Waits (w : Workbench) (c : Ref .configuration) (p : Name × Value) : Prop :=
  ∃ r ∈ w.params, r.index < w.model.params.size ∧ (w.model.param r).configuration = c ∧
    (w.model.param r).name = p.1 ∧ (w.model.param r).value = p.2

omit [IsPreorder (List (Ref .param)) L] in
theorem Growing.waits {w w'} (h : Growing L w w') {c p} (hp : w.Waits c p) : w'.Waits c p := by
  obtain ⟨r, hr, hsize, hc, hname, hvalue⟩ := hp
  have hbare := h.model.bare r hsize
  refine ⟨r, h.waiting.subset hr, Nat.lt_of_lt_of_le hsize h.model.size_params, ?_, ?_, ?_⟩
  · exact (congrArg Parameter.configuration hbare).trans hc
  · exact (congrArg Parameter.name hbare).trans hname
  · exact (congrArg Parameter.value hbare).trans hvalue

end Workbench

namespace LaunchScope

variable (s : LaunchScope)

theorem growing_rename (source target : String) :
    Within (Workbench.Growing L) (s.rename source target) := by
  unfold rename
  split
  · refine Within.bind (bounded_touch fun m => ?_).within fun _ => within_pure _
    exact .of_eq rfl rfl
  · exact within_pure _

/-! ## Loading -/

def leafName (pns name : String) : Result Name :=
  if name.toList.head? == some '~' then Name.make name "/roslaunch" "/roslaunch"
  else Name.make name pns pns

/-- The parameters that a named value stands for in a scope, with their full names. -/
def leafParams (m : Model) (name : String) (v : Value) : Result (List (Name × Value)) := do
  (← unfold name v).mapM fun (leaf, value, _) => do pure (← leafName (s.privateSpace m) leaf, value)

/-- The parameters that a document stands for in a scope, with their full names. -/
def documentParams (m : Model) (name ns : Option String) (document : String) :
    Result (List (Name × Value)) := do
  let value ← Yaml.load document
  let pns := s.privateSpace m
  let ns := joinName ((nonEmpty? ns).getD pns) pns
  match nonEmpty? name with
  | some n => s.leafParams m (joinName n ns) value
  | none =>
    match value with
    | .record _ => s.leafParams m ns value
    | _ => throw (.configuration .unnamedValue)

def setLeaf (pns : String) (g : Ref .guards) (s : LaunchScope) (leaf : String × Value × Bool) :
    Job Workbench LaunchScope := do
  let full ← Job.ofResult (leafName pns leaf.1)
  let r ← change fun m => m.makeParam {
    configuration := s.configuration, name := full, value := leaf.2.1, nodeScope := s.node.isSome
    launch := some s.launch, guards := g }
  s.hold false r

variable {s} {pns : String} {g : Ref .guards}

theorem growing_setLeaf (s) (leaf : String × Value × Bool) :
    Within (Workbench.Growing L) (setLeaf pns g s leaf) := by
  refine (within_ofResult _).bind fun full => ?_
  exact Within.bind (within_change fun m => Making.makeParam m ⟨rfl, rfl⟩) fun r =>
    (s.bounded_hold false r).within

theorem exec_setLeaf {leaf full} (h : leafName pns leaf.1 = .ok full) (w : Workbench) : ∃ w',
      (setLeaf pns g s leaf).exec w = (.ok s, w') ∧ w'.Waits s.configuration (full, leaf.2.1) := by
  unfold setLeaf
  rw [h, exec_bind_of_ok (exec_ofResult _ _), exec_bind_of_ok (exec_change _ _)]
  refine ⟨_, rfl, ⟨w.model.params.size⟩, mem_append_right _ (mem_singleton_self _), ?_⟩
  dsimp only [makeParam, addParam, param]
  rw [getD_push_size, Array.size_push]
  exact ⟨Nat.lt_succ_self _, rfl, rfl, rfl⟩

theorem exec_foldlM_setLeaf : ∀ {leaves : List (String × Value × Bool)} {ps : List (Name × Value)},
    (leaves.mapM fun (leaf, value, _) => do pure (← leafName pns leaf, value)) = .ok ps →
    ∀ w, ∃ w', (leaves.foldlM (setLeaf pns g) s).exec w = (.ok s, w') ∧
      ∀ p ∈ ps, w'.Waits s.configuration p
  | [], ps, h, w => by
    cases h
    exact ⟨w, rfl, forall_mem_nil _⟩
  | leaf :: leaves, ps, h, w => by
    obtain ⟨p, ps', hp, hps, rfl⟩ := mapM_cons_ok.mp h
    obtain ⟨full, hfull, hpure⟩ := bind_eq_ok.mp hp
    cases hpure
    obtain ⟨w₁, hw₁, hwaits⟩ := exec_setLeaf (s := s) (g := g) hfull w
    obtain ⟨w', hw', hrest⟩ := exec_foldlM_setLeaf hps w₁
    have hgrown : Workbench.Growing Eq w₁ w' :=
      (chains_within.foldlM (fun s leaf => growing_setLeaf s leaf) leaves s).of_exec hw'
    refine ⟨w', (exec_bind_of_ok hw₁).trans hw', fun q hq => ?_⟩
    rcases mem_cons.mp hq with rfl | hq
    · exact hgrown.waits hwaits
    · exact hrest q hq

variable {ps : List (Name × Value)}

theorem exec_setLeaves {name v w} (h : s.leafParams w.model name v = .ok ps) (guards) :
    ∃ w',
      (s.setLeaves name v guards false).exec w = (.ok s, w') ∧
        ∀ p ∈ ps, w'.Waits s.configuration p := by
  obtain ⟨leaves, hleaves, hps⟩ := bind_eq_ok.mp h
  unfold setLeaves
  simp only [Bool.false_and, Bool.and_false]
  rw [exec_bind_of_ok (exec_get w), hleaves, exec_bind_of_ok (exec_ofResult _ _),
    exec_bind_of_ok (exec_change _ _)]
  exact exec_foldlM_setLeaf hps _

theorem exec_setDocument {name ns document w}
    (h : s.documentParams w.model name ns document = .ok ps) (guard) :
    ∃ w', (s.setDocument name ns document guard).exec w = (.ok s, w') ∧
      ∀ p ∈ ps, w'.Waits s.configuration p := by
  obtain ⟨value, hvalue, h⟩ := bind_eq_ok.mp h
  unfold setDocument
  rw [hvalue]
  dsimp only at h ⊢
  rw [pure_bind, exec_bind_of_ok (exec_get w)]
  cases hname : nonEmpty? name with
  | some n =>
    rw [hname] at h
    dsimp only at h ⊢
    rw [pure_bind]
    exact exec_setLeaves h _
  | none =>
    rw [hname] at h
    dsimp only at h ⊢
    cases value with
    | record es =>
      rw [pure_bind]
      exact exec_setLeaves h _
    | _ => cases h

end LaunchScope

namespace Builder

/-- The same configuration is built on, and no message and no parameter that waits is lost. -/
structure Since (L : List (Ref .param) → List (Ref .param) → Prop) (b b' : Builder) : Prop where
  configuration : b'.configuration = b.configuration
  errors : b.errors <+: b'.errors
  bench : Workbench.Growing L b.bench b'.bench

theorem Since.of_eq {b b'} (hc : b'.configuration = b.configuration)
    (herrors : b'.errors = b.errors) (hbench : b'.bench = b.bench) : Since L b b' :=
  ⟨hc, herrors ▸ prefix_rfl, hbench ▸ refl_of (Workbench.Growing L) b.bench⟩

instance : IsPreorder Builder (Since L) where
  refl _ := .of_eq rfl rfl rfl
  trans _ _ _ h h' := ⟨h'.configuration.trans h.configuration, h.errors.trans h'.errors,
    trans_of (Workbench.Growing L) h.bench h'.bench⟩

omit [IsPreorder (List (Ref .param)) L] in
theorem since_onBench {α : Type} {j : Job Workbench α} (h : Within (Workbench.Growing L) j) :
    Within (Since L) (onBench j) :=
  fun b => ⟨rfl, prefix_rfl, h b.bench⟩

instance : Working (Since L) where
  context _ _ _ := .of_eq rfl rfl rfl
  arguments _ _ := .of_eq rfl rfl rfl
  search _ _ := .of_eq rfl rfl rfl
  foreign _ _ := .of_eq rfl rfl rfl
  swap _ _ := .of_eq rfl rfl rfl
  note b _ := ⟨rfl, List.prefix_append _ _, refl_of (Workbench.Growing L) b.bench⟩
  addManifest b x :=
    ⟨rfl, List.prefix_rfl, List.prefix_rfl, Making.addManifest b.bench.model x none⟩
  addNode b _ h := ⟨rfl, List.prefix_rfl, List.prefix_rfl, Making.addNode b.bench.model h⟩
  setParam s _ _ _ := since_onBench (s.bounded_setParam _ _ _ _).within
  setDocument s _ _ _ := since_onBench (s.within_setDocument _ _ _ _)
  rename s _ _ := since_onBench (s.growing_rename _ _)
  makeNode s _ _ _ _ := by
    refine since_onBench (within_get.bind fun w => (within_ofResult _).bind fun x => ?_)
    exact Within.bind (within_change fun m => m.keepsParams_startInstance _ _) fun r =>
      within_pure _
  linkNode s node := by
    refine within_get.bind fun b => (within_ofResult _).bind fun hints => ?_
    refine (since_onBench (Hints.bounded_link s hints).within).bind fun s' => ?_
    exact within_modify fun b => .of_eq rfl rfl rfl

/-! ## The end of a launch file -/

def listed (b : Builder) : List Parameter :=
  (b.bench.model.configuration b.configuration).params.all.map b.bench.model.param

theorem since_listParam (r) : Within (Since (· <+: ·))
    (onBench (LaunchScope.change fun m => m.listParam r)) :=
  since_onBench (LaunchScope.within_change fun m => Steady.listParam m r)

theorem since_makeLinks (fs : List FutureLink) : Within (Since (· <+: ·))
    (do for f in fs do onBench f.make : Job Builder Unit) := by
  refine Within.bind (chains_within.forIn (fun f hf _ => Within.bind ?_ fun _ => within_pure _) _)
    fun _ => within_pure _
  have hmake : Bounded (Workbench.Growing (· <+: ·)) Fault.Stops f.make :=
    f.bounded_make fun m l => m.keepsParams_attach l f.side
  exact since_onBench hmake.within

theorem since_settleParams : Within (Since (· <+: ·)) settleParams := by
  refine within_get.bind fun b => Within.bind (chains_within.forIn (fun r _ _ => ?_) _) fun _ => ?_
  · exact (since_listParam r).bind fun _ => within_pure _
  · exact within_get.bind fun b => since_makeLinks b.future

theorem mem_listed_of_settleParams {b b' : Builder} {p : Name × Value}
    (hc : b.configuration.index < b.bench.model.configurations.size)
    (h : settleParams.exec b = (.ok (), b')) (hp : b.bench.Waits b.configuration p) :
    ∃ x ∈ b'.listed, x.name = p.1 ∧ x.value = p.2 := by
  obtain ⟨r, hr, hsize, hrc, hname, hvalue⟩ := hp
  -- the parameter is still to be listed, or listed already
  let I (todo : List (Ref .param)) (b₁ : Builder) : Prop := Since (· <+: ·) b b₁ ∧
    (r ∈ todo ∨ r ∈ (b₁.bench.model.configuration b.configuration).params.all)
  have hkeep : ∀ {todo b₁ b₂}, Since (· <+: ·) b₁ b₂ → I todo b₁ → I todo b₂ :=
    fun h hI =>
      ⟨trans_of (Since _) hI.1 h, hI.2.imp_right fun hr => (h.bench.model.listed _).subset hr⟩
  have hsettle : Meets (· = b) (fun _ => I []) (fun _ _ => True) settleParams := by
    refine meets_get fun b₀ hb₀ => ?_
    subst hb₀
    refine ((meets_forIn (I := I) fun q todo _ b₁ hI => ?_).pre ?_).bind
      fun _ => meets_get fun b₁ hb₁ => ?_
    · refine ⟨⟨_, rfl⟩, ?_⟩
      have hstep := since_listParam q b₁
      rcases hI.2 with hmem | hmem
      · rcases mem_cons.mp hmem with rfl | hmem
        · refine ⟨trans_of (Since _) hI.1 hstep, .inr ?_⟩
          have hbare := hI.1.bench.model.bare r hsize
          have hconfiguration : (b₁.bench.model.param r).configuration = b₀.configuration :=
            (congrArg Parameter.configuration hbare).trans hrc
          exact hconfiguration ▸ mem_listParam_self
            (hconfiguration ▸ hI.1.bench.model.size_configurations ▸ hc)
        · exact hkeep hstep ⟨hI.1, .inl hmem⟩
      · exact hkeep hstep ⟨hI.1, .inr hmem⟩
    · rintro _ rfl
      exact ⟨refl_of (Since _) _, .inl hr⟩
    · exact (since_makeLinks b₁.future).meets (returns_true _)
        (fun _ _ _ heq h _ => hkeep h (heq ▸ hb₁)) fun _ _ _ _ _ => trivial
  obtain ⟨hsince, hmem⟩ := hsettle.of_ok rfl h
  refine ⟨b'.bench.model.param r, ?_, ?_⟩
  · exact mem_map_of_mem (hsince.configuration ▸ hmem.resolve_left not_mem_nil)
  · have hbare := hsince.bench.model.bare r hsize
    exact ⟨(congrArg Parameter.name hbare).trans hname,
      (congrArg Parameter.value hbare).trans hvalue⟩

/-- The first place of a launch file. -/
def start (f : Ref .file) (tree : LaunchTree) (b : Builder) : Place where
  nesting := nesting
  tags := tagsOf tree
  scope := { configuration := b.configuration, launch := f }
  builder := (b.enlist f).launching f

theorem keepsParams_start (f tree b) :
    KeepsParams Eq b.bench.model (start f tree b).builder.bench.model :=
  b.bench.model.keepsParams_updateConfiguration _ rfl

section Launch

variable {b : Builder} {f : Ref .file} {tree : LaunchTree}

theorem addLaunch_of_error {q fault b₁} (hlanguage : (b.bench.model.file f).language = "launch")
    (htree : (b.bench.model.file f).tree = some tree) (h : (start f tree b).Leads q)
    (hq : q.run = (.error fault, b₁)) : ∃ b', (addLaunch f).exec b = (.error fault, b') := by
  have hrun : (runLaunch f tree).exec (b.enlist f) = (.error fault, b₁) := by
    unfold runLaunch
    rw [exec_bind_of_ok (exec_modify _ _), exec_bind_of_ok (exec_get _)]
    exact exec_bind_of_error (h.error hq)
  exact ⟨_, exec_addLaunch hlanguage htree hrun⟩

theorem listed_of_addLaunch {q b'} (htree : (b.bench.model.file f).tree = some tree)
    (h : (start f tree b).Leads q) (hc : b.configuration.index < b.bench.model.configurations.size)
    (hdone : (addLaunch f).exec b = (.ok true, b')) :
    q.builder.errors <+: b'.errors ∧ ∀ p, q.builder.bench.Waits b.configuration p →
      ∃ x ∈ b'.listed, x.name = p.1 ∧ x.value = p.2 := by
  rcases exists_of_addLaunch hdone with ⟨hfalse, -⟩ | ⟨-, tree', b₁, htree', hrun, uses, uses', rfl⟩
  · cases hfalse
  obtain rfl : tree' = tree := Option.some.inj (htree'.symm.trans htree)
  obtain ⟨s₂, b₂, hanalyse, hsettle⟩ := exists_of_runLaunch hrun
  have hstart : (start f tree' b).run = (.ok s₂, b₂) := hanalyse
  obtain ⟨s₃, b₃, hq, hlater⟩ := h.ok (S := Since (· <+: ·)) hstart
  have hplace : Since (· <+: ·) q.builder b₂ :=
    trans_of (Since _) ((within_analyse _ _ _).of_exec hq) hlater
  have hwhole : Since (· <+: ·) (start f tree' b).builder b₂ :=
    (within_analyse _ _ _).of_exec hanalyse
  have hconfiguration : b₂.configuration = b.configuration := hwhole.configuration
  refine ⟨hplace.errors.trans (since_settleParams.of_exec hsettle).errors, fun p hp => ?_⟩
  have hc₂ : b₂.configuration.index < b₂.bench.model.configurations.size := by
    rw [hconfiguration, hwhole.bench.model.size_configurations]
    exact (keepsParams_start f tree' b).size_configurations ▸ hc
  have hwaits := hplace.bench.waits hp
  obtain ⟨x, hx, hp⟩ := mem_listed_of_settleParams hc₂ hsettle (hconfiguration ▸ hwaits)
  refine ⟨x, ?_, hp⟩
  have hsame := view_getD_modify b₁.bench.model.configurations default (·.params.all)
    (f := fun k => { k with packageUses := uses, environmentUses := uses' }) (fun _ => rfl)
    b.configuration.index b₁.configuration.index
  unfold listed
  dsimp only [Model.configuration, updateConfiguration]
  rwa [hsame]

end Launch

end Builder

end RosAudit
