import RosAudit.Configure.Links
import RosAudit.Proofs.Job
import RosAudit.Proofs.Model.Quiet

/-!
# What the work in a scope changes

Nearly all that is done in a launch scope makes guards, parameters and links, whether it succeeds or
stops. `Making R` says that a relation between models holds along each such change, and `within_*`
that a job moves the model along every such relation, and its state along every relation that
follows the model (`Workbench.Follows`) and the parameters that were set (`Workbench.Collects`).
What stays the same while parameters are set is then an instance of `Making`, and the jobs need not
be looked at again. `Steady R` holds as well when parameters are listed and linked, which is done
after the tags of a file. `Drift R` says that a relation holds along every quiet change, so it is
steady.

Three things are more than steady :

* starting a node, which stops before anything was changed or lists one new node instance without
links (`exec_makeNode`, `Started`);
* opening a scope inside another, which takes over the renamings in force (`inside_child`,
`Inside`);
* what a parameter does to its scope, which is the same afterwards up to the parameters that wait
for a node (`LaunchScope.core`, `returns_setParam`, `returns_setDocument`). Tags may also change its
renamings (`LaunchScope.frame`).
-/

/-! ## Names, patterns and hints -/

namespace RosAudit

open Job LaunchScope

/-- A fault that makes a tag unusable and is noted, so that the rest of the file still counts. -/
def Fault.isNoted : Fault → Bool
  | .substitution _ => true
  | .configuration _ => true
  | _ => false

abbrev Fault.Stops (f : Fault) : Prop := f.isNoted = false

/-! ## Names and patterns -/

theorem Name.fails_resolve (name ns privateNs : String) :
    Fails Fault.Stops (Name.resolve name ns privateNs) := by
  unfold Name.resolve
  split
  · exact fails_throw rfl
  all_goals exact fails_pure _

theorem Name.fails_make (name ns privateNs : String) (remaps : Remaps) :
    Fails Fault.Stops (Name.make name ns privateNs remaps) :=
  ((fails_resolve name ns privateNs).bind fun _ => fails_pure _).bind fun _ => fails_pure _

theorem Name.fails_patternFrom (lit prev cs) :
    Fails Fault.Stops (Name.patternFrom lit prev cs) := by
  fun_induction Name.patternFrom lit prev cs with
  | case1 => exact fails_pure _
  | case2 => exact fails_throw rfl
  | case3 => exact fails_pure _
  | case4 _ _ _ _ _ ih | case5 _ _ _ _ _ _ _ ih | case6 _ _ _ _ _ ih =>
    exact ih.bind fun _ => fails_pure _
  | case7 _ _ _ _ _ ih => exact ih

theorem Name.fails_pattern (n : Name) : Fails Fault.Stops n.pattern := by
  unfold Name.pattern
  split
  · exact fails_throw rfl
  · exact fails_pure _
  all_goals exact (fails_patternFrom _ _ _).bind fun _ => fails_pure _

namespace Pattern

theorem fails_withRepetition (p : Pattern) (cs : List Char) :
    Fails Fault.Stops (withRepetition p cs) := by
  unfold withRepetition
  split
  · exact fails_pure _
  · refine of_ite (fails_throw rfl) (of_ite (fails_throw rfl) ?_)
    exact of_ite (fails_throw rfl) (fails_pure _)

mutual

theorem fails_alternatives : ∀ fuel cs,
    Fails Fault.Stops (alternatives fuel cs)
  | 0, _ => fails_throw rfl
  | fuel + 1, cs => by
    refine (fails_sequence fuel cs).bind fun x => ?_
    dsimp only
    split
    · exact (fails_alternatives fuel _).bind fun _ => fails_pure _
    · exact fails_pure _

theorem fails_sequence : ∀ fuel cs, Fails Fault.Stops (sequence fuel cs)
  | 0, _ => fails_throw rfl
  | fuel + 1, cs => by
    unfold sequence
    split
    · exact fails_pure _
    · exact fails_pure _
    · exact fails_pure _
    · refine (fails_item fuel cs).bind fun x => (fails_withRepetition x.1 x.2).bind fun y => ?_
      exact (fails_sequence fuel y.2).bind fun _ => fails_pure _

theorem fails_item : ∀ fuel cs, Fails Fault.Stops (item fuel cs)
  | 0, _ => fails_throw rfl
  | fuel + 1, cs => by
    unfold item
    split
    · exact fails_throw rfl
    · refine (fails_alternatives fuel _).bind fun x => ?_
      dsimp only
      split
      · exact fails_pure _
      · exact fails_throw rfl
    all_goals first
      | exact fails_pure _
      | exact fails_throw rfl
      | split <;> first
        | exact fails_pure _
        | exact fails_throw rfl

end

theorem fails_parse (text : String) : Fails Fault.Stops (parse text) := by
  refine (fails_alternatives _ _).bind fun x => ?_
  exact of_ite (fails_pure _) (fails_throw rfl)

end Pattern

/-! ## Hints -/

theorem fails_namedTarget (name) : Fails Fault.Stops (namedTarget name) := by
  unfold namedTarget
  split
  · exact fails_pure _
  · exact fails_throw rfl

namespace Hints

theorem fails_sectionOf (hints : Value) (key : String) :
    Fails Fault.Stops (sectionOf hints key) := by
  unfold sectionOf
  split
  · split <;> first
      | exact fails_pure _
      | exact fails_throw rfl
  · exact fails_throw rfl

theorem fails_mergeSection (key : String) (a b : Value) :
    Fails Fault.Stops (mergeSection key a b) := by
  unfold mergeSection
  extract_lets part
  have hpart : ∀ v, Fails Fault.Stops (part v) := by
    intro v
    unfold part
    split
    · split <;> first
        | exact fails_pure _
        | exact fails_throw rfl
    · exact fails_throw rfl
  exact (hpart a).bind fun first => (hpart b).bind fun second => fails_pure _

theorem fails_merge (specs hints : Value) (node inst : String) :
    Fails Fault.Stops (merge specs hints node inst) := by
  refine of_ite (fails_pure _) (of_ite (fails_pure _) ?_)
  refine (chains_fails.mapM fun key _ => ?_).bind fun merged => fails_pure _
  exact (fails_mergeSection key _ _).bind fun es => fails_pure _

end Hints

/-! ## Scopes -/

theorem fails_settleService (r m) : Fails Fault.Stops (settleService r m) := by
  unfold settleService
  dsimp only
  split
  · exact fails_throw rfl
  all_goals exact fails_pure _

theorem fails_unfoldAll (stack) : Fails Fault.Stops (unfoldAll stack) := by
  fun_induction unfoldAll stack with
  | case1 => exact fails_pure _
  | case2 _ _ _ _ ih => exact ih
  | case3 _ _ _ _ _ ih => exact ih.bind fun rest => fails_pure _
  | case4 => exact fails_throw rfl

namespace LaunchScope

variable (s : LaunchScope)

theorem fails_resolveSpace (m ns) : Fails Fault.Stops (s.resolveSpace m ns) := by
  unfold resolveSpace
  split
  · exact fails_pure _
  · exact fails_pure _
  · exact Name.fails_resolve _ _ _

theorem fails_namespaceOf (m ns) (hidden : Bool) :
    Fails Fault.Stops (s.namespaceOf m ns hidden) := by
  unfold namespaceOf
  split
  · exact fails_pure _
  · exact of_ite (Name.fails_resolve _ _ _) (Name.fails_resolve _ _ _)

theorem fails_handOver : Fails Fault.Stops s.handOver :=
  of_ite (fails_pure _) (fails_throw rfl)

end LaunchScope

open Model

/-- A relation that holds when guards are gathered for a topic or a service. -/
class Guarding (R : Model → Model → Prop) : Prop extends IsPreorder Model R where
  addGuards (m : Model) (gs : List Guard) : R m (m.addGuards gs).1
  extendGuards (m : Model) (r : Ref .guards) (gs : List Guard) : R m (m.extendGuards r gs)
  guardTopic (m : Model) (r : Ref .topic) (g : Ref .guards) :
    R m (m.updateTopic r fun t => { t with guards := g })
  guardService (m : Model) (r : Ref .service) (g : Ref .guards) :
    R m (m.updateService r fun s => { s with guards := g })

def Node.IsBare (x : Node) : Prop := ∀ k, x.calls k = []

def Parameter.IsUnused (x : Parameter) : Prop := x.reads = [] ∧ x.writes = []

/-- A relation that holds whenever something is made. -/
class Making (R : Model → Model → Prop) : Prop extends Guarding R where
  addNode (m : Model) {x : Node} (h : x.IsBare) : R m (m.addNode x).1
  addManifest (m : Model) (x : Manifest) (p : Option (Ref .project)) : R m (m.addManifest x p).1
  addTopic (m : Model) (x : Topic) : R m (m.addTopic x).1
  addService (m : Model) (x : Service) : R m (m.addService x).1
  addLink (m : Model) (x : Link) : R m (m.addLink x).1
  makeParam (m : Model) {x : Parameter} (h : x.IsUnused) : R m (m.makeParam x).1

/-- A relation that also holds when parameters are copied, listed and linked. -/
class Steady (R : Model → Model → Prop) : Prop extends Making R where
  copyParam (m : Model) (x : Parameter) : R m (m.makeParam x).1
  listParam (m : Model) (r : Ref .param) : R m (m.listParam r).1
  attachParam (m : Model) (l : Ref .link) {side : LinkSide} (h : side.isParam = true) :
    R m (m.attach l side)

/-- A relation between models that holds along every quiet change. -/
class Drift (R : Model → Model → Prop) : Prop extends IsPreorder Model R where
  of_quiet {m m' : Model} : Quiet m m' → R m m'

instance : Drift Quiet where
  of_quiet h := h

instance {R : Model → Model → Prop} [Drift R] : Steady R where
  addGuards m gs := Drift.of_quiet (m.quiet_addGuards gs)
  extendGuards _ _ _ := Drift.of_quiet (.of_eq rfl rfl rfl rfl)
  guardTopic m r _ := Drift.of_quiet (m.quiet_updateTopic r fun _ => rfl)
  guardService m r _ := Drift.of_quiet (m.quiet_updateService r _)
  addNode m x _ := Drift.of_quiet (m.quiet_addNode x)
  addManifest m x p := Drift.of_quiet (m.quiet_addManifest x p)
  addTopic m x := Drift.of_quiet (m.quiet_addTopic x)
  addService _ _ := Drift.of_quiet (.of_eq rfl rfl rfl rfl)
  addLink m x := Drift.of_quiet (m.quiet_addLink x)
  makeParam _ _ _ := Drift.of_quiet (.of_eq rfl rfl rfl rfl)
  copyParam _ _ := Drift.of_quiet (.of_eq rfl rfl rfl rfl)
  listParam m r := Drift.of_quiet (m.quiet_listParam r)
  attachParam m l _ h := Drift.of_quiet (m.quiet_attach l (LinkSide.of_isParam h).1)

def Workbench.Along (R : Model → Model → Prop) (w w' : Workbench) : Prop := R w.model w'.model

instance {R : Model → Model → Prop} [IsPreorder Model R] :
    IsPreorder Workbench (Workbench.Along R) where
  refl w := refl_of R w.model
  trans _ _ _ := trans_of R

/-- A relation between states that holds when the model moves along `R`. -/
class Workbench.Follows (R : outParam (Model → Model → Prop)) (T : Workbench → Workbench → Prop) :
    Prop extends IsPreorder Workbench T where
  model (w : Workbench) {m : Model} (h : R w.model m) : T w { w with model := m }

/-- A relation between states that also holds when a parameter is put to those that were set. -/
class Workbench.Collects (R : outParam (Model → Model → Prop)) (T : Workbench → Workbench → Prop) :
    Prop extends Workbench.Follows R T where
  wait (w : Workbench) (r : Ref .param) : T w { w with params := w.params ++ [r] }

instance {R : Model → Model → Prop} [IsPreorder Model R] :
    Workbench.Collects R (Workbench.Along R) where
  model _ _ h := h
  wait w _ := refl_of R w.model

variable {R : Model → Model → Prop} {T : Workbench → Workbench → Prop}

namespace LaunchScope

variable {α : Type}

@[simp] theorem exec_change (f : Model → Model × α) (w : Workbench) :
    (change f).exec w = (.ok (f w.model).2, { w with model := (f w.model).1 }) :=
  rfl

@[simp] theorem exec_touch (f : Model → Model) (w : Workbench) :
    (touch f).exec w = (.ok (), { w with model := f w.model }) :=
  rfl

theorem within_change [Workbench.Follows R T] {f : Model → Model × α}
    (h : ∀ m, R m (f m).1) : Within T (change f) :=
  fun w => Workbench.Follows.model w (h w.model)

theorem meets_change {α β : Type} {f : Model → Model × α} {g : α → Job Workbench β}
    {P : Workbench → Prop} {Q : β → Workbench → Prop} {E : Fault → Workbench → Prop}
    (h : ∀ w, P w → Meets (· = { w with model := (f w.model).1 }) Q E (g (f w.model).2)) :
    Meets P Q E (change f >>= g) :=
  fun w hw => h w hw _ rfl

theorem throws_change {E} (f : Model → Model × α) : Throws E (change f) := by
  intro w e w' h
  cases h

theorem bounded_change [Workbench.Follows R T] {f : Model → Model × α}
    (h : ∀ m, R m (f m).1) : Bounded T Fault.Stops (change f) :=
  ⟨within_change h, throws_change f⟩

theorem bounded_touch [Workbench.Follows R T] {f} (h : ∀ m, R m (f m)) :
    Bounded T Fault.Stops (touch f) :=
  bounded_modify fun w => Workbench.Follows.model w (h w.model)

variable (s : LaunchScope)

/-! ## Setting parameters -/

theorem bounded_hold [Workbench.Collects R T] (later r) : Bounded T Fault.Stops (s.hold later r) :=
  of_ite (bounded_pure _)
    (Bounded.bind (bounded_modify fun w => Workbench.Collects.wait w r) fun _ => bounded_pure s)

variable (name : String)

theorem bounded_setLeaves [Making R] [Workbench.Collects R T] (v guards mayHold) :
    Bounded T Fault.Stops (s.setLeaves name v guards mayHold) := by
  refine bounded_get.bind fun w => (bounded_ofResult (fails_unfoldAll _)).bind fun leaves => ?_
  refine Bounded.bind (bounded_change fun m => Guarding.addGuards m guards) fun g => ?_
  refine chains_bounded.foldlM (fun s leaf => ?_) leaves s
  refine (bounded_ofResult (of_ite ?_ ?_)).bind fun full => ?_
  · exact Name.fails_make _ _ _ _
  · exact Name.fails_make _ _ _ _
  · exact Bounded.bind (bounded_change fun m => Making.makeParam m ⟨rfl, rfl⟩) fun r =>
      s.bounded_hold _ r

theorem bounded_setParam [Making R] [Workbench.Collects R T] (type text guard) :
    Bounded T Fault.Stops (s.setParam name type text guard) := by
  unfold setParam
  extract_lets converted
  rcases converted with u | ⟨value, type⟩
  · exact bounded_pure _
  · refine of_ite ((s.bounded_setLeaves _ _ _ _).bind fun s => bounded_pure _) ?_
    refine bounded_get.bind fun w =>
      (bounded_ofResult (Name.fails_make _ _ _ _)).bind fun full => ?_
    refine Bounded.bind (bounded_change fun m => Guarding.addGuards m _) fun g => ?_
    refine Bounded.bind (bounded_change fun m => Making.makeParam m ⟨rfl, rfl⟩) fun r => ?_
    exact (s.bounded_hold _ r).bind fun s => bounded_pure _

/-- A document is refused before anything was changed, or its leaves are set. -/
theorem exec_setDocument_or (name ns document guard w) :
    (∃ f, (s.setDocument name ns document guard).exec w = (.error f, w)) ∨
      ∃ name' v, (s.setDocument name ns document guard).exec w =
        (s.setLeaves name' v (s.guarded guard) false).exec w := by
  unfold setDocument
  cases Yaml.load document with
  | error f =>
    cases f with
    | yaml stage => cases stage <;> exact .inl ⟨_, rfl⟩
    | _ => exact .inl ⟨_, rfl⟩
  | ok v =>
    dsimp only
    rw [pure_bind, exec_bind_of_ok (exec_get w)]
    cases nonEmpty? name with
    | some n => exact .inr ⟨_, v, rfl⟩
    | none =>
      cases v with
      | record es => exact .inr ⟨_, .record es, rfl⟩
      | _ => exact .inl ⟨_, rfl⟩

variable {S : Workbench → Workbench → Prop}

theorem within_setDocument_of [IsPreorder Workbench S] {guard}
    (hset : ∀ name v, Within S (s.setLeaves name v (s.guarded guard) false)) (name ns document) :
    Within S (s.setDocument name ns document guard) := by
  intro w
  rcases s.exec_setDocument_or name ns document guard w with ⟨f, h⟩ | ⟨name', v, h⟩ <;> rw [h]
  · exact refl_of S w
  · exact hset name' v w

theorem within_setDocument [Making R] [Workbench.Collects R T] (name ns document guard) :
    Within T (s.setDocument name ns document guard) :=
  s.within_setDocument_of (fun _ _ => (s.bounded_setLeaves _ _ _ _).within) name ns document

theorem within_deleteParam [IsPreorder Workbench S] (ns guard) :
    Within S (s.deleteParam name ns guard) := by
  refine within_get.bind fun w => (within_ofResult _).bind fun full => ?_
  have hlast : Within S
      (if (s.guarded guard).isEmpty then throw .noField else pure () : Job Workbench Unit) :=
    of_ite (within_throw _) (within_pure _)
  exact of_ite ((within_throw _).bind fun _ => hlast) hlast

/-! ## The scope afterwards -/

/-- A scope without the parameters that wait in it. -/
def core (s : LaunchScope) : LaunchScope := { s with held := [] }

/-- A scope without all that the tags in it may change : the parameters that wait in it, and its
renamings. -/
def frame (s : LaunchScope) : LaunchScope := { s with held := [], remaps := Table.empty }

variable (s : LaunchScope) {s inner : LaunchScope}

theorem returns_hold (later r) : Returns (fun s' => s'.core = s.core) (s.hold later r) :=
  of_ite (returns_pure rfl) (Returns.after fun _ => returns_pure rfl)

theorem returns_setLeaves (v guards mayHold) :
    Returns (fun s' => s'.core = s.core) (s.setLeaves name v guards mayHold) := by
  refine Returns.after fun w => Returns.after fun leaves => Returns.after fun g => ?_
  refine returns_foldlM (fun s' leaf hs' => ?_) leaves rfl
  refine Returns.after fun full => Returns.after fun r => ?_
  rw [← hs']
  exact s'.returns_hold _ r

theorem returns_setParam (type text guard) :
    Returns (fun r => ∀ s', r = .ok s' → s'.core = s.core) (s.setParam name type text guard) := by
  unfold setParam
  extract_lets converted
  rcases converted with u | ⟨value, type⟩
  · exact returns_pure fun s' h => by cases h
  · refine of_ite ?_ ?_
    · refine returns_bind (s.returns_setLeaves _ _ _ _) fun s₁ h₁ => returns_pure fun s' h => ?_
      cases h
      exact h₁
    · refine Returns.after fun w => Returns.after fun full => Returns.after fun g => ?_
      refine Returns.after fun r => ?_
      refine returns_bind (s.returns_hold _ r) fun s₁ h₁ => returns_pure fun s' h => ?_
      cases h
      exact h₁

theorem returns_setDocument (name ns document guard) :
    Returns (fun s' => s'.core = s.core) (s.setDocument name ns document guard) := by
  intro w s' w' hs'
  rcases s.exec_setDocument_or name ns document guard w with ⟨f, h⟩ | ⟨name', v,
    h⟩ <;> rw [h] at hs'
  · cases hs'
  · exact s.returns_setLeaves name' v _ _ w s' w' hs'

/-! ## Starting a node -/

/-- A node was started in a scope: its instance is new and listed, and `inner` is its scope. -/
structure Started (s : LaunchScope) (m : Model) (inner : LaunchScope) (m' : Model) : Prop where
  node : inner.node = some ⟨m.instances.size⟩
  configuration : inner.configuration = s.configuration
  future : inner.future = []
  size_instances : m'.instances.size = m.instances.size + 1
  inst : ∀ r : Ref .inst, r.index < m.instances.size → m'.inst r = m.inst r
  fresh : ∃ x : NodeInstance, m'.inst ⟨m.instances.size⟩ = x ∧ x.configuration = s.configuration ∧
    x.remaps = s.remapsIn m ∧ ∀ side, x.side side = []
  topics : m'.topics = m.topics
  services : m'.services = m.services
  links : m'.links = m.links
  params : m'.params = m.params
  calls : ∀ n k, (m'.node n).calls k = (m.node n).calls k
  listed : ∃ nodes : Collection .inst,
    nodes.all = (m.configuration s.configuration).nodes.all ++ [⟨m.instances.size⟩] ∧
    m'.configurations = m.configurations.modify s.configuration.index fun k =>
      { k with nodes := nodes }

theorem started_startInstance {m} (gs) {x} (hnode : inner.node = some ⟨m.instances.size⟩)
    (hinner : inner.configuration = s.configuration) (hfuture : inner.future = [])
    (hx : ∀ g, (x g).configuration = s.configuration ∧ (x g).remaps = s.remapsIn m ∧
      ∀ side, (x g).side side = []) :
    Started s m inner (m.startInstance gs x).1 where
  node := hnode
  configuration := hinner
  future := hfuture
  size_instances := Array.size_push _
  inst _ hr := getD_push_of_lt _ _ _ hr
  fresh := ⟨_, getD_push_size _ _ _, hx _⟩
  topics := rfl
  services := rfl
  links := rfl
  params := rfl
  calls n k := view_getD_modify _ _ (Node.calls · k) (fun x => by cases k <;> rfl) _ _
  listed := by
    have h := m.configurations_startInstance gs x
    rwa [(hx _).1] at h

theorem exec_makeNode (s node name ns argv guard w) :
    (∃ f, (s.makeNode node name ns argv guard).exec w = (.error f, w)) ∨
    ∃ inner w', (s.makeNode node name ns argv guard).exec w = (.ok inner, w') ∧
      Started s w.model inner w'.model := by
  unfold makeNode
  simp only [exec_bind, exec_get]
  cases s.nodeName w.model node name ns with
  | error f => exact .inl ⟨f, rfl⟩
  | ok e =>
    simp only [exec_change]
    refine .inr ⟨_, _, rfl, ?_⟩
    dsimp only
    refine started_startInstance (s.guarded guard) rfl rfl rfl fun g => ?_
    exact ⟨rfl, rfl, fun side => by cases side <;> rfl⟩

/-! ## Scopes inside a scope -/

/-- `inner` is a scope inside `s` that belongs to no node and takes over the renamings in force. -/
structure Inside (s : LaunchScope) (m : Model) (inner : LaunchScope) : Prop where
  node : inner.node = none
  remaps : inner.remaps = s.remapsIn m
  configuration : inner.configuration = s.configuration
  future : inner.future = []

theorem inside_child {m ns guard launch} (h : s.child m ns guard launch = .ok inner) :
    Inside s m inner := by
  unfold child at h
  cases hs : s.namespaceOf m ns with
  | error f =>
    rw [hs] at h
    cases h
  | ok space =>
    rw [hs] at h
    cases h
    exact ⟨rfl, rfl, rfl, rfl⟩

theorem remapsIn_quiet (s : LaunchScope) {m m'} (h : Quiet m m') :
    s.remapsIn m' = s.remapsIn m := by
  unfold remapsIn
  split
  · exact h.remaps_inst _
  · rfl

end LaunchScope

end RosAudit
