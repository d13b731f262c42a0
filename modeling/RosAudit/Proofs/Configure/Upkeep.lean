import RosAudit.Proofs.Configure.Invariant

/-!
# Invariants that speak of the parts of a builder

An invariant often asks something of each part of a builder on its own : of the model with the
configuration that is built, of the parameters that wait to be listed, of the links that are noted
for later, and of the open scopes. `Demands` are such conditions, and `Upkeep` lists what has to be
shown for the steps that touch a part. The rest of the work on a launch file follows
(`Upkeep.invariant`).
-/

namespace RosAudit

open Job Model LaunchScope List

structure Demands where
  listed : Model → Prop
  param : Model → Ref .param → Prop
  future : Model → FutureLink → Prop
  scope : Model → LaunchScope → Prop

variable {D : Demands} {future : List FutureLink} {around : List LaunchScope} {s : LaunchScope}

namespace Demands

/-- What is demanded in `m` still holds in `m'`. -/
structure Kept (D : Demands) (m m' : Model) : Prop where
  listed : D.listed m → D.listed m'
  param : ∀ p, D.param m p → D.param m' p
  future : ∀ f, D.future m f → D.future m' f
  scope : ∀ s, D.scope m s → D.scope m' s

/-- A workbench with open scopes meets the demands, and so do the links `future`. -/
structure OnBench (D : Demands) (future : List FutureLink) (around : List LaunchScope)
    (w : Workbench) : Prop where
  listed : D.listed w.model
  params : ∀ p ∈ w.params, D.param w.model p
  future : ∀ f ∈ future, D.future w.model f
  scopes : ∀ s ∈ around, D.scope w.model s

namespace OnBench

variable {w w' : Workbench}

theorem moved (h : D.OnBench future around w) (hm : D.Kept w.model w'.model)
    (hparams : w'.params = w.params) : D.OnBench future around w' where
  listed := hm.listed h.listed
  params p hp := hm.param p (h.params p (hparams ▸ hp))
  future f hf := hm.future f (h.future f hf)
  scopes s hs := hm.scope s (h.scopes s hs)

theorem push (h : D.OnBench future around w) (hs : D.scope w.model s) :
    D.OnBench future (s :: around) w :=
  { h with scopes := forall_mem_cons.mpr ⟨hs, h.scopes⟩ }

theorem close (h : D.OnBench future (s :: around) w) : D.OnBench future around w :=
  { h with scopes := fun s' hs' => h.scopes s' (mem_cons_of_mem s hs') }

/-- A parameter is held back, or it is set and waits. -/
theorem hold (h : D.OnBench future around w) {r} (hr : D.param w.model r) (s : LaunchScope)
    (later) : D.OnBench future around ((s.hold later r).exec w).2 := by
  unfold LaunchScope.hold
  split
  · exact h
  · refine { h with params := fun p hp => ?_ }
    rcases mem_append.mp hp with hp | hp
    · exact h.params p hp
    · rwa [mem_singleton.mp hp]

end OnBench

end Demands

namespace Builder

/-- A builder of the configuration `c` meets the demands. -/
structure Meeting (D : Demands) (c : Ref .configuration) (around : List LaunchScope) (b : Builder) :
    Prop where
  configuration : b.configuration = c
  bench : D.OnBench b.future around b.bench

/-- The steps of the work on the configuration `c` meet the demands on their parts. -/
structure Upkeep (D : Demands) (c : Ref .configuration) : Prop where
  addManifest : ∀ m x, D.Kept m (m.addManifest x none).1
  addNode : ∀ m n, D.Kept m (m.addNode n).1
  configured : ∀ m c' (f : Configuration → Configuration),
    (∀ k, (f k).nodes = k.nodes ∧ (f k).topics = k.topics ∧ (f k).services = k.services ∧
      (f k).params = k.params) → D.Kept m (m.updateConfiguration c' f)
  core : ∀ {m s s'}, D.scope m s → s'.core = s.core → D.scope m s'
  child : ∀ {m s ns launch inner}, D.scope m s → s.child m ns none launch = .ok inner →
    ∀ m', D.scope m' inner
  root : ∀ m launch, D.scope m { configuration := c, launch }
  setParam : ∀ {future around s} name type text, s ∈ around →
    Within (Keeping (D.OnBench future around)) (s.setParam name type text none)
  setDocument : ∀ {future around s} name ns document, s ∈ around →
    Within (Keeping (D.OnBench future around)) (s.setDocument name ns document none)
  makeNode : ∀ {future around s} node name ns argv, s ∈ around →
    Meets (D.OnBench future around) (fun inner => D.OnBench future (inner :: around))
      (fun _ => D.OnBench future around) (s.makeNode node name ns argv none)
  rename : ∀ {future around m s source target x}, D.scope m s →
    s.fullNames m source target = .ok x →
    Meets (D.OnBench future (s :: around)) (fun s' => D.OnBench future (s' :: around))
      (fun _ => D.OnBench future (s :: around)) (s.rename x.1 x.2)
  link : ∀ {future around s} v, s ∈ around →
    Meets (D.OnBench future around)
      (fun s' w => D.OnBench future around w ∧ ∀ f ∈ s'.future, D.future w.model f)
      (fun _ => D.OnBench future around) (Hints.link s v)
  listParam : ∀ {m p}, D.listed m → D.param m p → D.Kept m (m.listParam p).1
  make : ∀ {future f}, f ∈ future → Within (Keeping (D.OnBench future [])) f.make

variable {c : Ref .configuration} {b : Builder}

namespace Meeting

theorem close (h : Meeting D c (s :: around) b) : Meeting D c around b :=
  ⟨h.configuration, h.bench.close⟩

theorem meets_onBench {α : Type} {inner : α → List LaunchScope} {j : Job Workbench α}
    (hj : ∀ future, Meets (D.OnBench future around) (fun a => D.OnBench future (inner a))
      (fun _ => D.OnBench future around) j) :
    Meets (Meeting D c around) (fun a => Meeting D c (inner a)) (fun _ => Meeting D c around)
      (onBench j) := by
  intro b hb
  have h := hj b.future b.bench hb.bench
  rw [exec_onBench]
  rcases hw : j.exec b.bench with ⟨f | a, w⟩ <;> rw [hw] at h <;> exact ⟨hb.configuration, h⟩

theorem keeping_onBench {α : Type} {j : Job Workbench α}
    (hj : ∀ future, Within (Keeping (D.OnBench future around)) j) :
    Within (Keeping (Meeting D c around)) (onBench j) :=
  fun b hb => ⟨hb.configuration, hj b.future b.bench hb.bench⟩

end Meeting

namespace Upkeep

variable (h : Upkeep D c)
include h

theorem aside (around) : Aside (Keeping (Meeting D c around)) where
  context _ _ _ hb := ⟨hb.configuration, hb.bench⟩
  note _ _ hb := ⟨hb.configuration, hb.bench⟩
  arguments _ _ hb := ⟨hb.configuration, hb.bench⟩
  search _ _ hb := ⟨hb.configuration, hb.bench⟩
  foreign _ _ hb := ⟨hb.configuration, hb.bench⟩
  addManifest _ x hb := ⟨hb.configuration, hb.bench.moved (h.addManifest _ x) rfl⟩
  addNode _ n _ hb := ⟨hb.configuration, hb.bench.moved (h.addNode _ n) rfl⟩

theorem opened {b₁ ns file inner} (h₁ : Meeting D c (s :: around) b₁)
    (hinner : s.child b₁.bench.model ns none file = .ok inner) (hb : Meeting D c (s :: around) b) :
    Meeting D c (inner :: s :: around) b :=
  ⟨hb.configuration, hb.bench.push (h.child (h₁.bench.scopes s mem_cons_self) hinner _)⟩

theorem meets_linkNode (node : Ref .node) :
    Meets (Meeting D c (s :: around)) (fun _ => Meeting D c around) (fun _ => Meeting D c around)
      (linkNode s node) := by
  refine meets_linkNode_of (fun _ hb => hb.close) fun {b v _ _} hb _ => ?_
  refine ((Meets.stop (h.link v mem_cons_self) fun _ _ h => ?_).post fun s' w h => ?_).pre
    fun w hw => hw ▸ hb.bench
  · exact ⟨hb.configuration, h.close⟩
  · obtain ⟨hlinked, hnoted⟩ := h
    refine ⟨hb.configuration, { hlinked.close with future := fun f hf => ?_ }⟩
    exact (mem_append.mp hf).elim (hlinked.future f) (hnoted f)

theorem meets_rename (attrs text) :
    Meets (Meeting D c (s :: around)) (fun s' => Meeting D c (s' :: around))
      (fun _ => Meeting D c (s :: around)) (leafTag .remap text attrs s) := by
  have := h.aside (s :: around)
  have hnames : Yields (Meeting D c (s :: around))
      (fun x => ∃ m source target, D.scope m s ∧ s.fullNames m source target = .ok x)
      (renamingOf attrs s) := by
    refine Yields.after (within_textField _ _ _) fun source => ?_
    refine Yields.after (within_textField _ _ _) fun target b hb => ?_
    exact yields_ofResult (fun x hx => ⟨_, _, _, hb.bench.scopes s mem_cons_self, hx⟩) b hb
  refine Meets.bind hnames fun x b hb => ?_
  obtain ⟨hb, m, source, target, hs, hx⟩ := hb
  exact Meeting.meets_onBench (fun _ => h.rename hs hx) b hb

theorem meets_leafTag (k text attrs) :
    Meets (Meeting D c (s :: around)) (fun s' => Meeting D c (s' :: around))
      (fun _ => Meeting D c (s :: around)) (leafTag k text attrs s) := by
  have := h.aside (s :: around)
  have hs : s ∈ s :: around := mem_cons_self
  refine meets_leafTag_of (I := fun s => Meeting D c (s :: around)) (fun hcore hb => ?_)
    (h.meets_rename attrs text) fun hk => ?_
  · exact ⟨hb.configuration, hb.bench.close.push (h.core (hb.bench.scopes s hs) hcore)⟩
  · exact within_leafTag_of hk text attrs
      (fun name type text => Meeting.keeping_onBench fun _ => h.setParam name type text hs)
      fun name ns document => Meeting.keeping_onBench fun _ => h.setDocument name ns document hs

/-- The parameters that a launch file has set are listed, and those that were noted are linked. -/
theorem keeping_settleParams : Within (Keeping (Meeting D c [])) settleParams := by
  refine keeping_settleParams_of (P := D.param) (fun _ hb => hb.bench.params) ?_ ?_
  · intro b p hb hp
    have hkept := h.listParam hb.bench.listed hp
    exact ⟨⟨hb.configuration, hb.bench.moved hkept rfl⟩, hkept.param⟩
  · exact fun b f hb hf => ⟨hb.configuration, h.make hf b.bench hb.bench⟩

theorem invariant : Invariant (Meeting D c) where
  close hb := hb.close
  errors _ hb := ⟨hb.configuration, hb.bench⟩
  context _ hb := ⟨hb.configuration, hb.bench⟩
  openGroup attrs s around := by
    have := h.aside (s :: around)
    exact meets_opening (within_openGroup attrs s) opened_group h.opened
  openInclusion attrs children s around := by
    have := h.aside (s :: around)
    exact meets_opening (within_openInclusion attrs children s) opened_inclusion h.opened
  startNode attrs s around := by
    have := h.aside (s :: around)
    exact meets_startNode_of (fun _ _ hb => hb) (fun _ _ hb => hb.close) fun node name ns argv =>
      Meeting.meets_onBench fun _ => h.makeNode node name ns argv mem_cons_self
  linkNode _ _ node := h.meets_linkNode node
  leafTag k text attrs _ _ := h.meets_leafTag k text attrs
  enlist _ hb := ⟨hb.configuration,
    hb.bench.moved (h.configured _ _ _ fun _ => ⟨rfl, rfl, rfl, rfl⟩) rfl⟩
  launching {b} f hb := by
    have hbench : D.OnBench b.future [] (b.launching f).bench :=
      ⟨hb.bench.listed, forall_mem_nil _, hb.bench.future, forall_mem_nil _⟩
    exact ⟨hb.configuration, hbench.push (hb.configuration ▸ h.root _ f)⟩
  settleParams := h.keeping_settleParams
  uses _ _ _ hb := ⟨hb.configuration,
    hb.bench.moved (h.configured _ _ _ fun _ => ⟨rfl, rfl, rfl, rfl⟩) rfl⟩

end Upkeep

/-- The states that a builder can be in. It begins with a new configuration in any model, and each
launch file may be used, be refused or stop halfway. -/
inductive Reachable : Builder → Prop
  | start (m : Model) (name : String) (environment : Table String String) (files : FileTree)
    (catalogue : Catalogue) (search : PackageSearch) (specs hints : Value) (context :
      SubstContext) :
    Reachable
      { files, bench := { model := (m.addConfiguration { name, environment }).1 }
        configuration := (m.addConfiguration { name, environment }).2
        catalogue, search, specs, hints, context }
  | launch {b : Builder} (f : Ref .file) (h : Reachable b) : Reachable ((addLaunch f).exec b).2

theorem meeting_of_reachable {D : Ref .configuration → Demands} (h : ∀ c, Upkeep (D c) c)
    (hstart : ∀ {m : Model} {c name environment}, c.index < m.configurations.size →
      m.configuration c = { name, environment } → (D c).listed m) (hb : Reachable b) :
    Meeting (D b.configuration) b.configuration [] b := by
  induction hb with
  | start m name environment =>
    have hlisted := hstart (m := (m.addConfiguration { name, environment }).1)
      (c := (m.addConfiguration { name, environment }).2) (by simp [addConfiguration])
      (getD_push_size _ _ _)
    exact ⟨rfl, hlisted, forall_mem_nil _, forall_mem_nil _, forall_mem_nil _⟩
  | @launch b f _ ih =>
    have hnext := (h b.configuration).invariant.addLaunch f b ih
    rwa [← hnext.configuration] at hnext

end Builder

end RosAudit
