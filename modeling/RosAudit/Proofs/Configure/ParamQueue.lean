import RosAudit.Proofs.Configure.Invariant
import RosAudit.Proofs.Configure.Linker
import RosAudit.Proofs.Model.ParamLinks

/-!
# The queue of parameters

The parameters that a node uses are linked when the whole launch file is known. Until then they wait
in a queue (`Builder.future`), to which a node adds its calls once it has been linked to the rest.
While the tags of a file are worked through no parameter comes into use, nodes are started and left
again, and tags are given up halfway.

`Underway b₀` says what holds all the way from the state `b₀` : the nodes that are open have no
entries yet, and every other new one has an entry for each of its calls.
-/

namespace RosAudit

open Job Model LaunchScope List

/-! ## Changes that use no parameter -/

/-- No parameter came into use and no node was started. -/
structure Model.Resting (m m' : Model) : Prop extends SameUses m m' where
  size_eq : m'.instances.size = m.instances.size
  size_configurations : m'.configurations.size = m.configurations.size

variable {m m' : Model}

theorem Model.SameUses.resting (h : SameUses m m') (hq : Quiet m m') : Resting m m' :=
  ⟨h, hq.size_instances, hq.size_configurations⟩

instance : Making Resting where
  refl m := ⟨.refl m, rfl, rfl⟩
  trans _ _ _ h h' := ⟨h.toSameUses.trans h'.toSameUses, h'.size_eq.trans h.size_eq,
    h'.size_configurations.trans h.size_configurations⟩
  addGuards _ _ := ⟨.of_eq rfl rfl rfl rfl rfl, rfl, rfl⟩
  extendGuards _ _ _ := ⟨.of_eq rfl rfl rfl rfl rfl, rfl, rfl⟩
  guardTopic _ _ _ := ⟨.of_eq rfl rfl rfl rfl rfl, rfl, rfl⟩
  guardService _ _ _ := ⟨.of_eq rfl rfl rfl rfl rfl, rfl, rfl⟩
  addNode m _ h := ⟨m.sameUses_addNode h, rfl, rfl⟩
  addManifest m x p := (m.sameUses_addManifest x p).resting (m.quiet_addManifest x p)
  addTopic _ _ := ⟨.of_eq rfl rfl rfl rfl rfl, rfl, rfl⟩
  addService _ _ := ⟨.of_eq rfl rfl rfl rfl rfl, rfl, rfl⟩
  addLink m x := ⟨m.sameUses_addLink x, rfl, rfl⟩
  makeParam m _ h := ⟨m.sameUses_makeParam h, rfl, rfl⟩

instance : TopicSteady Resting where
  listTopic m _ :=
    ⟨m.sameUses_updateConfiguration _ (List.Subset.refl _), rfl, Array.size_modify ..⟩
  attachTopic m l side h := ⟨m.sameUses_attach l (LinkSide.of_isTopic h).2,
    m.size_instances_attach l side, m.size_configurations_attach l side⟩

instance : ServiceSteady Resting where
  listService m _ :=
    ⟨m.sameUses_updateConfiguration _ (List.Subset.refl _), rfl, Array.size_modify ..⟩
  attachService m l side h := ⟨m.sameUses_attach l (LinkSide.of_isService h).2,
    m.size_instances_attach l side, m.size_configurations_attach l side⟩

variable {s inner s' : LaunchScope}

theorem LaunchScope.Started.sameUses (h : Started s m inner m') : SameUses m m' where
  size_instances := by
    rw [h.size_instances]
    exact Nat.le_succ _
  node r hr := by rw [h.inst r hr]
  configuration r hr := by rw [h.inst r hr]
  side_inst r side _ := by
    rcases Nat.lt_trichotomy r.index m.instances.size with hr | hr | hr
    · rw [h.inst r hr]
    · obtain ⟨x, hx, -, -, hnone⟩ := h.fresh
      obtain rfl : r = ⟨m.instances.size⟩ := congrArg Ref.mk hr
      rw [hx, hnone, side_inst_of_le (Nat.le_of_eq hr.symm)]
    · have hout : m'.instances.size ≤ r.index := by
        rwa [h.size_instances]
      rw [side_inst_of_le hout, side_inst_of_le (Nat.le_of_lt hr)]
  side_param p _ := by rw [param, h.params, param]
  calls n side := Node.paramCalls_congr (h.calls n) side
  size_links := Nat.le_of_eq (congrArg Array.size h.links.symm)
  link l _ := by rw [Model.link, h.links, Model.link]
  params c := by
    obtain ⟨nodes, -, hlisted⟩ := h.listed
    have hsame : (m'.configuration c).params = (m.configuration c).params := by
      rw [Model.configuration, hlisted]
      refine view_getD_modify _ _ Configuration.params (fun k => ?_) _ _
      rfl
    rw [hsame]
    exact List.Subset.refl _

/-! ## Entries -/

/-- An entry of the queue that stands for a call of the node instance `r`. -/
structure FutureLink.Notes (f : FutureLink) (r : Ref .inst) (side : LinkSide) (call : Call) : Prop
    where
  node : f.node = r
  side : f.side = side
  name : f.name = call.name
  type : f.type = call.type
  guards : f.guards = call.guards
  location : f.location = call.location
  hints : f.hints = []

/-- Entries that stand for calls of the node instance `r`, in order. -/
abbrev NotedBy (r : Ref .inst) (side : LinkSide) : List Call → List FutureLink → Prop :=
  List.Forall₂ fun call f => f.Notes r side call

def notesFor (r : Ref .inst) (side : LinkSide) (fs : List FutureLink) : List FutureLink :=
  fs.filter fun f => f.node = r ∧ f.side = side

theorem notesFor_append (r side fs fs') :
    notesFor r side (fs ++ fs') = notesFor r side fs ++ notesFor r side fs' :=
  filter_append ..

variable {r : Ref .inst} {fs : List FutureLink} {side : LinkSide}

theorem notesFor_eq_nil (h : ∀ f ∈ fs, f.node = r → f.side ≠ side) : notesFor r side fs = [] := by
  rw [notesFor, filter_eq_nil_iff]
  intro f hf
  simpa using h f hf

theorem mem_of_notes {calls} (h : NotedBy r side calls fs) {f} (hf : f ∈ fs) :
    f.node = r ∧ f.side = side ∧ f.hints = [] := by
  obtain ⟨call, hnotes⟩ := exists_of_forall₂ h f hf
  exact ⟨hnotes.node, hnotes.side, hnotes.hints⟩

theorem notesFor_of_notes {calls} (h : NotedBy r side calls fs) : notesFor r side fs = fs := by
  rw [notesFor, filter_eq_self]
  intro f hf
  have hmem := mem_of_notes h hf
  simpa using ⟨hmem.1, hmem.2.1⟩

theorem returns_foldlM_future {note : LaunchScope → Call → Job Workbench LaunchScope}
    {N : Call → FutureLink → Prop}
    (hnote : ∀ s c, Returns (fun s' => ∃ f, s'.future = s.future ++ [f] ∧ N c f) (note s c)) :
    ∀ calls s,
      Returns (fun s' => ∃ fs, s'.future = s.future ++ fs ∧ List.Forall₂ N calls fs)
        (calls.foldlM note s)
  | [], s => returns_pure ⟨[], (append_nil _).symm, .nil⟩
  | c :: calls, s => by
    refine returns_bind (hnote s c) fun s₁ hs₁ => ?_
    obtain ⟨f, hf, hN⟩ := hs₁
    intro w s' w' h
    obtain ⟨fs, hfs, hall⟩ := returns_foldlM_future hnote calls s₁ w s' w' h
    exact ⟨f :: fs, by rw [hfs, hf, append_assoc]; rfl, .cons hN hall⟩

/-- The calls that the program of a node instance makes to parameters on a side. -/
def Model.callsOf (m : Model) (r : Ref .inst) (side : LinkSide) : List Call :=
  (m.node (m.inst r).node).paramCalls side

theorem Model.Resting.callsOf (h : Resting m m') (r : Ref .inst) (side : LinkSide) :
    m'.callsOf r side = m.callsOf r side := by
  rw [Model.callsOf, h.calls]
  refine congrArg (fun n => (m.node n).paramCalls side) ?_
  rcases Nat.lt_or_ge r.index m.instances.size with hr | hr
  · exact h.node r hr
  · rw [inst, inst, Array.getD_eq_getD_getElem?, Array.getD_eq_getD_getElem?,
      Array.getElem?_eq_none hr, Array.getElem?_eq_none (h.size_eq.symm ▸ hr)]

theorem LaunchScope.noteParams_ok {w w' : Workbench}
    (h : (s.noteParams [] []).exec w = (.ok s', w')) : ∃ r reads writes, s.node = some r ∧
      s'.future = s.future ++ (reads ++ writes) ∧
      NotedBy r .reads (w'.model.callsOf r .reads) reads ∧
      NotedBy r .writes (w'.model.callsOf r .writes) writes := by
  have hw : w = w' := (s.bounded_noteParams (S := Eq) [] []).within.of_exec h
  subst hw
  obtain ⟨r, w₁, hr, h⟩ := exec_bind_ok.mp h
  obtain rfl : w = w₁ := (s.bounded_requireNode (S := Eq)).within.of_exec hr
  rw [exec_bind_of_ok (exec_get w)] at h
  extract_lets m node note at h
  have hnote : ∀ side s c, Returns (fun s' => ∃ f, s'.future = s.future ++ [f] ∧ f.Notes r side c)
      (note side [] s c) := fun side s c =>
    Returns.after fun space => returns_pure ⟨_, rfl, rfl, rfl, rfl, rfl, rfl, rfl, rfl⟩
  obtain ⟨s₁, w₁, hreads, hwrites⟩ := exec_bind_ok.mp h
  obtain ⟨reads, hs₁, hreads⟩ := returns_foldlM_future (hnote .reads) _ _ _ _ _ hreads
  obtain ⟨writes, hs', hwrites⟩ := returns_foldlM_future (hnote .writes) _ _ _ _ _ hwrites
  refine ⟨r, reads, writes, s.returns_requireNode _ _ _ hr, ?_, hreads, hwrites⟩
  rw [hs', hs₁, append_assoc]

namespace Builder

theorem linkNode_ok {node b b' u} (h : (linkNode s node).exec b = (.ok u, b')) :
    ∃ r reads writes, s.node = some r ∧
      b'.future = b.future ++ (s.future ++ (reads ++ writes)) ∧
      NotedBy r .reads (b'.bench.model.callsOf r .reads) reads ∧
      NotedBy r .writes (b'.bench.model.callsOf r .writes) writes := by
  unfold linkNode at h
  rw [exec_bind_of_ok (exec_get b)] at h
  obtain ⟨hints, b₁, hhints, h⟩ := exec_bind_ok.mp h
  obtain rfl : b = b₁ := (within_ofResult (R := Eq) _).of_exec hhints
  obtain ⟨s', b₂, hlink, h⟩ := exec_bind_ok.mp h
  rw [exec_onBench] at hlink
  rcases hw : (Hints.link s hints).exec b.bench with ⟨e | s₁, w⟩ <;> rw [hw] at hlink <;>
    cases hlink
  cases h
  obtain ⟨_, w₁, -, hw⟩ := exec_bind_ok.mp hw
  obtain ⟨_, w₂, -, hw⟩ := exec_bind_ok.mp hw
  obtain ⟨_, w₃, -, hw⟩ := exec_bind_ok.mp hw
  obtain ⟨_, w₄, -, hw⟩ := exec_bind_ok.mp hw
  obtain ⟨r, reads, writes, hr, hs', hreads, hwrites⟩ := s.noteParams_ok hw
  exact ⟨r, reads, writes, hr, by rw [hs'], hreads, hwrites⟩

/-! ## While a file is worked through -/

def openNodes (around : List LaunchScope) : List (Ref .inst) := around.filterMap LaunchScope.node

/-- The queue has an entry for every call of a node instance to parameters. -/
def Queued (b : Builder) (r : Ref .inst) : Prop :=
  ∀ side : LinkSide, side.isParam = true →
    List.Forall₂ (fun call f => f.Notes r side call) (b.bench.model.callsOf r side)
      (notesFor r side b.future)

/-- An entry of the queue is for a node instance of the configuration. -/
structure Waits (b : Builder) (f : FutureLink) : Prop where
  index : f.node.index < b.count
  home : (b.bench.model.inst f.node).configuration = b.configuration
  side : f.side.isParam = true
  plain : f.hints = []

/-- The tags of a launch file are worked through from the state `b₀`, and `around` are the scopes
that are open. -/
structure Underway (b₀ : Builder) (around : List LaunchScope) (b : Builder) : Prop where
  configuration : b.configuration = b₀.configuration
  uses : SameUses b₀.bench.model b.bench.model
  queue : ∃ new, b.future = b₀.future ++ new ∧ ∀ f ∈ new, b₀.count ≤ f.node.index
  entries : ∀ f ∈ b.future, b.Waits f
  home : ∀ r : Ref .inst, b₀.count ≤ r.index → r.index < b.count →
    (b.bench.model.inst r).configuration = b.configuration
  scopes : ∀ s ∈ around, s.configuration = b.configuration ∧ s.future = []
  waiting : ∀ r ∈ openNodes around, b₀.count ≤ r.index ∧ r.index < b.count ∧
    ∀ side, notesFor r side b.future = []
  nodup : (openNodes around).Nodup
  queued : ∀ r : Ref .inst, b₀.count ≤ r.index → r.index < b.count → r ∉ openNodes around →
    b.Queued r

theorem Waits.mono {b b' : Builder} {f} (h : b.Waits f) (hc : b'.configuration = b.configuration)
    (hm : SameUses b.bench.model b'.bench.model) :
    b'.Waits f :=
  ⟨Nat.lt_of_lt_of_le h.index hm.size_instances, by rw [hm.configuration _ h.index, h.home, hc],
    h.side, h.plain⟩

namespace Underway

variable {b₀ b b' : Builder} {around : List LaunchScope} {s : LaunchScope}

theorem start (hentries : ∀ f ∈ b.future, b.Waits f) (hnode : s.node = none)
    (hconf : s.configuration = b.configuration) (hfuture : s.future = []) :
    Underway b [s] b where
  configuration := rfl
  uses := .refl _
  queue := ⟨[], (append_nil _).symm, forall_mem_nil _⟩
  entries := hentries
  home r hr hr' := absurd hr (Nat.not_le_of_lt hr')
  scopes s' hs' := by
    rw [mem_singleton.mp hs']
    exact ⟨hconf, hfuture⟩
  waiting r hr := by simp [openNodes, hnode] at hr
  nodup := by simp [openNodes, hnode]
  queued r hr hr' := absurd hr (Nat.not_le_of_lt hr')

theorem queued_of_sameUses (h : b.Queued r) (hr : r.index < b.count)
    (hm : SameUses b.bench.model b'.bench.model) (hf : b'.future = b.future) : b'.Queued r := by
  intro side hside
  have hcalls : b'.bench.model.callsOf r side = b.bench.model.callsOf r side := by
    rw [callsOf, hm.node r hr, hm.calls, callsOf]
  rw [hcalls, hf]
  exact h side hside

theorem along (h : Underway b₀ around b) (ha : Along Resting b b') : Underway b₀ around b' := by
  have hcount : b'.count = b.count := ha.model.size_eq
  constructor
  case configuration => exact ha.configuration.trans h.configuration
  case uses => exact h.uses.trans ha.model.toSameUses
  case queue => exact ha.future ▸ h.queue
  case entries =>
    rw [ha.future]
    exact fun f hf => (h.entries f hf).mono ha.configuration ha.model.toSameUses
  case home =>
    intro r hr hr'
    rw [hcount] at hr'
    rw [ha.model.configuration r hr', ha.configuration]
    exact h.home r hr hr'
  case scopes => exact ha.configuration ▸ h.scopes
  case waiting => rw [ha.future, hcount]; exact h.waiting
  case nodup => exact h.nodup
  case queued =>
    intro r hr hr' hopen
    rw [hcount] at hr'
    exact queued_of_sameUses (h.queued r hr hr' hopen) hr' ha.model.toSameUses ha.future

theorem of_openNodes {around'} (h : Underway b₀ around b)
    (hopen : openNodes around' = openNodes around)
    (hscopes : ∀ s ∈ around', s.configuration = b.configuration ∧ s.future = []) :
    Underway b₀ around' b :=
  { h with
    scopes := hscopes
    waiting := hopen ▸ h.waiting
    nodup := hopen ▸ h.nodup
    queued := hopen ▸ h.queued }

theorem close (h : Underway b₀ (s :: around) b) (hs : s.node = none) : Underway b₀ around b :=
  h.of_openNodes (by simp [openNodes, hs]) (forall_mem_cons.mp h.scopes).2

theorem replace (h : Underway b₀ (s :: around) b) (hnode : s'.node = s.node)
    (hc : s'.configuration = s.configuration) (hf : s'.future = s.future) :
    Underway b₀ (s' :: around) b := by
  obtain ⟨hs, hscopes⟩ := forall_mem_cons.mp h.scopes
  refine h.of_openNodes ?_ (forall_mem_cons.mpr ⟨⟨hc.trans hs.1, hf.trans hs.2⟩, hscopes⟩)
  rw [openNodes, openNodes, filterMap_cons, filterMap_cons, hnode]

theorem started (h : Underway b₀ (s :: around) b) (hst : StartedFrom Resting s b inner b') :
    Underway b₀ (inner :: s :: around) b' := by
  obtain ⟨hc, -, hf, m, hm, hst⟩ := hst
  have huses : SameUses b.bench.model b'.bench.model := hm.toSameUses.trans hst.sameUses
  have hsize : m.instances.size = b.count := hm.size_eq
  have hcount : b'.count = b.count + 1 := hst.size_instances.trans (by rw [hsize])
  have hopen : openNodes (inner :: s :: around) = ⟨b.count⟩ :: openNodes (s :: around) := by
    rw [openNodes, filterMap_cons, hst.node, hsize]
    rfl
  have hs := h.scopes s mem_cons_self
  constructor
  case configuration => exact hc.trans h.configuration
  case uses => exact h.uses.trans huses
  case queue => exact hf ▸ h.queue
  case entries =>
    rw [hf]
    exact fun f hf => (h.entries f hf).mono hc huses
  case home =>
    intro r hr hr'
    rw [hcount] at hr'
    rcases Nat.lt_succ_iff_lt_or_eq.mp hr' with hlt | heq
    · rw [huses.configuration r hlt, hc]
      exact h.home r hr hlt
    · obtain ⟨x, hx, hxc, -⟩ := hst.fresh
      obtain rfl : r = ⟨m.instances.size⟩ := congrArg Ref.mk (heq.trans hsize.symm)
      rw [hx, hxc, hs.1, hc]
  case scopes =>
    rw [hc]
    exact forall_mem_cons.mpr ⟨⟨hst.configuration.trans hs.1, hst.future⟩, h.scopes⟩
  case waiting =>
    rw [hopen, hf, hcount]
    refine forall_mem_cons.mpr ⟨⟨h.uses.size_instances, Nat.lt_succ_self _, ?_⟩, ?_⟩
    · refine fun side => notesFor_eq_nil fun f hf hnode => ?_
      have hlt := (h.entries f hf).index
      rw [hnode] at hlt
      exact absurd hlt (Nat.lt_irrefl _)
    · intro r hr
      obtain ⟨hlo, hhi, hnone⟩ := h.waiting r hr
      exact ⟨hlo, Nat.lt_succ_of_lt hhi, hnone⟩
  case nodup =>
    rw [hopen]
    exact nodup_cons.mpr ⟨fun hr => Nat.lt_irrefl _ (h.waiting _ hr).2.1, h.nodup⟩
  case queued =>
    intro r hr hr' hopen'
    rw [hopen, mem_cons, not_or] at hopen'
    rw [hcount] at hr'
    have hlt : r.index < b.count := by
      rcases Nat.lt_succ_iff_lt_or_eq.mp hr' with hlt | heq
      · exact hlt
      · exact absurd (congrArg Ref.mk heq) hopen'.1
    exact queued_of_sameUses (h.queued r hr hlt hopen'.2) hlt huses hf

theorem linked {node u} (h : Underway b₀ (s :: around) b)
    (hexec : (linkNode s node).exec b = (.ok u, b')) : Underway b₀ around b' := by
  have hon : Onward Resting b b' := (bounded_linkNode s node).within.of_exec hexec
  obtain ⟨r, reads, writes, hr, hf, hreads, hwrites⟩ := linkNode_ok hexec
  obtain ⟨⟨hsc, hsf⟩, hscopes⟩ := forall_mem_cons.mp h.scopes
  rw [hsf, nil_append] at hf
  have hcount : b'.count = b.count := hon.model.size_eq
  have hopen : openNodes (s :: around) = r :: openNodes around := by
    rw [openNodes, filterMap_cons, hr]
    rfl
  have hnodup := h.nodup
  rw [hopen] at hnodup
  obtain ⟨⟨hlo, hhi, hnone⟩, hwaiting⟩ := forall_mem_cons.mp (hopen ▸ h.waiting)
  have hnew : ∀ f ∈ reads ++ writes, f.node = r ∧ f.side.isParam = true ∧ f.hints = [] := by
    refine forall_mem_append.mpr ⟨fun f hf => ?_, fun f hf => ?_⟩
    · obtain ⟨hnode, hside, hplain⟩ := mem_of_notes hreads hf
      exact ⟨hnode, by rw [hside]; rfl, hplain⟩
    · obtain ⟨hnode, hside, hplain⟩ := mem_of_notes hwrites hf
      exact ⟨hnode, by rw [hside]; rfl, hplain⟩
  -- the entries of all other nodes are the same
  have hother : ∀ r' side, r' ≠ r → notesFor r' side b'.future = notesFor r' side b.future := by
    intro r' side hne
    have hnone : notesFor r' side (reads ++ writes) = [] :=
      notesFor_eq_nil fun f hf hnode => absurd (hnode.symm.trans (hnew f hf).1) hne
    rw [hf, notesFor_append, hnone, append_nil]
  constructor
  case configuration => exact hon.configuration.trans h.configuration
  case uses => exact h.uses.trans hon.model.toSameUses
  case queue =>
    obtain ⟨new, hqueue, hmem⟩ := h.queue
    refine ⟨new ++ (reads ++ writes), by rw [hf, hqueue, append_assoc],
      forall_mem_append.mpr ⟨hmem, fun f hf => ?_⟩⟩
    rwa [(hnew f hf).1]
  case entries =>
    rw [hf]
    refine forall_mem_append.mpr ⟨fun f hf =>
      (h.entries f hf).mono hon.configuration hon.model.toSameUses, fun f hf => ?_⟩
    obtain ⟨rfl, hside, hplain⟩ := hnew f hf
    refine ⟨hcount ▸ hhi, ?_, hside, hplain⟩
    rw [hon.model.configuration _ hhi, hon.configuration]
    exact h.home _ hlo hhi
  case home =>
    intro r' hr' hr''
    rw [hcount] at hr''
    rw [hon.model.configuration r' hr'', hon.configuration]
    exact h.home r' hr' hr''
  case scopes => exact hon.configuration ▸ hscopes
  case waiting =>
    intro r' hr'
    obtain ⟨hlo', hhi', hnone'⟩ := hwaiting r' hr'
    refine ⟨hlo', hcount ▸ hhi', fun side => ?_⟩
    rw [hother r' side fun heq => (nodup_cons.mp hnodup).1 (heq ▸ hr')]
    exact hnone' side
  case nodup => exact (nodup_cons.mp hnodup).2
  case queued =>
    intro r' hr' hr'' hclosed side hside
    rw [hcount] at hr''
    by_cases heq : r' = r
    · subst heq
      have hwrong : ∀ {side side' : LinkSide} {calls fs}, side' ≠ side →
          NotedBy r' side' calls fs → notesFor r' side fs = [] := fun hne hnotes =>
        notesFor_eq_nil fun f hf _ heq => hne ((mem_of_notes hnotes hf).2.1.symm.trans heq)
      rw [hf, notesFor_append, hnone, notesFor_append]
      cases side with
      | reads =>
        rwa [notesFor_of_notes hreads, hwrong (by decide) hwrites, append_nil]
      | writes =>
        rwa [notesFor_of_notes hwrites, hwrong (by decide) hreads]
      | _ => cases hside
    · have hopen' : r' ∉ openNodes (s :: around) := by
        rw [hopen, mem_cons, not_or]
        exact ⟨heq, hclosed⟩
      rw [hother r' side heq, callsOf, hon.model.node r' hr'', hon.model.calls]
      exact h.queued r' hr' hr'' hopen' side hside

end Underway

section Steps

variable {b₀ : Builder}

instance (around : List LaunchScope) : Aside (Keeping (Underway b₀ around)) :=
  aside_of_along (R := Resting) Underway.along

theorem Underway.child {around b₁ b ns file} (_ : Underway b₀ (s :: around) b₁)
    (hinner : s.child b₁.bench.model ns none file = .ok inner) (hb : Underway b₀ (s :: around) b) :
    Underway b₀ (inner :: s :: around) b := by
  obtain ⟨hnode, -, hc, hf⟩ := inside_child hinner
  exact hb.of_openNodes (by simp [openNodes, hnode]) (forall_mem_cons.mpr
    ⟨⟨hc.trans (hb.scopes s mem_cons_self).1, hf⟩, hb.scopes⟩)

theorem underway_leafTag (k text attrs s around) :
    Meets (Underway b₀ (s :: around)) (fun s' => Underway b₀ (s' :: around))
      (fun _ => Underway b₀ (s :: around)) (leafTag k text attrs s) := by
  refine meets_leafTag_of (I := fun s => Underway b₀ (s :: around)) (fun hcore hb => ?_) ?_
    fun hk => ?_
  · have hnode := congrArg LaunchScope.node hcore
    have hc := congrArg LaunchScope.configuration hcore
    have hf := congrArg LaunchScope.future hcore
    exact hb.replace hnode hc hf
  · refine (meets_keeping_iff.mpr (within_renamingOf attrs s)).bind fun x b hb => ?_
    unfold LaunchScope.rename
    cases hnode : s.node with
    | none => exact hb.replace hnode.symm rfl rfl
    | some n =>
      refine hb.along ⟨rfl, ⟨rfl, rfl⟩, rfl, ?_, Array.size_modify .., rfl⟩
      refine Model.sameUses_updateInstance _ _ (fun _ => rfl) (fun _ => rfl) fun {side} _ x => ?_
      cases side <;> rfl
  · exact (within_leafTag (R := Resting) hk text attrs s).mono fun _ _ ha hb => hb.along ha

theorem steps_underway (b₀ : Builder) : Steps (·.isNoted = true) (Underway b₀) where
  noted h := h
  close hs h := h.close hs
  stop hf hf' _ := by
    rw [hf] at hf'
    cases hf'
  errors _ h := h.along ⟨rfl, ⟨rfl, rfl⟩, rfl, refl_of Resting _⟩
  context _ h := h.along ⟨rfl, ⟨rfl, rfl⟩, rfl, refl_of Resting _⟩
  openGroup attrs s _ :=
    (meets_opening (within_openGroup attrs s) opened_group Underway.child).stop fun _ _ hb _ => hb
  openInclusion attrs children s _ := (meets_opening (within_openInclusion attrs children s)
    opened_inclusion Underway.child).stop fun _ _ hb _ => hb
  startNode attrs s around := by
    intro b hb
    have hout := meets_startNode (R := Resting) attrs s b b rfl
    rcases hexec : (startNode attrs s).exec b with ⟨f | x, b'⟩ <;> rw [hexec] at hout
    · intro hf
      rcases hout with ha | ⟨rfl, -⟩
      · exact hb.along ha
      · cases hf
    · exact hb.started hout
  linkNode s around node := by
    intro b hb
    rcases hexec : (linkNode s node).exec b with ⟨f | u, b'⟩
    · intro hf
      have hstops : f.isNoted = false := throws_linkNode s node b f b' hexec
      rw [hf] at hstops
      cases hstops
    · exact hb.linked hexec
  leafTag k text attrs s around := (underway_leafTag k text attrs s around).stop fun _ _ hb _ => hb

end Steps

end Builder

end RosAudit
