import RosAudit.Proofs.Configure.Linker
import RosAudit.Proofs.Configure.Upkeep
import RosAudit.Proofs.Model.TwoSided

/-!
# Topic links are recorded on both sides

A link between a node and a topic comes about in four ways : the topic is known under its name, a
name that is partly unknown may mean a listed topic or one that a hint names, or a hint asks for a
link that no call led to. Topics are made, copied and listed in between, some links are made and
never used, and the work may stop at any point. In the end every link is with its node and with its
topic, and both are in the configuration.
-/

namespace RosAudit

open Job Model LaunchScope List

/-! ## The parts of linking -/

namespace Linking

variable {c : Ref .configuration} {r : Ref .inst} {hints listed : List (Ref .topic)}
  {ls : List (Ref .link)}

theorem quiet_createTopic (m c n type) : Quiet m (topicRules.create m c n type).1 :=
  (m.quiet_addGuards _).trans (quiet_addTopic _ _)

theorem idle_create {m} (h : m.Linked c) (n type) :
    (topicRules.create m c n type).1.Idle c (topicRules.create m c n type).2 :=
  idle_addTopic (h.of_quiet (m.quiet_addGuards [])) rfl fun side => by cases side <;> rfl

theorem idle_remapTopic {m : Model} (h : m.Linked c) {t} (ht : m.Idle c t) (n : Name) :
    (m.remapTopic t n).1.Idle c (m.remapTopic t n).2 := by
  refine idle_addTopic (h.of_quiet (m.quiet_addGuards _)) ht.configuration fun side => ?_
  rw [← ht.unlinked side]
  cases side <;> rfl

theorem not_mem_hints {m : Model} (h : m.Linking c r hints listed ls) :
    (⟨m.topics.size⟩ : Ref .topic) ∉ hints :=
  fun ht => Nat.lt_irrefl _ (h.idle _ ht).index

theorem linker_topicRules (c r) :
    Linker topicRules Quiet c r (fun hints listed ls m => m.Linking c r hints listed ls)
      (fun m => m.Linked c) where
  stop h := h.linked
  guards m := m.quiet_addGuards []
  along h hq := h.of_quiet hq
  configuration h := (h.linked.node r h.node).2
  consult h := ⟨h.linked, h.node, h.idle, fun _ ht => ht, h.nodup, h.loose⟩
  forget h hlisted := { h with listed := fun t ht => h.listed t (hlisted ht) }
  drop h hls :=
    { h with nodup := h.nodup.sublist hls, loose := fun l hl => h.loose l (hls.subset hl) }
  addLink h ht hnode htarget := h.addLink hnode ht htarget
  enter n type _ h _ hq := by
    have h := h.of_quiet hq
    have hnew := not_mem_hints h
    exact (h.of_quiet (quiet_createTopic _ c n type)).listTopic (idle_create h.linked n type) hnew
  remap m hint n := m.quiet_remapTopic hint n
  adopt h hhint _ _ := by
    have hnew := not_mem_hints h
    have hidle := idle_remapTopic h.linked (h.idle _ hhint)
    exact (h.of_quiet (quiet_remapTopic _ _ _)).listTopic (hidle _) hnew

end Linking

/-- A link that is noted for later is one to a parameter. -/
def FutureLink.Apart (f : FutureLink) : Prop := f.side.isParam = true

variable {s inner : LaunchScope}

theorem Hints.meets_link {c} (hc : s.configuration = c) (hs : ∀ f ∈ s.future, f.Apart) (v : Value) :
    Meets (fun w => w.model.Linked c ∧ ∀ r, s.node = some r →
      r ∈ (w.model.configuration c).nodes.all)
      (fun s' w => w.model.Linked c ∧ ∀ f ∈ s'.future, f.Apart) (fun _ w => w.model.Linked c)
      (Hints.link s v) := by
  refine Meets.returning ?_ fun w s' w' h f hf =>
    (returns_link s v w s' w' h f hf).elim (hs f) fun hnew => hnew.2.1
  intro w hw
  cases hr : s.node with
  | none =>
    rw [exec_link_of_none hr]
    exact hw.1
  | some r =>
    refine ((Linking.linker_topicRules c r).topicLinker fun hside h => h.attach hside).meets_link
      hc (fun n type _ _ _ h => ?_) hr w ⟨hw.1, hw.2 r hr, by simp, by simp, .nil, by simp⟩
    exact (h.of_quiet (Linking.quiet_createTopic _ c n type)).addHint
      (Linking.idle_create h.linked n type)

/-! ## The builder -/

def Model.SameNodes (m m' : Model) : Prop :=
    ∀ c, (m'.configuration c).nodes = (m.configuration c).nodes

instance : TopicDrift SameNodes where
  refl _ _ := rfl
  trans _ _ _ h h' c := (h' c).trans (h c)
  of_quiet h := h.nodes
  listTopic m t := m.nodes_listTopic t
  attach m l side c := congrArg Configuration.nodes (m.configuration_attach l side c)

namespace LaunchScope.Started

variable {s inner : LaunchScope} {m m' : Model} (h : Started s m inner m')
include h

theorem nodes_all (hc : s.configuration.index < m.configurations.size) :
    (m'.configuration s.configuration).nodes.all =
      (m.configuration s.configuration).nodes.all ++ [⟨m.instances.size⟩] := by
  obtain ⟨nodes, hnodes, hlist⟩ := h.listed
  rwa [Model.configuration, hlist, getD_modify_self _ _ _ hc]

theorem mem_nodes (hc : s.configuration.index < m.configurations.size) {r} :
    r ∈ (m'.configuration s.configuration).nodes.all ↔
      r ∈ (m.configuration s.configuration).nodes.all ∨ r = ⟨m.instances.size⟩ := by
  rw [h.nodes_all hc, mem_append, mem_singleton]

theorem topics_eq (c) : (m'.configuration c).topics = (m.configuration c).topics := by
  obtain ⟨nodes, -, hlist⟩ := h.listed
  rw [Model.configuration, hlist]
  refine view_getD_modify _ _ Configuration.topics (fun k => ?_) _ _
  rfl

theorem topic_eq (t) : m'.topic t = m.topic t := by
  rw [Model.topic, h.topics, Model.topic]

theorem link_eq (l : Ref .link) : m'.link l = m.link l := by
  rw [Model.link, h.links, Model.link]

theorem not_mem_side (side : LinkSide) (l : Ref .link) :
    l ∉ (m'.inst ⟨m.instances.size⟩).side side := by
  obtain ⟨x, hx, -, -, hnone⟩ := h.fresh
  rw [hx, hnone]
  exact not_mem_nil

theorem twoSided (hm : m.Linked s.configuration) {side} (hside : side.isTopic = true) :
    m'.TwoSided s.configuration side := by
  have hinst : ∀ r ∈ (m.configuration s.configuration).nodes.all, m'.inst r = m.inst r :=
    fun r hr => h.inst r (hm.node r hr).1
  constructor
  · intro r hr l hl
    rcases (h.mem_nodes hm.configuration).mp hr with hr | rfl
    · rw [hinst r hr] at hl
      simp only [h.link_eq, h.topics_eq, h.topic_eq]
      exact (hm.twoSided hside).ofNode r hr l hl
    · exact absurd hl (h.not_mem_side _ l)
  · intro t ht l hl
    rw [h.topics_eq] at ht
    rw [h.topic_eq] at hl
    obtain ⟨htarget, r, hr, hlr⟩ := (hm.twoSided hside).ofTopic t ht l hl
    refine ⟨by rw [h.link_eq, htarget], r, (h.mem_nodes hm.configuration).mpr (.inl hr), ?_⟩
    rwa [hinst r hr]

theorem linked (hm : m.Linked s.configuration) : m'.Linked s.configuration where
  configuration := by
    obtain ⟨nodes, -, hlist⟩ := h.listed
    rw [hlist, Array.size_modify]
    exact hm.configuration
  node r hr := by
    rw [h.size_instances]
    rcases (h.mem_nodes hm.configuration).mp hr with hr | rfl
    · obtain ⟨hindex, hconfiguration⟩ := hm.node r hr
      rw [h.inst r hindex]
      exact ⟨Nat.lt_succ_of_lt hindex, hconfiguration⟩
    · obtain ⟨x, hx, hconfiguration, -⟩ := h.fresh
      exact ⟨Nat.lt_succ_self _, by rw [hx, hconfiguration]⟩
  topic t ht := by
    rw [h.topics_eq] at ht
    rw [h.topics]
    exact hm.topic t ht
  link hside r hr l hl := by
    rw [h.links]
    rcases (h.mem_nodes hm.configuration).mp hr with hr | rfl
    · rw [h.inst r (hm.node r hr).1] at hl
      exact hm.link hside r hr l hl
    · exact absurd hl (h.not_mem_side _ l)
  twoSided hside := h.twoSided hm hside

end LaunchScope.Started

namespace Builder

/-- A scope of the configuration `c`. Its node is listed, and the links noted in it are links to
parameters. -/
structure Standing (c : Ref .configuration) (m : Model) (s : LaunchScope) : Prop where
  configuration : s.configuration = c
  node : ∀ r, s.node = some r → r ∈ (m.configuration c).nodes.all
  future : ∀ f ∈ s.future, f.Apart

theorem Standing.mono {c m m'} (h : Standing c m s)
    (hn : (m.configuration c).nodes.all ⊆ (m'.configuration c).nodes.all) : Standing c m' s :=
  { h with node := fun r hr => hn (h.node r hr) }

/-- The links of the configuration `c` agree, links that are noted are links to parameters, and the
open scopes are scopes of the configuration. -/
def linkDemands (c : Ref .configuration) : Demands where
  listed m := m.Linked c
  param _ _ := True
  future _ f := f.Apart
  scope m s := Standing c m s

/-- The state in which a builder works on the configuration `c` in the scopes `around`. -/
abbrev Sound (c : Ref .configuration) := Meeting (linkDemands c) c

section Steps

variable {c : Ref .configuration} {future : List FutureLink} {around : List LaunchScope}

theorem linkDemands_of_nodes {w w'} (h : (linkDemands c).OnBench future around w)
    (hlinked : w'.model.Linked c)
    (hn : (w.model.configuration c).nodes.all ⊆ (w'.model.configuration c).nodes.all) :
    (linkDemands c).OnBench future around w' :=
  ⟨hlinked, fun _ _ => trivial, h.future, fun s hs => (h.scopes s hs).mono hn⟩

theorem kept_of_quiet {m m'} (h : Quiet m m') : (linkDemands c).Kept m m' where
  listed hm := hm.of_quiet h
  param _ _ := trivial
  future _ hf := hf
  scope _ hs := hs.mono (h.nodes c ▸ List.Subset.refl _)

theorem keeping_of_quiet {α : Type} {j : Job Workbench α} (hj : Within (Workbench.Along Quiet) j) :
    Within (Keeping ((linkDemands c).OnBench future around)) j :=
  fun w hw => linkDemands_of_nodes hw (hw.listed.of_quiet (hj w))
    ((hj w).nodes c ▸ List.Subset.refl _)

theorem sound_makeNode (hs : s ∈ around) (node name ns argv) :
    Meets ((linkDemands c).OnBench future around)
      (fun inner => (linkDemands c).OnBench future (inner :: around))
      (fun _ => (linkDemands c).OnBench future around) (s.makeNode node name ns argv none) := by
  intro w hw
  obtain rfl := (hw.scopes s hs).configuration
  rcases s.exec_makeNode node name ns argv none w with ⟨f, hf⟩ | ⟨inner, w', hexec, hst⟩
  · rwa [hf]
  · rw [hexec]
    have hmem {r : Ref .inst} := hst.mem_nodes hw.listed.configuration (r := r)
    refine (linkDemands_of_nodes hw (hst.linked hw.listed) fun r hr => hmem.mpr (.inl hr)).push ?_
    refine ⟨hst.configuration, fun r hr => ?_, hst.future ▸ forall_mem_nil _⟩
    exact hmem.mpr (.inr (Option.some.inj (hr.symm.trans hst.node)))

theorem sound_rename (source target : String) :
    Meets ((linkDemands c).OnBench future (s :: around))
      (fun s' => (linkDemands c).OnBench future (s' :: around))
      (fun _ => (linkDemands c).OnBench future (s :: around)) (s.rename source target) := by
  intro w hw
  unfold LaunchScope.rename
  cases hn : s.node with
  | none =>
    have hs := hw.scopes s mem_cons_self
    exact hw.close.push ⟨hs.configuration, fun _ h => (nomatch h), hs.future⟩
  | some n =>
    refine linkDemands_of_nodes hw ?_ (List.Subset.refl _)
    refine hw.listed.of_hushed (.updateInstance (fun x => ?_) rfl)
    rfl

theorem sound_link (hs : s ∈ around) (v : Value) :
    Meets ((linkDemands c).OnBench future around)
      (fun s' w => (linkDemands c).OnBench future around w ∧ ∀ f ∈ s'.future, f.Apart)
      (fun _ => (linkDemands c).OnBench future around) (Hints.link s v) := by
  intro w hw
  obtain ⟨hconfiguration, hnode, hfuture⟩ := hw.scopes s hs
  have hout := Hints.meets_link hconfiguration hfuture v w ⟨hw.listed, hnode⟩
  have hsame : Workbench.Along SameNodes w _ := (Hints.bounded_link s v).within w
  have hnodes := fun r hr => (congrArg (r ∈ ·.all) (hsame c)).mpr hr
  rcases hexec : (Hints.link s v).exec w with ⟨f | s', w'⟩ <;> rw [hexec] at hout hnodes
  · exact linkDemands_of_nodes hw hout hnodes
  · exact ⟨linkDemands_of_nodes hw hout.1 hnodes, hout.2⟩

theorem upkeep_linkDemands (c) : Upkeep (linkDemands c) c where
  addManifest m x := kept_of_quiet (m.quiet_addManifest x none)
  addNode m n := kept_of_quiet (m.quiet_addNode n)
  configured m c' _ hf := kept_of_quiet
    (.updateConfiguration (fun k => (hf k).1) (fun k => (hf k).2.1) rfl)
  core h hcore := by
    have hconfiguration := congrArg LaunchScope.configuration hcore
    have hnode := congrArg LaunchScope.node hcore
    have hfuture := congrArg LaunchScope.future hcore
    exact ⟨hconfiguration.trans h.configuration, fun r hr => h.node r (hnode.symm.trans hr),
      fun f hf => h.future f (hfuture ▸ hf)⟩
  child h hinner m' := by
    obtain ⟨hnode, -, hconfiguration, hfuture⟩ := inside_child hinner
    refine ⟨hconfiguration.trans h.configuration, fun r hr => ?_, hfuture ▸ forall_mem_nil _⟩
    cases hnode.symm.trans hr
  root _ _ := ⟨rfl, fun _ hr => (nomatch hr), forall_mem_nil _⟩
  setParam name type text _ := keeping_of_quiet (bounded_setParam _ name type text none).within
  setDocument name ns document _ := keeping_of_quiet (within_setDocument _ name ns document none)
  makeNode node name ns argv hs := sound_makeNode hs node name ns argv
  rename _ _ := sound_rename _ _
  link v hs := sound_link hs v
  listParam {m p} _ _ := kept_of_quiet (m.quiet_listParam p)
  make {_ f} hf w hw := by
    have hattach : ∀ m l, Quiet m (m.attach l f.side) :=
      fun m l => Steady.attachParam m l (hw.future f hf)
    exact keeping_of_quiet (f.bounded_make hattach).within w hw

theorem invariant_sound (c) : Invariant (Sound c) :=
  (upkeep_linkDemands c).invariant

end Steps

theorem sound_of_reachable {b} (h : Reachable b) : Sound b.configuration [] b :=
  meeting_of_reachable upkeep_linkDemands
    (fun hindex hnew => linked_of_empty hindex (by rw [hnew]) (by rw [hnew])) h

/-- In every state that a builder can be in, the links between the nodes and the topics of its
configuration are recorded on both sides. -/
theorem twoSided_of_reachable {b : Builder} (h : Reachable b) :
    b.bench.model.TwoSided b.configuration .publishers ∧
    b.bench.model.TwoSided b.configuration .subscribers := by
  have hlinked := (sound_of_reachable h).bench.listed
  exact ⟨hlinked.twoSided rfl, hlinked.twoSided rfl⟩

/-- Two programs that share a topic, and two launch files, the second of which stops halfway. -/
def talk : Model where
  packages := #[{ name := "talk" }]
  files := #[
    launchFile "talk" "all.launch" (some (.tag .launch "" ⟨[]⟩
      [startTag "talk" "say" "one", startTag "talk" "hear" "two"])),
    launchFile "talk" "more.launch" (some (.tag .launch "" ⟨[]⟩
      [startTag "talk" "hear" "three", .tag .launch "" ⟨[]⟩ []]))]
  nodes := #[
    { name := "say", package := ⟨0⟩, packageName := "talk"
      advertise := [{ name := some "words", guards := ⟨0⟩ }] },
    { name := "hear", package := ⟨0⟩, packageName := "talk"
      advertise := [{ name := some "~words", guards := ⟨0⟩ }]
      subscribe := [{ name := some "words", guards := ⟨0⟩ }] }]
  guards := #[[]]

/-- A builder for the two files. -/
def listening : Builder where
  files := default
  bench := { model := (talk.addConfiguration { name := "talk" }).1 }
  configuration := (talk.addConfiguration { name := "talk" }).2
  catalogue :=
    { packages := ⟨[("talk", ⟨0⟩)]⟩, files := [⟨0⟩, ⟨1⟩]
      nodes := ⟨[("node:talk/say", ⟨0⟩), ("node:talk/hear", ⟨1⟩)]⟩ }
  search := .across []

def heard : Builder := ((addLaunch ⟨1⟩).exec ((addLaunch ⟨0⟩).exec listening).2).2

/-- The second file has started and linked the node `three` before it stopped. -/
theorem twoSided_of_reachable_heard :
    ((addLaunch ⟨1⟩).exec ((addLaunch ⟨0⟩).exec listening).2).1 = .error .noField ∧
    (heard.bench.model.configuration heard.configuration).nodes.all = [⟨0⟩, ⟨1⟩, ⟨2⟩] ∧
    (heard.bench.model.inst ⟨2⟩).subscribers = [⟨4⟩] ∧
    (heard.bench.model.topic ⟨0⟩).subscribers = [⟨2⟩, ⟨4⟩] ∧
    heard.bench.model.TwoSided heard.configuration .publishers ∧
    heard.bench.model.TwoSided heard.configuration .subscribers := by
  have hstart : Reachable listening := .start talk _ _ _ _ _ _ _ _
  have hheard : Reachable heard := .launch ⟨1⟩ (.launch ⟨0⟩ hstart)
  refine ⟨by decide +kernel, by decide +kernel, by decide +kernel, by decide +kernel, ?_⟩
  exact twoSided_of_reachable hheard

/-! ## What is kept besides the soundness of a builder -/

/-- The work on the configuration `c` keeps `P` as long as it is sound. Changes along `R` do not
matter to `P`. -/
structure Companion (R : Model → Model → Prop) (c : Ref .configuration) (P : Builder → Prop) :
    Prop where
  onward : ∀ {b b'}, P b → Onward R b b' → P b'
  configured : ∀ (m : Model) (c' : Ref .configuration) {f : Configuration → Configuration},
    (∀ k, (f k).nodes = k.nodes) → (∀ k, (f k).topics = k.topics) →
    (∀ k, (f k).services = k.services) → R m (m.updateConfiguration c' f)
  started : ∀ {s inner around b b'}, Sound c (s :: around) b → P b →
    StartedFrom R s b inner b' → P b'
  renamed : ∀ {b} n source target, P b → P { b with bench := { b.bench with
    model := b.bench.model.updateInstance n fun x =>
      { x with remaps := x.remaps.put source target } } }
  link : ∀ {s around b v node inst}, Sound c (s :: around) b → P b →
    Hints.merge b.specs b.hints node inst = .ok v →
    P { b with bench := ((Hints.link s v).exec b.bench).2 }

section Steps

variable {α : Type} {c : Ref .configuration} {around : List LaunchScope} {P : Builder → Prop}

theorem meets_sound_and {Q : α → Builder → Prop} {E : Fault → Builder → Prop} {j : Job Builder α}
    (hj : Meets (Sound c around) Q E j)
    (hP : Meets (fun b => Sound c around b ∧ P b) (fun _ => P) (fun _ => P) j) :
    Meets (fun b => Sound c around b ∧ P b) (fun a b => Q a b ∧ P b) (fun f b => E f b ∧ P b) j :=
  meets_of (fun _ _ _ hb h => ⟨hj.of_ok hb.1 h, hP.of_ok hb h⟩)
    fun _ _ _ hb h => ⟨hj.of_error hb.1 h, hP.of_error hb h⟩

namespace Companion

variable {R : Model → Model → Prop} (h : Companion R c P)

include h

theorem meets_onward {j : Job Builder α} (hj : Within (Along R) j) :
    Meets (fun b => Sound c around b ∧ P b) (fun _ => P) (fun _ => P) j :=
  hj.meets (returns_true j) (fun _ _ _ hb ha _ => h.onward hb.2 ha.onward)
    fun _ _ _ hb ha => h.onward hb.2 ha.onward

variable [Steady R]

theorem meets_startNode (attrs s) :
    Meets (fun b => Sound c (s :: around) b ∧ P b) (fun _ => P) (fun _ =>
      P) (startNode attrs s) := by
  intro b hb
  have hout := Builder.meets_startNode (R := R) attrs s b b rfl
  rcases hexec : (startNode attrs s).exec b with ⟨f | x, b'⟩ <;> rw [hexec] at hout
  · rcases hout with ha | ⟨-, inner, hst⟩
    · exact h.onward hb.2 ha.onward
    · exact h.started hb.1 hb.2 hst
  · exact h.started hb.1 hb.2 hout

theorem meets_linkNode (s node) :
    Meets (fun b => Sound c (s :: around) b ∧ P b) (fun _ => P) (fun _ => P) (linkNode s node) := by
  refine meets_linkNode_of (fun _ hb => hb.2) ?_
  rintro b v _ _ hb hmerge _ rfl
  have hlinked := h.link hb.1 hb.2 hmerge
  rcases hexec : (Hints.link s v).exec b.bench with ⟨f | s', w⟩ <;> rw [hexec] at hlinked
  · exact hlinked
  · exact h.onward hlinked ⟨rfl, ⟨rfl, rfl⟩, refl_of R _⟩

theorem meets_leafTag (k text attrs s) :
    Meets (fun b => Sound c around b ∧ P b) (fun _ => P) (fun _ => P) (leafTag k text attrs s) := by
  by_cases hk : k = .remap
  · subst hk
    refine (h.meets_onward (within_renamingOf attrs s)).bind fun x b hb => ?_
    unfold LaunchScope.rename
    cases s.node with
    | none => exact hb
    | some n => exact h.renamed n x.1 x.2 hb
  · exact h.meets_onward (within_leafTag hk text attrs s)

theorem keeping_settleParams : Within (Keeping fun b => Sound c [] b ∧ P b) settleParams := by
  intro b hb
  refine ⟨(invariant_sound c).settleParams b hb.1, h.onward hb.2 (Along.onward ?_)⟩
  exact along_settleParams fun f hf m l => Steady.attachParam m l (hb.1.bench.future f hf)

theorem invariant : Invariant fun around b => Sound c around b ∧ P b where
  close hb := ⟨hb.1.close, hb.2⟩
  errors e hb := ⟨(invariant_sound c).errors e hb.1, h.onward hb.2 ⟨rfl, ⟨rfl, rfl⟩, refl_of R _⟩⟩
  context x hb := ⟨(invariant_sound c).context x hb.1, h.onward hb.2 ⟨rfl, ⟨rfl, rfl⟩, refl_of R _⟩⟩
  openGroup attrs s around :=
    meets_sound_and ((invariant_sound c).openGroup attrs s around)
      (h.meets_onward (within_openGroup attrs s))
  openInclusion attrs children s around :=
    meets_sound_and ((invariant_sound c).openInclusion attrs children s around)
      (h.meets_onward (within_openInclusion attrs children s))
  startNode attrs s around :=
    meets_sound_and ((invariant_sound c).startNode attrs s around) (h.meets_startNode attrs s)
  linkNode s around node :=
    meets_sound_and ((invariant_sound c).linkNode s around node) (h.meets_linkNode s node)
  leafTag k text attrs s around :=
    meets_sound_and ((invariant_sound c).leafTag k text attrs s around)
      (h.meets_leafTag k text attrs s)
  enlist f hb := ⟨(invariant_sound c).enlist f hb.1, h.onward hb.2
    ⟨rfl, ⟨rfl, rfl⟩, h.configured _ _ (fun _ => rfl) (fun _ => rfl) fun _ => rfl⟩⟩
  launching f hb :=
    ⟨(invariant_sound c).launching f hb.1, h.onward hb.2 ⟨rfl, ⟨rfl, rfl⟩, refl_of R _⟩⟩
  settleParams := h.keeping_settleParams
  uses c' p e hb := ⟨(invariant_sound c).uses c' p e hb.1, h.onward hb.2
    ⟨rfl, ⟨rfl, rfl⟩, h.configured _ _ (fun _ => rfl) (fun _ => rfl) fun _ => rfl⟩⟩

end Companion

end Steps

theorem given_addLaunch {b} (h : Reachable b) (f : Ref .file) :
    ((addLaunch f).exec b).2.specs = b.specs ∧ ((addLaunch f).exec b).2.hints = b.hints := by
  have hgiven : Companion Quiet b.configuration
      fun b' => b'.specs = b.specs ∧ b'.hints = b.hints :=
    { onward := fun h h' => ⟨h'.given.1.trans h.1, h'.given.2.trans h.2⟩
      configured := fun _ _ _ hn ht _ => .updateConfiguration hn ht rfl
      started := fun _ h hst => ⟨hst.2.1.1.trans h.1, hst.2.1.2.trans h.2⟩
      renamed := fun _ _ _ h => h
      link := fun _ h _ => h }
  exact (hgiven.invariant.addLaunch f b ⟨sound_of_reachable h, rfl, rfl⟩).2

end Builder

end RosAudit
