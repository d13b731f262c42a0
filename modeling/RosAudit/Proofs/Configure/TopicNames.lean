import RosAudit.Proofs.Configure.TopicLinks
import RosAudit.Proofs.Model.Collection

/-!
# The names of the topics of a configuration

A topic is listed at three places, and each has its own way to tell that it is not there yet. A call
looks for the name. If the name is partly unknown and there are hints, it looks for topics that the
name may stand for, of the type that the call states. The copy of a hint is listed if its name is
not counted. The first and the last never list a name twice. The second does, where a topic of the
same partly unknown name has another type.
-/

namespace RosAudit

open Job Model LaunchScope List

variable {t : Ref .topic}

namespace Model

variable {m m' : Model} {c : Ref .configuration} {hinted : Prop}

abbrev topicName (m : Model) (t : Ref .topic) : String := (m.topic t).name.full

/-- Why `t'` was listed although `t` with the same name was : hints were given, the name is partly
unknown, and `t` is not what a topic of this name and type may stand for. -/
structure Mistaken (m : Model) (hinted : Prop) (t t' : Ref .topic) : Prop where
  hinted : hinted
  unresolved : (m.topic t').name.isUnresolved = true
  unfit : ∃ pattern, (m.topic t').name.pattern = .ok pattern ∧
    ¬ topicRules.Fits m pattern (m.topic t').type t

/-- The topics of the configuration `c` have different names, up to mistakes, and all names are
counted. -/
structure Distinct (m : Model) (c : Ref .configuration) (hinted : Prop) : Prop where
  index : ∀ t ∈ (m.configuration c).topics.all, t.index < m.topics.size
  apart : (m.configuration c).topics.all.Pairwise fun t t' =>
    m.topicName t = m.topicName t' → m.Mistaken hinted t t'
  counts : (m.configuration c).topics.Counts m.topicName

/-- What the names of the topics of a configuration are like. Two topics have the same name only by
mistake, and collisions are counted as they are. So a topic whose name is fully known is the only
one of its name and is found under it. If `hinted` does not hold, this goes for all. -/
structure TopicNames (m : Model) (c : Ref .configuration) (hinted : Prop) : Prop where
  apart : (m.configuration c).topics.all.Pairwise fun t t' =>
    m.topicName t = m.topicName t' → m.Mistaken hinted t t'
  collisions : (m.configuration c).topics.collisions =
    ((m.configuration c).topics.all.length : Int) -
      (((m.configuration c).topics.all.map m.topicName).dedup.length : Nat)
  known : ∀ t ∈ (m.configuration c).topics.all, (m.topic t).name.isUnresolved = false →
    ((m.configuration c).topics.all.filter fun t' => m.topicName t' == m.topicName t) = [t] ∧
    m.lookup (m.configuration c).topics (m.topicName t) = some t
  unhinted : ¬ hinted → ((m.configuration c).topics.all.map m.topicName).Nodup ∧
    (m.configuration c).topics.collisions = 0 ∧ ∀ t ∈ (m.configuration c).topics.all,
      m.lookup (m.configuration c).topics (m.topicName t) = some t

theorem Distinct.filter_of_known (h : m.Distinct c hinted)
    (ht : t ∈ (m.configuration c).topics.all) (hknown : (m.topic t).name.isUnresolved = false) :
    ((m.configuration c).topics.all.filter fun t' => m.topicName t' == m.topicName t) = [t] := by
  have hmem : t ∈ (m.configuration c).topics.all.filter fun t' => m.topicName t' == m.topicName t :=
    mem_filter.mpr ⟨ht, beq_self_eq_true _⟩
  have hsame : ∀ t' ∈ (m.configuration c).topics.all.filter fun t' =>
      m.topicName t' == m.topicName t, m.topicName t' = m.topicName t :=
    fun t' ht' => beq_iff_eq.mp (mem_filter.mp ht').2
  have hapart := h.apart.filter fun t' => m.topicName t' == m.topicName t
  revert hmem hsame hapart
  generalize (m.configuration c).topics.all.filter _ = ts
  intro hmem hsame hapart
  rcases ts with - | ⟨t₁, - | ⟨t₂, ts⟩⟩
  · cases hmem
  · rw [mem_singleton.mp hmem]
  · have h₁ := hsame t₁ mem_cons_self
    have h₂ := hsame t₂ (mem_cons_of_mem t₁ mem_cons_self)
    have hmistaken := (pairwise_cons.mp hapart).1 t₂ mem_cons_self (h₁.trans h₂.symm)
    have hresolved : (m.topic t₂).name.isUnresolved = false :=
      (congrArg (fun full : String => full.toList.contains '?') h₂).trans hknown
    exact absurd (hmistaken.unresolved.symm.trans hresolved) Bool.noConfusion

theorem Distinct.topicNames (h : m.Distinct c hinted) : m.TopicNames c hinted where
  apart := h.apart
  collisions := h.counts.collisions_eq
  known t ht hknown := by
    have hfilter := h.filter_of_known ht hknown
    refine ⟨hfilter, lookup_eq_some ht rfl fun t' ht' hname => ?_⟩
    have hmem : t' ∈ (m.configuration c).topics.all.filter fun t' =>
        m.topicName t' == m.topicName t :=
      mem_filter.mpr ⟨ht', beq_iff_eq.mpr (Option.some.inj hname)⟩
    rw [hfilter] at hmem
    exact mem_singleton.mp hmem
  unhinted hnone := by
    have hnodup : ((m.configuration c).topics.all.map m.topicName).Nodup := by
      refine pairwise_map.mpr (h.apart.imp ?_)
      exact fun hmistaken hname => hnone (hmistaken hname).hinted
    refine ⟨hnodup, ?_, fun t ht => lookup_eq_some ht rfl ?_⟩
    · rw [h.counts.collisions_eq, hnodup.dedup, length_map, Int.sub_self]
    exact fun t' ht' hname => inj_on_of_nodup_map hnodup ht' ht (Option.some.inj hname)

/-! ## Changes that leave names alone -/

/-- The configuration `c` lists the same topics, and no topic has changed its name or type. -/
structure SameTitles (c : Ref .configuration) (m m' : Model) : Prop where
  topics : (m'.configuration c).topics = (m.configuration c).topics
  size : m.topics.size ≤ m'.topics.size
  title : ∀ t : Ref .topic, t.index < m.topics.size →
    (m'.topic t).name = (m.topic t).name ∧ (m'.topic t).type = (m.topic t).type

theorem Quiet.sameTitles (h : Quiet m m') (c) : SameTitles c m m' where
  topics := h.list c
  size := h.size_store
  title _ ht :=
    ⟨h.view Topic.name (fun _ => rfl) ht, h.view Topic.type (fun _ => rfl) ht⟩

theorem sameTitles_attach (m c l) {side} (hside : side.isTopic = true) :
    SameTitles c m (m.attach l side) := by
  refine ⟨by rw [configuration_attach], Nat.le_of_eq (size_topics_attach ..).symm, fun t _ => ?_⟩
  cases side with
  | publishers | subscribers =>
    exact ⟨view_getD_modify _ _ Topic.name (fun x => by rfl) _ _,
      view_getD_modify _ _ Topic.type (fun x => by rfl) _ _⟩
  | _ => cases hside

theorem fits_congr {pattern type}
    (ht : (m'.topic t).name = (m.topic t).name ∧ (m'.topic t).type = (m.topic t).type)
    (h : topicRules.Fits m' pattern type t) : topicRules.Fits m pattern type t := by
  obtain ⟨p, hp, hmatch, htype⟩ := h
  refine ⟨p, hp, ?_, fun htyped => ?_⟩
  · rw [← hmatch]
    exact congrArg (fun n : Name => p.matchesStart n.full) ht.1.symm
  · rw [← htype htyped]
    exact ht.2.symm

theorem Mistaken.congr {t t'} (h : m.Mistaken hinted t t')
    (ht : (m'.topic t).name = (m.topic t).name ∧ (m'.topic t).type = (m.topic t).type)
    (ht' : (m'.topic t').name = (m.topic t').name ∧ (m'.topic t').type = (m.topic t').type) :
    m'.Mistaken hinted t t' := by
  obtain ⟨hhinted, hunresolved, pattern, hpattern, hunfit⟩ := h
  refine ⟨hhinted, by rwa [ht'.1], pattern, by rwa [ht'.1], fun hfits => hunfit ?_⟩
  rw [ht'.2] at hfits
  exact fits_congr ht hfits

theorem Distinct.of_titles (h : m.Distinct c hinted) (hm : SameTitles c m m') :
    m'.Distinct c hinted where
  index t ht := by
    rw [hm.topics] at ht
    exact Nat.lt_of_lt_of_le (h.index t ht) hm.size
  apart := by
    rw [hm.topics]
    refine h.apart.imp_of_mem fun {t t'} ht ht' hmistaken hname => ?_
    have htitle := hm.title t (h.index t ht)
    have htitle' := hm.title t' (h.index t' ht')
    rw [topicName, topicName, htitle.1, htitle'.1] at hname
    exact (hmistaken hname).congr htitle htitle'
  counts := by
    rw [hm.topics]
    exact h.counts.congr fun t ht => congrArg Name.full (hm.title t (h.index t ht)).1

/-! ## Listing a topic -/

theorem Distinct.listTopic (h : m.Distinct c hinted) (hc : c.index < m.configurations.size)
    (ht : t.index < m.topics.size) (htc : (m.topic t).configuration = c)
    (hnew : ∀ t' ∈ (m.configuration c).topics.all, m.topicName t' = m.topicName t →
      m.Mistaken hinted t' t) : (m.listTopic t).1.Distinct c hinted := by
  have htopics : ((m.listTopic t).1.configuration c).topics =
      ((m.configuration c).topics.add t (m.topicName t)
        (!(m.guardList (m.topic t).guards).isEmpty)).1 := by
    simp only [Model.listTopic, htc]
    rw [configuration, updateConfiguration, getD_modify_self _ _ _ hc]
  refine ⟨fun t' ht' => ?_, ?_, ?_⟩
  · rw [htopics] at ht'
    rcases mem_append.mp ht' with ht' | ht'
    · exact h.index t' ht'
    · rwa [mem_singleton.mp ht']
  · rw [htopics]
    have hsame : ∀ {t₁ t₂}, m.Mistaken hinted t₁ t₂ → (m.listTopic t).1.Mistaken hinted t₁ t₂ :=
      fun hm => hm.congr ⟨rfl, rfl⟩ ⟨rfl, rfl⟩
    refine pairwise_append.mpr ⟨?_, pairwise_singleton _ _, fun t' ht' t'' ht'' => ?_⟩
    · exact h.apart.imp fun hmistaken hname => hsame (hmistaken hname)
    · rw [mem_singleton.mp ht'']
      exact fun hname => hsame (hnew t' ht' hname)
  · rw [htopics]
    exact h.counts.add t _

/-! ## While a node is linked -/

/-- The node `r` is being linked, and the topics `hints` were made for hints. -/
structure Naming (m : Model) (c : Ref .configuration) (hinted : Prop) (r : Ref .inst)
    (hints : List (Ref .topic)) : Prop where
  distinct : m.Distinct c hinted
  place : c.index < m.configurations.size
  configuration : (m.inst r).configuration = c
  asking : hints ≠ [] → hinted
  asked : ∀ t ∈ hints, t.index < m.topics.size ∧ (m.topic t).configuration = c

theorem ne_of_lookup_eq_none {known name} (h : m.lookup known name = none) (ht : t ∈ known.all) :
    m.topicName t ≠ name := by
  intro hname
  have := find?_eq_none.mp h t (mem_reverse.mpr ht)
  simp [← hname, id?, Ref.entity] at this

namespace Naming

variable {r : Ref .inst} {hints : List (Ref .topic)}

theorem of_quiet (h : m.Naming c hinted r hints) (hm : Quiet m m') :
    m'.Naming c hinted r hints where
  distinct := h.distinct.of_titles (hm.sameTitles c)
  place := by
    rw [hm.size_configurations]
    exact h.place
  configuration := (hm.hushed.configuration_inst r).trans h.configuration
  asking := h.asking
  asked t ht := by
    obtain ⟨hindex, hconfiguration⟩ := h.asked t ht
    exact ⟨Nat.lt_of_lt_of_le hindex hm.size_store,
      (hm.hushed.configuration_topic hindex).trans hconfiguration⟩

theorem enterTopic (h : m.Naming c hinted r hints) {x} (hx : x.configuration = c)
    (hnew : ∀ t ∈ (m.configuration c).topics.all, m.topicName t = x.name.full → hinted ∧
      x.name.isUnresolved = true ∧ ∃ pattern, x.name.pattern = .ok pattern ∧
      ¬ topicRules.Fits m pattern x.type t) :
    ((m.addTopic x).1.listTopic ⟨m.topics.size⟩).1.Naming c hinted r hints := by
  have hadded := h.of_quiet (m.quiet_addTopic x)
  have hself : (m.addTopic x).1.topic ⟨m.topics.size⟩ = x := getD_push_size _ _ _
  have hlisted : ((m.addTopic x).1.listTopic ⟨m.topics.size⟩).1.Distinct c hinted := by
    refine hadded.distinct.listTopic hadded.place (by simp [addTopic]) (by rw [hself, hx]) ?_
    intro t ht hname
    have htitle := (m.quiet_addTopic x).sameTitles c |>.title t (h.distinct.index t ht)
    rw [topicName, topicName, htitle.1, hself] at hname
    obtain ⟨hhinted, hunresolved, pattern, hpattern, hunfit⟩ := hnew t ht hname
    refine ⟨hhinted, by rwa [hself], pattern, by rwa [hself], fun hfits => hunfit ?_⟩
    rw [hself] at hfits
    exact fits_congr htitle hfits
  refine ⟨hlisted, ?_, h.configuration, h.asking, hadded.asked⟩
  exact (Array.size_modify ..).symm ▸ h.place

theorem linker (c) (hinted : Prop) (r) :
    Linker topicRules Quiet c r (fun hints _ _ m => m.Naming c hinted r hints)
      (fun m => m.Distinct c hinted) where
  stop h := h.distinct
  guards m := m.quiet_addGuards []
  along h hm := h.of_quiet hm
  configuration h := h.configuration
  consult h := h
  forget h _ := h
  drop h _ := h
  addLink h _ _ _ := h.of_quiet (quiet_addLink _ _)
  enter {hints hs known m₀ m} n type hhs h hunmet hm := by
    have hguards : Quiet m₀ _ := hm.trans (m.quiet_addGuards [])
    refine (h.of_quiet hguards).enterTopic rfl fun t ht hname => ?_
    rw [hguards.list] at ht
    have hindex := h.distinct.index t ht
    rcases hunmet with ⟨hunresolved, hne, pattern, hpattern, hunfit⟩ | hnone
    · obtain ⟨t₁, ht₁⟩ := exists_mem_of_ne_nil hs hne
      have hhinted := h.asking (ne_nil_of_mem (hhs t₁ ht₁))
      refine ⟨hhinted, hunresolved, pattern, hpattern, fun hfits => hunfit t ht ?_⟩
      exact fits_congr ((hguards.sameTitles c).title t hindex) hfits
    · have hname₀ := congrArg Name.full ((hguards.sameTitles c).title t hindex).1
      exact absurd (hname₀.symm.trans hname) (ne_of_lookup_eq_none hnone ht)
  remap m hint n := m.quiet_remapTopic hint n
  adopt {hints known ls m hint n} h hhint _ hnew := by
    have hguards := m.quiet_addGuards (m.guardList (m.topic hint).guards)
    refine (h.of_quiet hguards).enterTopic (h.asked hint hhint).2 fun t ht hname => ?_
    have hlisted := (h.distinct.counts.contains_iff n.full).mpr (mem_map.mpr ⟨t, ht, hname⟩)
    exact absurd (hlisted.symm.trans hnew) Bool.noConfusion

theorem attach (h : m.Naming c hinted r hints) (l : Ref .link) {side}
    (hside : side.isTopic = true) : (m.attach l side).Naming c hinted r hints where
  distinct := h.distinct.of_titles (m.sameTitles_attach c l hside)
  place := by
    rw [size_configurations_attach]
    exact h.place
  configuration := by
    rw [configuration_inst_attach]
    exact h.configuration
  asking := h.asking
  asked t ht := by
    rw [size_topics_attach, configuration_topic_attach]
    exact h.asked t ht

theorem addHint (h : m.Naming c hinted r hints) (hhinted : hinted) (n type) :
    (topicRules.create m c n type).1.Naming c hinted r
      (hints ++ [(topicRules.create m c n type).2]) := by
  have hold := h.of_quiet (Linking.quiet_createTopic m c n type)
  refine { hold with asking := fun _ => hhinted, asked := fun t ht => ?_ }
  rcases mem_append.mp ht with ht | ht
  · exact hold.asked t ht
  · rw [mem_singleton.mp ht]
    have hself : (topicRules.create m c n type).1.topic ⟨m.topics.size⟩ = _ := getD_push_size _ _ _
    exact ⟨by simp [topicRules, addTopic], congrArg Topic.configuration hself⟩

end Naming

end Model

/-! ## The builder -/

def Hints.NamesTopics (v : Value) : Prop :=
  ∃ key es, (key = "advertise" ∨ key = "subscribe") ∧ Hints.sectionOf v key = .ok es ∧ es ≠ []

theorem Hints.distinct_link {c hinted s} (hc : s.configuration = c) {v}
    (hv : NamesTopics v → hinted) :
    Meets (fun w => w.model.Distinct c hinted ∧ w.model.Linked c ∧
        ∀ r, s.node = some r → r ∈ (w.model.configuration c).nodes.all)
      (fun _ w => w.model.Distinct c hinted) (fun _ w => w.model.Distinct c hinted)
      (Hints.link s v) := by
  rintro w ⟨hdistinct, hlinked, hnode⟩
  cases hr : s.node with
  | none =>
    rwa [exec_link_of_none hr]
  | some r =>
    have hnaming : w.model.Naming c hinted r [] :=
      ⟨hdistinct, hlinked.configuration, (hlinked.node r (hnode r hr)).2, fun h => absurd rfl h,
        forall_mem_nil _⟩
    have law := (Naming.linker c hinted r).topicLinker fun {_ _ l _ _ _} hside h => h.attach l hside
    refine law.meets_link hc (fun n type hkey hes hne h => ?_) hr w hnaming
    exact h.addHint (hv ⟨_, _, hkey, hes, hne⟩) n type

namespace Builder

def HintsTopics (b : Builder) : Prop :=
  ∃ node inst v, Hints.merge b.specs b.hints node inst = .ok v ∧ Hints.NamesTopics v

theorem hintsTopics_congr {b b' : Builder} (h : b'.specs = b.specs ∧ b'.hints = b.hints) :
    b'.HintsTopics = b.HintsTopics := by
  unfold HintsTopics
  rw [h.1, h.2]

theorem companion_distinct (c) :
    Companion Quiet c fun b => b.bench.model.Distinct c b.HintsTopics where
  onward {b b'} h hm := by
    rw [hintsTopics_congr hm.given]
    exact h.of_titles (hm.model.sameTitles c)
  configured _ _ _ hn ht _ := .updateConfiguration hn ht rfl
  started {s inner around b b'} _ h hst := by
    obtain ⟨-, hgiven, -, m, hm, hst⟩ := hst
    rw [hintsTopics_congr hgiven]
    refine (h.of_titles (hm.sameTitles c)).of_titles ⟨hst.topics_eq c, ?_, fun t _ => ?_⟩
    · exact Nat.le_of_eq (congrArg Array.size hst.topics.symm)
    · rw [hst.topic_eq]
      exact ⟨rfl, rfl⟩
  renamed n source target h :=
    h.of_titles ⟨rfl, Nat.le_refl _, fun _ _ => ⟨rfl, rfl⟩⟩
  link {s around b v node inst} hb h hmerge := by
    obtain ⟨hconfiguration, hnode, -⟩ := hb.bench.scopes s mem_cons_self
    have hnames : Hints.NamesTopics v → b.HintsTopics := fun hv => ⟨_, _, v, hmerge, hv⟩
    have hout := Hints.distinct_link hconfiguration hnames b.bench ⟨h, hb.bench.listed, hnode⟩
    rcases hexec : (Hints.link s v).exec b.bench with ⟨f | s', w⟩ <;> rw [hexec] at hout
    · exact hout
    · exact hout

theorem distinct_of_reachable {b} (h : Reachable b) :
    b.bench.model.Distinct b.configuration b.HintsTopics := by
  induction h with
  | start m name environment =>
    have hnew : (m.addConfiguration { name, environment }).1.configuration
        (m.addConfiguration { name, environment }).2 = { name, environment } := getD_push_size _ _ _
    refine ⟨?_, ?_, ?_⟩ <;> rw [hnew]
    · exact forall_mem_nil _
    · exact List.Pairwise.nil
    · exact Collection.counts_empty _
  | @launch b f h ih =>
    have hnext := (companion_distinct b.configuration).invariant.addLaunch f b
      ⟨sound_of_reachable h, ih⟩
    have hdistinct := hnext.2
    rwa [← hnext.1.configuration] at hdistinct

/-- In every state that a builder can be in, the topics of its configuration have different names,
up to mistakes that only hints lead to. -/
theorem topicNames_of_reachable {b : Builder} (h : Reachable b) :
    b.bench.model.TopicNames b.configuration b.HintsTopics :=
  (distinct_of_reachable h).topicNames

/-- A program that advertises two topics whose names it leaves open, and its launch file. -/
def fair : Model where
  packages := #[{ name := "fair" }]
  files := #[
    launchFile "fair" "all.launch"
      (some (.tag .launch "" ⟨[]⟩ [startTag "fair" "crier" "one"]))]
  nodes := #[
    { name := "crier", package := ⟨0⟩, packageName := "fair"
      advertise := [
        { name := some "?", type := some "fair/News", guards := ⟨0⟩ },
        { name := some "?", type := some "fair/Price", guards := ⟨0⟩ }] }]
  guards := #[[]]

/-- A builder for the launch file of `fair`, with some hints. -/
def crying (hints : Value) : Builder where
  files := default
  bench := { model := (fair.addConfiguration { name := "fair" }).1 }
  configuration := (fair.addConfiguration { name := "fair" }).2
  catalogue :=
    { packages := ⟨[("fair", ⟨0⟩)]⟩, files := [⟨0⟩], nodes := ⟨[("node:fair/crier", ⟨0⟩)]⟩ }
  search := .across []
  hints := hints

/-- A hint that the node also advertises a third topic. -/
def songHint : Value :=
  .record [(.text "/one",
    .record [(.text "advertise", .record [(.text "/song", .text "fair/Song")])])]

/-- The state after the launch file. -/
def cried (hints : Value) : Builder := ((addLaunch ⟨0⟩).exec (crying hints)).2

def topicsOf (b : Builder) : List String :=
  (b.bench.model.configuration b.configuration).topics.all.map b.bench.model.topicName

/-- Without a hint both calls lead to one topic, whose name is found. -/
theorem topicNames_of_reachable_cried :
    ¬ (cried .null).HintsTopics ∧ topicsOf (cried .null) = ["/?"] ∧
    (cried .null).bench.model.TopicNames (cried .null).configuration (cried .null).HintsTopics := by
  have hstart : Reachable (crying .null) := .start fair _ _ _ _ _ _ _ _
  have hnone : ¬ (crying .null).HintsTopics := by
    rintro ⟨node, inst, v, hmerge, key, es, -, hes, -⟩
    cases hmerge
    cases hes
  refine ⟨?_, by decide +kernel, topicNames_of_reachable (.launch ⟨0⟩ hstart)⟩
  rwa [cried, hintsTopics_congr (given_addLaunch hstart ⟨0⟩)]

/-- With a hint for another topic the two calls are told apart by their types, and each makes a
topic of the same name. -/
theorem two_topics_of_one_name :
    ((addLaunch ⟨0⟩).exec (crying songHint)).1 = .ok true ∧ Reachable (cried songHint) ∧
    topicsOf (cried songHint) = ["/?", "/?", "/song"] ∧
    ((cried songHint).bench.model.configuration
      (cried songHint).configuration).topics.collisions = 1 := by
  have hstart : Reachable (crying songHint) := .start fair _ _ _ _ _ _ _ _
  exact ⟨by decide +kernel, .launch ⟨0⟩ hstart, by decide +kernel, by decide +kernel⟩

end Builder

end RosAudit
