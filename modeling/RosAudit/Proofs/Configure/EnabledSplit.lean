import RosAudit.View.Model
import RosAudit.Proofs.Configure.DecidingLinks
import RosAudit.Proofs.Configure.Upkeep

/-!
# What counts as enabled

Whether a resource of a configuration counts as enabled or as conditional is settled when it is
listed. No tag of a launch file states a guard, so nodes and parameters are listed without guards
and stay so. Topics and services are listed without guards as well, but then take over those of the
calls that lead to them. So nothing at all is listed as conditional, and the split is wrong for
every topic or service that has guards in the end.
-/

namespace RosAudit

open Job Model List

/-! ## Scopes -/

/-- A link that is noted for later is one of a node without guards, and no hint is asked for it. -/
structure FutureLink.Plain (f : FutureLink) (c : Ref .configuration) (m : Model) : Prop where
  hints : f.hints = []
  node : m.Clear f.node
  owner : m.ownerOf f.node = c

/-- A scope without guards, and so is its node. -/
structure LaunchScope.Plain (s : LaunchScope) (c : Ref .configuration) (m : Model) : Prop where
  configuration : s.configuration = c
  guards : s.guards = []
  node : ∀ n, s.node = some n → m.Clear n ∧ m.ownerOf n = c
  future : ∀ f ∈ s.future, f.Plain c m

theorem FutureLink.Plain.spares {f : FutureLink} {c m m'} (h : f.Plain c m) (hm : Spares m m') :
    f.Plain c m' :=
  ⟨h.hints, hm.clear h.node, (hm.same h.node).2.trans h.owner⟩

namespace LaunchScope

variable {s : LaunchScope} {c : Ref .configuration} {m m' : Model}

theorem Plain.spares (h : s.Plain c m) (hm : Spares m m') : s.Plain c m' :=
  { h with
    node := fun n hn => by
      obtain ⟨hclear, howner⟩ := h.node n hn
      exact ⟨hm.clear hclear, (hm.same hclear).2.trans howner⟩
    future := fun f hf => (h.future f hf).spares hm }

theorem Plain.of_core {s' : LaunchScope} (h : s.Plain c m) (hs : s'.core = s.core) :
    s'.Plain c m := by
  have hcore : s.core.Plain c m := ⟨h.configuration, h.guards, h.node, h.future⟩
  rw [← hs] at hcore
  exact ⟨hcore.configuration, hcore.guards, hcore.node, hcore.future⟩

theorem guarded_none (h : s.guards = []) : s.guarded none = [] := by
  rw [guarded, h]
  rfl

theorem Plain.child (h : s.Plain c m) {ns launch inner}
    (hinner : s.child m ns none launch = .ok inner) (m' : Model) : inner.Plain c m' := by
  obtain ⟨space, -, hinner⟩ := bind_eq_ok.mp hinner
  cases hinner
  exact ⟨h.configuration, guarded_none h.guards, fun _ hn => (nomatch hn), forall_mem_nil _⟩

end LaunchScope

/-! ## The workbench -/

/-- All that the configuration `c` lists is clear and was listed as enabled. All that waits to be
listed is clear, and the open scopes have no guards. -/
def plainDemands (c : Ref .configuration) : Demands where
  listed m := c.index < m.configurations.size ∧ m.ListsAll c
  param m p := m.Clear p
  future m f := f.Plain c m
  scope m s := s.Plain c m

abbrev Workbench.Plain (c : Ref .configuration) := (plainDemands c).OnBench

theorem Model.Attends.kept {m m'} (h : Attends m m') (c) :
    (plainDemands c).Kept m m' where
  listed hm := ⟨h.size ▸ hm.1, hm.2.attends h⟩
  param p hp := h.spares.clear (r := p) hp
  future _ hf := hf.spares h.spares
  scope _ hs := hs.spares h.spares

section Bench

variable {c : Ref .configuration} {future : List FutureLink} {around : List LaunchScope}
  {s : LaunchScope}

namespace Workbench.Plain

variable {w w' : Workbench} {m : Model}

theorem orderly (h : w.Plain c future around) (hm : Orderly w.model w'.model c)
    (hparams : w'.params = w.params) : w'.Plain c future around :=
  h.moved ⟨fun _ => ⟨hm.place, hm.listed⟩, fun p hp => hm.since.clear (r := p) hp,
    fun _ hf => hf.spares hm.since, fun _ hs => hs.spares hm.since⟩ hparams

theorem attends (h : w.Plain c future around) (hm : Attends w.model m) :
    Workbench.Plain c future around { w with model := m } :=
  h.moved (hm.kept c) rfl

theorem filing (h : w.Plain c future around) {r} (hr : w.model.Clear r)
    (howner : w.model.ownerOf r = c) :
    Filing w.model w.model c r (w.model.inst r).remaps [] :=
  ⟨⟨Spares.refl _, h.listed.1, h.listed.2⟩, hr, howner, rfl, fun _ ht => (nomatch ht)⟩

end Workbench.Plain

namespace LaunchScope

/-! ## Setting parameters -/

theorem keeping_setPlain {p g} (hp : p.guards = g) (s : LaunchScope) (later) :
    Within (Keeping fun w => w.Plain c future around ∧ w.model.Bare g) (do
      let r ← change fun m => m.makeParam p
      s.hold later r) := by
  subst hp
  rintro w ⟨hw, hbare⟩
  have hmade := made_makeParam hbare
  have hw : Workbench.Plain c future around { w with model := (w.model.makeParam p).1 } :=
    hw.attends hmade.grows.attends
  rw [exec_bind, exec_change]
  dsimp only
  refine ⟨hw.hold hmade.clear s later, ?_⟩
  unfold hold
  split <;> exact hmade.grows.spares.bare _ hbare

/-- Parameters are set with a list of guards that is made for them and is empty. -/
theorem keeping_afterGuards {α : Type} {f : Ref .guards → Job Workbench α}
    (hf : ∀ g, Within (Keeping fun w => w.Plain c future around ∧ w.model.Bare g) (f g)) :
    Within (Keeping (Workbench.Plain c future around))
      (change (fun m => m.addGuards []) >>= f) := by
  intro w hw
  have hstart : Workbench.Plain c future around { w with model := (w.model.addGuards []).1 } :=
    hw.attends (w.model.grows_addGuards []).attends
  exact (hf _ _ ⟨hstart, w.model.bare_addGuards⟩).1

theorem keeping_setLeaves_nil (s : LaunchScope) (name v mayHold) :
    Within (Keeping (Workbench.Plain c future around)) (s.setLeaves name v [] mayHold) := by
  refine within_get.bind fun w => (within_ofResult _).bind fun leaves => ?_
  refine keeping_afterGuards fun g => chains_within.foldlM (fun s' leaf => ?_) leaves s
  refine (within_ofResult _).bind fun full => ?_
  exact keeping_setPlain (by rfl) s' _

theorem keeping_setParam_none (hs : s.guards = []) (name type text) :
    Within (Keeping (Workbench.Plain c future around)) (s.setParam name type text none) := by
  unfold setParam
  rw [guarded_none hs]
  extract_lets converted
  rcases converted with u | ⟨value, type⟩
  · exact within_pure _
  · refine of_ite ?_ ?_
    · exact (s.keeping_setLeaves_nil _ _ _).bind fun s => within_pure _
    · refine within_get.bind fun w => (within_ofResult _).bind fun full => ?_
      refine keeping_afterGuards fun g => ?_
      exact (keeping_setPlain (by rfl) s _).bind fun _ => within_pure _

theorem keeping_setDocument_none (hs : s.guards = []) (name ns document) :
    Within (Keeping (Workbench.Plain c future around)) (s.setDocument name ns document none) := by
  refine s.within_setDocument_of (fun name v => ?_) name ns document
  rw [guarded_none hs]
  exact s.keeping_setLeaves_nil name v false

/-! ## Starting and linking a node -/

theorem plain_makeNode (hs : s ∈ around) (node name ns argv) :
    Meets (Workbench.Plain c future around)
      (fun inner => Workbench.Plain c future (inner :: around))
      (fun _ => Workbench.Plain c future around) (s.makeNode node name ns argv none) := by
  refine meets_get fun w hw => ?_
  have hscope := hw.scopes s hs
  rw [guarded_none hscope.guards]
  refine (meets_ofResult (Q := fun _ w' => w' = w) (fun _ _ hw' _ => hw') fun _ _ hw' =>
    hw' ▸ hw).bind fun e => ?_
  rintro w' rfl
  obtain ⟨hspares, hsize, hclear, howner, hlists⟩ := w'.model.startInstance_nil
    (x := fun guards =>
      { configuration := s.configuration, name := e.2, node, launch := some s.launch, argv,
        remaps := s.remapsIn w'.model, guards })
    (fun _ => rfl) c fun _ => hscope.configuration
  refine Demands.OnBench.push
    (hw.orderly ⟨hspares, hsize ▸ hw.listed.1, hlists hw.listed.2⟩ rfl) ?_
  refine ⟨hscope.configuration, rfl, fun n hn => ?_, forall_mem_nil _⟩
  cases hn
  exact ⟨hclear, howner⟩

theorem plain_rename (source target : String) :
    Meets (Workbench.Plain c future (s :: around)) (fun s' =>
      Workbench.Plain c future (s' :: around))
      (fun _ => Workbench.Plain c future (s :: around)) (s.rename source target) := by
  intro w hw
  unfold LaunchScope.rename
  cases hn : s.node with
  | some n =>
    refine hw.attends (Spares.attends ?_ rfl)
    exact w.model.spares_updateInstance n fun _ => ⟨rfl, rfl, rfl⟩
  | none =>
    have hs := hw.scopes s mem_cons_self
    exact hw.close.push ⟨hs.configuration, hs.guards, fun _ h => (nomatch h), hs.future⟩

end LaunchScope

def Workbench.SameParams (w w' : Workbench) : Prop := w'.params = w.params

instance : Workbench.Follows Anyhow Workbench.SameParams where
  refl _ := rfl
  trans _ _ _ h h' := Eq.trans h' h
  model _ _ _ := rfl

theorem Hints.plain_link (hs : s ∈ around) (v : Value) :
    Meets (Workbench.Plain c future around)
      (fun s' w => w.Plain c future around ∧ ∀ f ∈ s'.future, f.Plain c w.model)
      (fun _ => Workbench.Plain c future around) (Hints.link s v) := by
  intro w hw
  have hscope := hw.scopes s hs
  cases hr : s.node with
  | none =>
    rwa [exec_link_of_none hr]
  | some r =>
    obtain ⟨hclear, howner⟩ := hscope.node r hr
    have hlinked := filing_link hscope.configuration hr v w (hw.filing hclear howner)
    have hparams : Within Workbench.SameParams (Hints.link s v) :=
      (bounded_link s v).within
    rcases hexec : (Hints.link s v).exec w with ⟨f | s', w'⟩ <;> rw [hexec] at hlinked
    · exact hw.orderly hlinked (hparams.of_exec hexec)
    · have hw' := hw.orderly hlinked (hparams.of_exec hexec)
      refine ⟨hw', fun f hf => ?_⟩
      rcases returns_link s v w s' w' hexec f hf with hf | ⟨hnode, -, hhints⟩
      · exact (hw'.scopes s hs).future f hf
      · obtain ⟨hclear', howner'⟩ := (hw'.scopes s hs).node _ hnode
        exact ⟨hhints, hclear', howner'⟩

theorem FutureLink.keeping_make {f} (hf : f ∈ future) :
    Within (Keeping (Workbench.Plain c future around)) f.make := by
  intro w hw
  have hplain := hw.future f hf
  have hmade := filing_make hplain.hints w (hw.filing hplain.node hplain.owner)
  have hparams : Within Workbench.SameParams f.make := (f.bounded_make fun _ _ => trivial).within
  rcases hexec : f.make.exec w with ⟨e | u, w'⟩ <;> rw [hexec] at hmade <;>
    exact hw.orderly hmade (hparams.of_exec hexec)

end Bench

/-! ## Launch files -/

namespace Builder

theorem upkeep_plainDemands (c) : Upkeep (plainDemands c) c where
  addManifest m x := (m.grows_addManifest x none).attends.kept c
  addNode m n := (m.grows_addNode n).attends.kept c
  configured m c' f hf := by
    refine (m.attends_updateConfiguration c' fun x k => ?_).kept c
    obtain ⟨hnodes, htopics, hservices, hparams⟩ := hf x
    cases k with
    | inst => exact hnodes
    | topic => exact htopics
    | service => exact hservices
    | param => exact hparams
    | _ => rfl
  core h hs := h.of_core hs
  child h hinner := h.child hinner
  root _ _ := ⟨rfl, rfl, fun _ hn => (nomatch hn), forall_mem_nil _⟩
  setParam name type text hs w hw :=
    LaunchScope.keeping_setParam_none (hw.scopes _ hs).guards name type text w hw
  setDocument name ns document hs w hw :=
    LaunchScope.keeping_setDocument_none (hw.scopes _ hs).guards name ns document w hw
  makeNode node name ns argv hs := LaunchScope.plain_makeNode hs node name ns argv
  rename _ _ := LaunchScope.plain_rename _ _
  link v hs := Hints.plain_link hs v
  listParam {m p} hm (hp : m.Clear p) := by
    have hspares := m.spares_enrol p
    have hlisted := lists_enrol hm.2 hp (Holds.getD hp default)
    exact ⟨fun _ => ⟨Array.size_modify.symm ▸ hm.1, hlisted⟩, fun q hq => hspares.clear (r := q) hq,
      fun _ hf => hf.spares hspares, fun _ hs => hs.spares hspares⟩
  make hf := FutureLink.keeping_make hf

theorem listsAll_of_reachable {b} (h : Reachable b) : b.bench.model.ListsAll b.configuration := by
  refine (meeting_of_reachable upkeep_plainDemands (fun hindex hnew => ⟨hindex, fun k => ?_⟩)
    h).bench.listed.2
  rw [hnew]
  cases k <;> exact ⟨rfl, rfl, rfl, forall_mem_nil _⟩

/-- The guards of a topic that a builder lists can be settled, since no node has any. -/
theorem gatherable_of_reachable {b} (h : Reachable b) {t}
    (ht : t ∈ (b.bench.model.configuration b.configuration).topics.all) :
    b.bench.model.Gatherable t := by
  obtain ⟨x, hx, hlinks⟩ := (listsAll_of_reachable h .topic).clear t ht
  have htopic : b.bench.model.topic t = x := by
    rw [topic, Array.getD_eq_getD_getElem?, hx, Option.getD_some]
  have hbare : ∀ l ∈ (b.bench.model.topic t).links,
      b.bench.model.Bare (b.bench.model.inst (b.bench.model.link l).node).guards := fun l hl =>
    Holds.getD (Holds.getD (hlinks l (htopic ▸ hl)) default) default
  exact ⟨(Array.getElem?_eq_some_iff.mp hx).1,
    fun l hl => (Array.getElem?_eq_some_iff.mp (hbare l hl)).1,
    .inl fun l hl => congrArg List.isEmpty (hbare l hl).guardList⟩

end Builder

/-! ## The split -/

namespace Model

variable {m : Model} {k : EntityKind} {known : Collection k}

/-- Those without guards are listed as enabled, and the others as conditional. -/
structure Sorts (m : Model) (known : Collection k) : Prop where
  enabled : known.enabled = known.all.filter fun r => (m.guardsOf r.entity).isEmpty
  conditional : known.conditional = known.all.filter fun r => !(m.guardsOf r.entity).isEmpty

theorem Lists.sorts_iff (h : m.Lists known) :
    m.Sorts known ↔ ∀ r ∈ known.all, m.guardsOf r.entity = [] := by
  constructor
  · intro hsorts r hr
    rw [← h.enabled, hsorts.enabled] at hr
    exact List.isEmpty_iff.mp (mem_filter.mp hr).2
  · refine fun hnone => ⟨?_, ?_⟩
    · rw [h.enabled, filter_eq_self.mpr fun r hr => List.isEmpty_iff.mpr (hnone r hr)]
    · rw [h.conditional, filter_eq_nil_iff.mpr fun r hr => by simp [hnone r hr]]

/-- What a configuration lists as what. Everything counts as enabled, nothing as conditional, and
the partly unknown names are told apart. This is right for nodes and parameters, and for topics and
services exactly as long as none of them has guards. -/
structure EnabledSplit (m : Model) (x : Configuration) : Prop where
  enabled : ∀ k, (x.listing k).enabled = (x.listing k).all
  conditional : ∀ k, (x.listing k).conditional = []
  unresolved : ∀ k, (x.listing k).unresolved =
    (x.listing k).all.filter fun r => (m.title r).toList.contains '?'
  nodes : m.Sorts x.nodes
  params : m.Sorts x.params
  topics : m.Sorts x.topics ↔ ∀ t ∈ x.topics.all, m.guardsOf t.entity = []
  services : m.Sorts x.services ↔ ∀ t ∈ x.services.all, m.guardsOf t.entity = []

theorem ListsAll.enabledSplit {c} (h : m.ListsAll c) :
    m.EnabledSplit (m.configuration c) where
  enabled k := (h k).enabled
  conditional k := (h k).conditional
  unresolved k := (h k).unresolved
  nodes := (h .inst).sorts_iff.mpr fun r hr => ClearNode.guardList ((h .inst).clear r hr)
  params := (h .param).sorts_iff.mpr fun r hr =>
    Bare.guardList (Holds.getD ((h .param).clear r hr) default)
  topics := (h .topic).sorts_iff
  services := (h .service).sorts_iff

end Model

namespace Builder

/-- What a configuration lists as what, after any number of launch files. -/
theorem enabledSplit_of_reachable {b : Builder} (h : Reachable b) :
    b.bench.model.EnabledSplit (b.bench.model.configuration b.configuration) :=
  (listsAll_of_reachable h).enabledSplit

/-- A program that advertises a topic always and another under a guard, and its launch file. -/
def tower : Model where
  packages := #[{ name := "tower" }]
  files := #[
    launchFile "tower" "all.launch"
      (some (.tag .launch "" ⟨[]⟩ [startTag "tower" "ringer" "one"]))]
  nodes := #[
    { name := "ringer", package := ⟨0⟩, packageName := "tower"
      advertise := [
        { name := some "toll", type := some "tower/Bell", guards := ⟨0⟩ },
        { name := some "chime", type := some "tower/Bell", guards := ⟨1⟩ }] }]
  guards := #[[], [.source (.text "noon") none]]

/-- A builder for the launch file of `tower`. -/
def ringing : Builder where
  files := default
  bench := { model := (tower.addConfiguration { name := "tower" }).1 }
  configuration := (tower.addConfiguration { name := "tower" }).2
  catalogue :=
    { packages := ⟨[("tower", ⟨0⟩)]⟩, files := [⟨0⟩], nodes := ⟨[("node:tower/ringer", ⟨0⟩)]⟩ }
  search := .across []

/-- The state after the launch file. -/
def rung : Builder := ((addLaunch ⟨0⟩).exec ringing).2

/-- The configuration after the launch file. -/
def rungConfiguration : Configuration := rung.bench.model.configuration rung.configuration

theorem enabledSplit_of_reachable_rung :
    rungConfiguration.nodes.all.map rung.bench.model.title = ["/one"] ∧
    rungConfiguration.topics.all.map rung.bench.model.title = ["/toll", "/chime"] ∧
    rung.bench.model.EnabledSplit rungConfiguration := by
  have hstart : Reachable ringing := .start tower _ _ _ _ _ _ _ _
  exact ⟨by decide +kernel, by decide +kernel, enabledSplit_of_reachable (.launch ⟨0⟩ hstart)⟩

/-- A topic that has guards in the end was listed as enabled. -/
theorem guarded_topic_enabled :
    ((addLaunch ⟨0⟩).exec ringing).1 = .ok true ∧ Reachable rung ∧
    rungConfiguration.topics.enabled.map rung.bench.model.title = ["/toll", "/chime"] ∧
    rungConfiguration.topics.all.map (fun t =>
      (rung.bench.model.guardsOf t.entity).map Guard.shown) = [[], ["noon"]] ∧
    ¬ rung.bench.model.Sorts rungConfiguration.topics := by
  have hstart : Reachable ringing := .start tower _ _ _ _ _ _ _ _
  refine ⟨by decide +kernel, .launch ⟨0⟩ hstart, by decide +kernel, by decide +kernel, ?_⟩
  exact fun h => absurd h.enabled (by decide +kernel)

end Builder

end RosAudit
