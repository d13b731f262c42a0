import RosAudit.Proofs.Configure.TopicLinks
import RosAudit.Proofs.Model.Serving

/-!
# Service links and the services of a configuration

Services are linked by the steps that link topics, with one difference : where a hint names a
service whose name a call leaves open, a copy of the service is listed and the links go to the
service itself. So a link may lead out of the configuration, to a service that is not listed, and
the listed copy keeps the empty group of servers that it was made with, until a call names it.

Still the links to services agree all the way through a launch file (`Builder.invariant_serviced`).
-/

namespace RosAudit

open Job Model LaunchScope List

instance : Steady Calm where
  addGuards _ _ := .of_eq rfl rfl rfl rfl
  extendGuards _ _ _ := .of_eq rfl rfl rfl rfl
  guardTopic _ _ _ := .of_eq rfl rfl rfl rfl
  guardService m t _ := m.calm_updateService t fun _ => rfl
  addNode _ _ _ := .of_eq rfl rfl rfl rfl
  addManifest := calm_addManifest
  addTopic _ _ := .of_eq rfl rfl rfl rfl
  addService := calm_addService
  addLink := calm_addLink
  makeParam _ _ _ := .of_eq rfl rfl rfl rfl
  copyParam _ _ := .of_eq rfl rfl rfl rfl
  listParam _ _ := .updateConfiguration (fun _ => rfl) (fun _ => rfl) rfl
  attachParam m l _ h := m.calm_attach l (LinkSide.of_isParam h).2

instance : TopicSteady Calm where
  listTopic _ _ := .updateConfiguration (fun _ => rfl) (fun _ => rfl) rfl
  attachTopic m l _ h := m.calm_attach l (LinkSide.of_isTopic h).1

/-! ## The parts of linking -/

def Hints.NamesServices (v : Value) : Prop :=
  ∃ key es, (key = "service" ∨ key = "client") ∧ Hints.sectionOf v key = .ok es ∧ es ≠ []

namespace Serving

variable {c : Ref .configuration} {hinted : Prop} {r : Ref .inst} {hints : List (Ref .service)}

abbrev On (c : Ref .configuration) (hinted : Prop) (r : Ref .inst) (hints : List (Ref .service))
    (w : Workbench) : Prop :=
  w.model.Serving c hinted r hints [] []

abbrev Stopped (c : Ref .configuration) (hinted : Prop) (_ : Fault) (w : Workbench) : Prop :=
  w.model.Serviced c hinted

theorem linker_serviceRules (c) (hinted : Prop) (r) :
    Linker serviceRules Calm c r (fun hints known ls m => m.Serving c hinted r hints known ls)
      (fun m => m.Serviced c hinted) where
  stop h := h.serviced
  guards m := Guarding.addGuards m []
  along h hc := h.of_calm hc
  configuration h := h.configuration
  consult h := { h with known := fun _ ht => .inl ht }
  forget h hknown := h.of_subset hknown (List.Subset.refl _)
  drop h hls := h.of_subset (List.Subset.refl _) hls.subset
  addLink h ht hnode htarget := h.addLink ht hnode htarget
  enter _ _ _ h _ hm :=
    (h.of_calm (hm.trans (Guarding.addGuards _ []))).enterService ⟨rfl, rfl, .inl rfl⟩
  remap m _ _ := Still.trans (Guarding.addGuards m _) (calm_addService _ _)
  adopt h hhint hn hnew :=
    (h.of_calm (Guarding.addGuards _ _)).adopt hhint hn hnew rfl

variable {s : LaunchScope}

theorem meets_resources (hc : s.configuration = c) (hints) {v} (hv : Hints.NamesServices v → hinted)
    {key} (hkey : key = "service" ∨ key = "client") :
    Meets (On c hinted r hints) (fun ts => On c hinted r (hints ++ ts)) (Stopped c hinted)
      (Hints.resources serviceRules s v key) :=
  (linker_serviceRules c hinted r).meets_resources hc hints fun _ _ hes hne h =>
    (h.of_calm (Guarding.addGuards _ [])).addHint (hv ⟨key, _, hkey, hes, hne⟩) rfl rfl rfl

theorem meets_make (hc : s.configuration = c) {v} (hv : Hints.NamesServices v → hinted) :
    Meets (On c hinted r []) (fun h => On c hinted r (h.service ++ h.client)) (Stopped c hinted)
      (Hints.make s v) := by
  have law := linker_serviceRules c hinted r
  have htopics : ∀ v key, Within (Workbench.Along Calm) (Hints.resources topicRules s v key) :=
    fun v key => (Hints.bounded_resources (fun c n type => within_change fun m =>
      drifts_topicRules.create m c n type) s v key).within
  refine of_ite (fun w hw => hw.serviced) ?_
  generalize hhints : (if v.truthy = true then v else Value.record []) = hints
  replace hv : Hints.NamesServices hints → hinted := by
    split at hhints
    · exact hhints ▸ hv
    · rintro ⟨key, es, -, hes, hne⟩
      subst hhints
      exact absurd (Except.ok.inj hes).symm hne
  refine law.meets_first (htopics _ _) (returns_true _) fun advertise _ => ?_
  refine law.meets_first (htopics _ _) (returns_true _) fun subscribe _ => ?_
  refine (meets_resources hc [] hv (.inl rfl)).bind fun service => ?_
  refine (meets_resources hc service hv (.inr rfl)).bind fun client => ?_
  exact meets_pure fun w hw => hw

end Serving

variable {s inner : LaunchScope}

theorem Hints.meets_linkServices {c hinted} (hc : s.configuration = c) {v}
    (hv : NamesServices v → hinted) :
    Meets (fun w => w.model.Serviced c hinted ∧ w.model.Linked c ∧
        ∀ r, s.node = some r → r ∈ (w.model.configuration c).nodes.all)
      (fun _ w => w.model.Serviced c hinted) (fun _ w => w.model.Serviced c hinted)
      (Hints.link s v) := by
  cases hr : s.node with
  | none =>
    intro w hw
    rw [exec_link_of_none hr]
    exact hw.1
  | some r =>
    have law := (Serving.linker_serviceRules c hinted r).serviceLinker fun hside h => h.attach hside
    have hstart : ∀ w : Workbench, (w.model.Serviced c hinted ∧ w.model.Linked c ∧
        ∀ r', some r = some r' → r' ∈ (w.model.configuration c).nodes.all) →
        Serving.On c hinted r [] w := by
      rintro w ⟨hserviced, hlinked, hnode⟩
      have hlisted := hnode r rfl
      obtain ⟨hindex, hconfiguration⟩ := hlinked.node r hlisted
      exact ⟨hserviced, hlinked.configuration, hlisted, hindex, hconfiguration,
        fun h => absurd rfl h, forall_mem_nil _, forall_mem_nil _, forall_mem_nil _⟩
    refine Meets.pre ?_ hstart
    refine (Serving.meets_make hc hv).bind fun h => ?_
    have htopics : s.Uses topicRules (Workbench.Along Calm) := uses_of_drifts s drifts_topicRules
    refine law.meets_first (bounded_makeTopics htopics TopicSteady.attachTopic _ _).within
      (returns_true _) fun _ _ => ?_
    refine (law.meets_makeServices hr fun t ht => ht).bind fun _ => ?_
    refine law.meets_first (h.bounded_makeMissing htopics TopicSteady.attachTopic).within
      (returns_true _) fun _ _ => ?_
    have hcalm : Within (Workbench.Along Calm) (s.noteParams [] []) :=
      (s.bounded_noteParams [] []).within
    exact hcalm.meets (returns_true _) (fun _ _ _ hw hm _ => (hw.of_calm hm).serviced)
      fun _ _ _ hw hm => (hw.of_calm hm).serviced

/-! ## The builder -/

theorem LaunchScope.Started.alike {m m'} (h : Started s m inner m')
    (hc : s.configuration.index < m.configurations.size)
    (hn : ∀ r ∈ (m.configuration s.configuration).nodes.all, r.index < m.instances.size) :
    Alike s.configuration m m' where
  nodes _ hr := (h.mem_nodes hc).mpr (.inl hr)
  side r hr _ _ := by rw [h.inst r (hn r hr)]
  fresh r hr hnew side _ := by
    obtain rfl := ((h.mem_nodes hc).mp hr).resolve_left hnew
    exact eq_nil_iff_forall_not_mem.mpr (h.not_mem_side side)
  services := by
    obtain ⟨nodes, -, hlist⟩ := h.listed
    rw [Model.configuration, hlist]
    exact view_getD_modify _ _ Configuration.services (fun k => by rfl) _ _
  size_services := Nat.le_of_eq (congrArg Array.size h.services.symm)
  core_service t _ := by rw [Model.service, h.services, Model.service]
  size_links := Nat.le_of_eq (congrArg Array.size h.links.symm)
  link l _ := h.link_eq l

namespace Builder

def HintsServices (b : Builder) : Prop :=
  ∃ node inst v, Hints.merge b.specs b.hints node inst = .ok v ∧ Hints.NamesServices v

/-- The links to the services of the configuration `c` agree, where `hinted` says whether the
builder was given hints for services. -/
structure Serviced (c : Ref .configuration) (hinted : Prop) (b : Builder) : Prop where
  model : b.bench.model.Serviced c hinted
  given : b.HintsServices ↔ hinted

variable {c : Ref .configuration} {hinted : Prop} {b b' : Builder}

theorem hintsServices_congr (h : b'.specs = b.specs ∧ b'.hints = b.hints) :
    b'.HintsServices ↔ b.HintsServices := by
  unfold HintsServices
  rw [h.1, h.2]

theorem Serviced.started (h : Serviced c hinted b) (hb : b.bench.model.Linked c)
    (hs : s.configuration = c) (hst : StartedFrom Calm s b inner b') : Serviced c hinted b' := by
  obtain ⟨-, hgiven, -, m, hcalm, hst⟩ := hst
  subst hs
  have halike : Alike s.configuration m b'.bench.model := by
    refine hst.alike ?_ fun r hr => ?_
    · rw [hcalm.size_configurations]
      exact hb.configuration
    · rw [hcalm.nodes] at hr
      rw [hcalm.size_instances]
      exact (hb.node r hr).1
  have hm := h.model.of_alike (hcalm.alike s.configuration)
  exact ⟨hm.of_alike halike, (hintsServices_congr hgiven).trans h.given⟩

theorem companion_serviced (c) (hinted : Prop) :
    Companion Calm c (Serviced c hinted) where
  onward h ha := ⟨h.model.of_alike (ha.model.alike c), (hintsServices_congr ha.given).trans h.given⟩
  configured _ _ _ hn _ hs := .updateConfiguration hn hs rfl
  started hb h hst :=
    h.started hb.bench.listed (hb.bench.scopes _ mem_cons_self).configuration hst
  renamed n source target h :=
    ⟨h.model.of_alike (alike_updateInstance _ c n fun {side} _ x => by cases side <;> rfl), h.given⟩
  link {s around b v node inst} hb h hmerge := by
    obtain ⟨hconfiguration, hnode, -⟩ := hb.bench.scopes s mem_cons_self
    have hhinted : Hints.NamesServices v → hinted :=
      fun hnames => h.given.mp ⟨_, _, v, hmerge, hnames⟩
    have hout := Hints.meets_linkServices hconfiguration hhinted b.bench
      ⟨h.model, hb.bench.listed, hnode⟩
    rcases hexec : (Hints.link s v).exec b.bench with ⟨f | s', w⟩ <;> rw [hexec] at hout <;>
      exact ⟨hout, h.given⟩

def Settled (c : Ref .configuration) (hinted : Prop) (around : List LaunchScope) (b : Builder) :
    Prop :=
  Sound c around b ∧ Serviced c hinted b

theorem settled_of_reachable (h : Reachable b) : Settled b.configuration b.HintsServices [] b := by
  induction h with
  | start m name environment =>
    exact ⟨sound_of_reachable (.start m name environment _ _ _ _ _ _),
      m.serviced_addConfiguration rfl rfl, Iff.rfl⟩
  | @launch b f h ih =>
    have hnext := (companion_serviced b.configuration b.HintsServices).invariant.addLaunch f b ih
    have hgiven := hnext.2.given
    rwa [← hnext.1.configuration, ← propext hgiven] at hnext

theorem hintsServices_addLaunch (h : Reachable b) (f : Ref .file) :
    ((addLaunch f).exec b).2.HintsServices ↔ b.HintsServices :=
  hintsServices_congr (given_addLaunch h f)

/-- In every state that a builder can be in, the links between the nodes and the services of its
configuration agree. Without hints that name services, every link of a node goes to a service of the
configuration, and the server of each service, if it has one, is a link that a node has. -/
theorem serviceLinks_of_reachable (h : Reachable b) :
    b.bench.model.ServiceLinks b.configuration b.HintsServices :=
  (settled_of_reachable h).2.model.toServiceLinks

/-- Programs that offer a service and call it. One of them leaves the name of its service open. -/
def quiz : Model where
  packages := #[{ name := "quiz" }]
  files := #[
    launchFile "quiz" "all.launch" (some (.tag .launch "" ⟨[]⟩
      [startTag "quiz" "guest" "one", startTag "quiz" "host" "two",
        startTag "quiz" "guest" "three"])),
    launchFile "quiz" "open.launch"
      (some (.tag .launch "" ⟨[]⟩ [startTag "quiz" "quizzer" "four"]))]
  nodes := #[
    { name := "host", package := ⟨0⟩, packageName := "quiz"
      service := [{ name := some "ask", type := some "quiz/Ask", guards := ⟨0⟩ }] },
    { name := "guest", package := ⟨0⟩, packageName := "quiz"
      client := [{ name := some "ask", type := some "quiz/Ask", guards := ⟨0⟩ }] },
    { name := "quizzer", package := ⟨0⟩, packageName := "quiz"
      service := [{ name := some "?", type := some "quiz/Ask", guards := ⟨0⟩ }] }]
  guards := #[[]]

def quizzing (hints : Value) : Builder where
  files := default
  bench := { model := (quiz.addConfiguration { name := "quiz" }).1 }
  configuration := (quiz.addConfiguration { name := "quiz" }).2
  catalogue :=
    { packages := ⟨[("quiz", ⟨0⟩)]⟩, files := [⟨0⟩, ⟨1⟩]
      nodes := ⟨[("node:quiz/host", ⟨0⟩), ("node:quiz/guest", ⟨1⟩), ("node:quiz/quizzer", ⟨2⟩)]⟩ }
  search := .across []
  hints := hints

def answered : Builder := ((addLaunch ⟨0⟩).exec (quizzing .null)).2

/-- A service that is called before it is offered. Its clients and its server are links of the
nodes. -/
theorem serviceLinks_of_reachable_answered :
    ¬ answered.HintsServices ∧
    (answered.bench.model.configuration answered.configuration).services.all = [⟨0⟩] ∧
    (answered.bench.model.service ⟨0⟩).server = .one ⟨1⟩ ∧
    (answered.bench.model.service ⟨0⟩).clients = [⟨0⟩, ⟨2⟩] ∧
    answered.bench.model.ServiceLinks answered.configuration answered.HintsServices := by
  have hstart : Reachable (quizzing .null) := .start quiz _ _ _ _ _ _ _ _
  have hnone : ¬ (quizzing .null).HintsServices := by
    rintro ⟨node, inst, v, hmerge, key, es, -, hes, -⟩
    cases hmerge
    cases hes
  refine ⟨mt (hintsServices_addLaunch hstart ⟨0⟩).mp hnone, by decide +kernel, by decide +kernel,
    by decide +kernel, ?_⟩
  exact serviceLinks_of_reachable (.launch ⟨0⟩ hstart)

def askHint : Value :=
  .record [(.text "/four", .record [(.text "service", .record [(.text "/ask", .text "quiz/Ask")])])]

/-- The state after the second launch file, with the hint. -/
def overheard : Builder := ((addLaunch ⟨1⟩).exec (quizzing askHint)).2

/-- With a hint for a service whose name a call leaves open, the link of the node goes to a service
that is not listed, and the service that is listed for it has a group of servers that cannot be
traced. -/
theorem link_outside_configuration :
    ((addLaunch ⟨1⟩).exec (quizzing askHint)).1 = .ok true ∧ Reachable overheard ∧
    (overheard.bench.model.configuration overheard.configuration).nodes.all = [⟨0⟩] ∧
    (overheard.bench.model.inst ⟨0⟩).servers = [⟨0⟩] ∧
    (overheard.bench.model.link ⟨0⟩).target = (⟨0⟩ : Ref .service).entity ∧
    (overheard.bench.model.configuration overheard.configuration).services.all = [⟨1⟩] ∧
    (overheard.bench.model.service ⟨1⟩).server = .empty ∧
    overheard.bench.model.traceability (⟨1⟩ : Ref .service).entity = .error .noField := by
  have hstart : Reachable (quizzing askHint) := .start quiz _ _ _ _ _ _ _ _
  refine ⟨by decide +kernel, .launch ⟨1⟩ hstart, by decide +kernel, by decide +kernel,
    by decide +kernel, by decide +kernel, by decide +kernel, ?_⟩
  have hserver : (overheard.bench.model.service ⟨1⟩).server = .empty := by decide +kernel
  simp only [traceability, Ref.entity, hserver]
  rfl

end Builder

end RosAudit
