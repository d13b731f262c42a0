import RosAudit.Proofs.Configure.Frame.Scope

/-!
# What linking changes

Linking a resource makes it or a copy of it, lists it, and makes and attaches links. `TopicSteady R`
and `ServiceSteady R` say that a relation between models holds when topics or services are listed
and linked, and `Hints.bounded_link` that linking a node to all its resources moves the model along
every relation that is both. Services are linked quietly, so that a relation with `Drift R` is
`ServiceSteady R`. `TopicDrift R` holds along the linking of topics as well.

`ResourceRules.Drifts` states what is asked of a kind of resource, so that finding and making
resources is looked at once for all three kinds (`bounded_linksFor`).
-/

namespace RosAudit

open Job Model LaunchScope

/-- A relation that holds whenever something is made, and when topics are listed and linked. -/
class TopicSteady (R : Model → Model → Prop) : Prop extends Making R where
  listTopic (m : Model) (r : Ref .topic) : R m (m.listTopic r).1
  attachTopic (m : Model) (l : Ref .link) {side : LinkSide} (h : side.isTopic = true) :
    R m (m.attach l side)

/-- A relation that holds whenever something is made, and when services are listed and linked. -/
class ServiceSteady (R : Model → Model → Prop) : Prop extends Making R where
  listService (m : Model) (r : Ref .service) : R m (m.listService r).1
  attachService (m : Model) (l : Ref .link) {side : LinkSide} (h : side.isService = true) :
    R m (m.attach l side)

/-- A relation that holds along quiet changes, and when topics are listed and links attached. -/
class TopicDrift (R : Model → Model → Prop) : Prop extends Drift R where
  listTopic (m : Model) (r : Ref .topic) : R m (m.listTopic r).1
  attach (m : Model) (l : Ref .link) (side : LinkSide) : R m (m.attach l side)

variable {R : Model → Model → Prop} {T : Workbench → Workbench → Prop}

instance [Drift R] : ServiceSteady R where
  listService _ _ := Drift.of_quiet (.updateConfiguration (fun _ => rfl) (fun _ => rfl) rfl)
  attachService m l _ h := Drift.of_quiet (m.quiet_attach l (LinkSide.of_isService h).1)

instance [TopicDrift R] : TopicSteady R where
  listTopic := TopicDrift.listTopic
  attachTopic m l side _ := TopicDrift.attach m l side

/-- The model may change in any way. -/
def Model.Anyhow (_ _ : Model) : Prop := True

instance : TopicDrift Anyhow where
  refl _ := trivial
  trans _ _ _ _ _ := trivial
  of_quiet _ := trivial
  listTopic _ _ := trivial
  attach _ _ _ := trivial

/-! ## Finding and making resources -/

/-- Making, listing and copying resources stays along `R`. -/
structure ResourceRules.Drifts {k : EntityKind} (rules : ResourceRules k)
    (R : Model → Model → Prop) : Prop where
  create (m : Model) (c : Ref .configuration) (n : Name) (type : Option String) :
    R m (rules.create m c n type).1
  list (m : Model) (r : Ref k) : R m (rules.list m r).1
  remap (m : Model) (r : Ref k) (n : Name) : R m (rules.remap m r n).1

theorem drifts_paramRules [Steady R] : paramRules.Drifts R where
  create m _ _ _ := trans_of R (Guarding.addGuards m []) (Steady.copyParam _ _)
  list m r := Steady.listParam m r
  remap m _ _ := trans_of R (Guarding.addGuards m _) (Steady.copyParam _ _)

theorem drifts_serviceRules [ServiceSteady R] : serviceRules.Drifts R where
  create m _ _ _ := trans_of R (Guarding.addGuards m []) (Making.addService _ _)
  list m r := ServiceSteady.listService m r
  remap m _ _ := trans_of R (Guarding.addGuards m _) (Making.addService _ _)

theorem drifts_topicRules [TopicSteady R] : topicRules.Drifts R where
  create m _ _ _ := trans_of R (Guarding.addGuards m []) (Making.addTopic _ _)
  list m r := TopicSteady.listTopic m r
  remap m _ _ := trans_of R (Guarding.addGuards m _) (Making.addTopic _ _)

theorem bounded_candidates {S} [IsPreorder Workbench S] {k rules} (pattern : String)
    (type : Option String) (rs : List (Ref k)) :
    Bounded S Fault.Stops (candidates rules pattern type rs) := by
  refine of_ite (bounded_pure _) ?_
  refine (bounded_ofResult (Pattern.fails_parse pattern)).bind fun p => ?_
  exact bounded_get.bind fun w => bounded_pure _

section Links

variable {k : EntityKind} {rules : ResourceRules k}

theorem bounded_linkTo [Making R] [Workbench.Follows R T] (u : Usage) (r : Ref k) :
    Bounded T Fault.Stops (linkTo rules u r) := by
  unfold linkTo
  extract_lets next
  have hnext : ∀ g, Bounded T Fault.Stops (next g) :=
    fun g => bounded_change fun m => Making.addLink m _
  split
  · exact (bounded_pure _).bind hnext
  · exact Bounded.bind (bounded_change fun m => Guarding.addGuards m _) hnext

theorem bounded_linkHints [Making R] [Workbench.Follows R T] (hrules : rules.Drifts R) (u : Usage) :
    ∀ hints : List (Ref k), Bounded T Fault.Stops (linkHints rules u hints)
  | [] => bounded_pure []
  | hint :: hints => by
    refine bounded_get.bind fun w => ?_
    refine (bounded_ofResult (Name.fails_make _ _ _ _)).bind fun name => ?_
    refine Bounded.bind (bounded_change fun m => hrules.remap m hint name) fun copy => ?_
    refine of_ite (bounded_linkHints hrules u hints) ?_
    refine Bounded.bind (bounded_change fun m => hrules.list m copy) fun _ => ?_
    refine (bounded_linkTo u _).bind fun l => ?_
    exact (bounded_linkHints hrules u hints).bind fun ls => bounded_pure (l :: ls)

theorem bounded_linksFor [Making R] [Workbench.Follows R T] (hrules : rules.Drifts R) (u : Usage)
    (hints : List (Ref k)) : Bounded T Fault.Stops (linksFor rules u hints) := by
  refine bounded_get.bind fun w => ?_
  extract_lets m configuration known next
  have hnext : ∀ links, Bounded T Fault.Stops (next links) := by
    intro links
    refine of_ite ?_ (bounded_pure links)
    refine Bounded.bind (bounded_change fun m => hrules.create m _ _ _) fun r => ?_
    refine Bounded.bind (bounded_change fun m => hrules.list m r) fun _ => ?_
    exact (bounded_linkTo u r).bind fun l => bounded_pure [l]
  refine of_ite ?_ ?_
  · refine (bounded_ofResult (Name.fails_pattern _)).bind fun pattern => ?_
    refine (bounded_candidates _ _ _).bind fun here => ?_
    refine (chains_bounded.mapM fun r _ => bounded_linkTo u r).bind fun ls => ?_
    refine (bounded_candidates _ _ _).bind fun there => ?_
    refine (bounded_linkHints hrules u there).bind fun ls' => ?_
    exact (bounded_pure _).bind hnext
  · split
    · refine (bounded_linkTo u _).bind fun l => ?_
      exact (bounded_pure _).bind hnext
    · exact (bounded_pure _).bind hnext

end Links

/-! ## Guards of resources -/

section Guards

variable [Guarding R]

theorem along_gatherGuards {assign current} (hassign : ∀ m g, R m (assign m g)) :
    ∀ ls m,
    R m (gatherGuards assign current ls m)
  | [], m => refl_of R m
  | l :: ls, m => by
    simp only [gatherGuards]
    split
    · exact hassign m _
    · exact trans_of R (trans_of R (Guarding.extendGuards m _ _) (Guarding.extendGuards _ _ _))
        (along_gatherGuards hassign ls _)

theorem along_settleTopic (r m) : R m (settleTopic r m) := by
  have hassign := fun m g => Guarding.guardTopic (R := R) m r g
  have hstart := trans_of R (Guarding.addGuards m []) (hassign _ (m.addGuards []).2)
  exact trans_of R hstart
    (trans_of R (along_gatherGuards hassign _ _) (along_gatherGuards hassign _ _))

theorem along_settleService {r m m'} (h : settleService r m = .ok m') : R m m' := by
  have hassign := fun m g => Guarding.guardService (R := R) m r g
  have hstart := trans_of R (Guarding.addGuards m []) (hassign _ (m.addGuards []).2)
  unfold settleService at h
  dsimp only at h
  split at h
  · cases h
  · cases h
    exact trans_of R hstart
      (trans_of R (along_gatherGuards hassign _ _) (along_gatherGuards hassign _ _))
  · cases h
    exact trans_of R hstart (along_gatherGuards hassign _ _)

end Guards

/-! ## The calls of a node -/

section Calls

section Unchanged

variable {S : Workbench → Workbench → Prop} [IsPreorder Workbench S]

theorem LaunchScope.bounded_requireNode (s : LaunchScope) :
    Bounded S Fault.Stops s.requireNode := by
  unfold requireNode
  split
  · exact bounded_pure _
  · exact bounded_throw rfl

theorem LaunchScope.bounded_usage (s : LaunchScope) (name ns type queue guards location) :
    Bounded S Fault.Stops (s.usage name ns type queue guards location) := by
  refine s.bounded_requireNode.bind fun node => bounded_get.bind fun w => ?_
  refine (bounded_ofResult (Name.fails_make _ _ _ _)).bind fun called => ?_
  refine (bounded_ofResult (s.fails_resolveSpace _ _)).bind fun space => ?_
  exact (bounded_ofResult (Name.fails_make _ _ _ _)).bind fun target => bounded_pure _

theorem LaunchScope.bounded_noteParams (s : LaunchScope) (reads writes) :
    Bounded S Fault.Stops (s.noteParams reads writes) := by
  refine s.bounded_requireNode.bind fun r => bounded_get.bind fun w => ?_
  refine (chains_bounded.foldlM (fun s c => ?_) _ _).bind fun s =>
    chains_bounded.foldlM (fun s c => ?_) _ _
  all_goals exact (bounded_ofResult (s.fails_resolveSpace _ _)).bind fun _ => bounded_pure _

end Unchanged

/-- The uses of a scope stay along `T`, if what is done with their links does. -/
structure LaunchScope.Uses {k : EntityKind} (s : LaunchScope) (rules : ResourceRules k)
    (T : Workbench → Workbench → Prop) : Prop where
  use : ∀ {α : Type} {name : String} {ns type : Option String} {queue : Value}
    {guards : Option (Ref .guards)} {location : Option Location} {hints : List (Ref k)}
    {each : List (Ref .link) → Job Workbench α}, (∀ ls, Bounded T Fault.Stops (each ls)) →
    Bounded T Fault.Stops (do
      let u ← s.usage name ns type queue guards location
      each (← linksFor rules u hints))

variable (s : LaunchScope)

theorem uses_of_drifts [Making R] [Workbench.Follows R T] {k} {rules : ResourceRules k}
    (hrules : rules.Drifts R) : s.Uses rules T where
  use heach := (s.bounded_usage _ _ _ _ _ _).bind fun u =>
    (bounded_linksFor hrules u _).bind heach

section Topics

variable {s} [Guarding R] [Workbench.Follows R T] (huses : s.Uses topicRules T)
  (hattach : ∀ m l {side : LinkSide}, side.isTopic = true → R m (m.attach l side))

include huses hattach

theorem bounded_linkTopicCalls {side} (hside : side.isTopic = true) (calls hints) :
    Bounded T Fault.Stops (linkTopicCalls s side calls hints) := by
  refine (chains_bounded.forIn (fun c _ _ => ?_) _).bind fun _ => bounded_pure _
  refine (bounded_ofResult (fails_namedTarget _)).bind fun name => huses.use fun ls => ?_
  refine (chains_bounded.forIn (fun l _ _ => ?_) _).bind fun _ => bounded_pure _
  refine Bounded.bind (bounded_touch fun m => hattach m l hside) fun _ => ?_
  exact Bounded.bind (bounded_touch fun m => along_settleTopic _ m) fun _ => bounded_pure _

theorem LaunchScope.bounded_makeTopics (advertise subscribe) :
    Bounded T Fault.Stops (s.makeTopics advertise subscribe) := by
  refine s.bounded_requireNode.bind fun r => bounded_get.bind fun w => ?_
  exact (bounded_linkTopicCalls huses hattach rfl _ _).bind fun _ =>
    bounded_linkTopicCalls huses hattach rfl _ _

theorem Hints.bounded_linkMissing (side : LinkSide) (hints) (hside : side.isTopic = true) :
    Bounded T Fault.Stops (linkMissing s side hints) := by
  refine s.bounded_requireNode.bind fun r => ?_
  refine (chains_bounded.forIn (fun t _ _ => ?_) _).bind fun _ => bounded_pure _
  refine bounded_get.bind fun w => of_ite (huses.use fun ls => ?_) (bounded_pure _)
  refine (chains_bounded.forIn (fun l _ _ => ?_) _).bind fun _ => bounded_pure _
  refine Bounded.bind (bounded_touch fun m => hattach m l hside) fun _ => ?_
  exact Bounded.bind (bounded_touch fun m => Guarding.extendGuards m _ _) fun _ => bounded_pure _

theorem Hints.bounded_makeMissing (h : Hints) : Bounded T Fault.Stops (h.makeMissing s) := by
  have hlink := Hints.bounded_linkMissing huses hattach
  refine (hlink _ _ rfl).bind fun _ => (hlink _ _ rfl).bind fun _ => ?_
  refine s.bounded_requireNode.bind fun r => ?_
  refine (bounded_get.bind fun w => ?_).bind fun _ => bounded_get.bind fun w => ?_
  all_goals exact of_ite (bounded_throw rfl) (bounded_pure _)

end Topics

theorem bounded_replace [Workbench.Follows R T] {f : Model → Result Model}
    (hf : ∀ m, Fails Fault.Stops (f m)) (h : ∀ m m', f m = .ok m' → R m m') : Bounded T Fault.Stops
      (do let m ← Job.ofResult (f (← get).model); LaunchScope.touch fun _ => m) where
  within w := by
    simp only [exec_bind, exec_get]
    cases hm : f w.model with
    | error e => exact refl_of T w
    | ok m => exact Workbench.Follows.model w (h w.model m hm)
  throws := throws_get.bind fun w => (throws_ofResult (hf w.model)).bind fun m => throws_modify _

section Services

variable {s} [Guarding R] [Workbench.Follows R T] (huses : s.Uses serviceRules T)
  (hattach : ∀ m l {side : LinkSide}, side.isService = true → R m (m.attach l side))

include huses hattach

theorem bounded_linkServiceCalls {side : LinkSide} (hside : side.isService = true) (calls hints) :
    Bounded T Fault.Stops (linkServiceCalls s side calls hints) := by
  refine (chains_bounded.forIn (fun c _ _ => ?_) _).bind fun _ => bounded_pure _
  refine (bounded_ofResult (fails_namedTarget _)).bind fun name => huses.use fun ls => ?_
  refine (chains_bounded.forIn (fun l _ _ => ?_) _).bind fun _ => bounded_pure _
  refine Bounded.bind (bounded_touch fun m => hattach m l hside) fun _ => ?_
  have hsettle : Bounded T Fault.Stops _ :=
    bounded_replace (f := fun m => settleService ⟨(m.link l).target.index⟩ m)
      (fun m => fails_settleService _ m) fun m m' h => along_settleService h
  have := hsettle.bind fun _ => bounded_pure (ForInStep.yield PUnit.unit)
  simpa only [bind_assoc] using this

theorem LaunchScope.bounded_makeServices (service client) :
    Bounded T Fault.Stops (s.makeServices service client) := by
  refine s.bounded_requireNode.bind fun r => bounded_get.bind fun w => ?_
  exact (bounded_linkServiceCalls huses hattach rfl _ _).bind fun _ =>
    bounded_linkServiceCalls huses hattach rfl _ _

end Services

theorem FutureLink.bounded_make [Steady R] [Workbench.Follows R T] (f : FutureLink)
    (hattach : ∀ m l, R m (m.attach l f.side)) : Bounded T Fault.Stops f.make := by
  refine bounded_get.bind fun w => (bounded_ofResult (fails_namedTarget _)).bind fun name => ?_
  refine (bounded_ofResult (Name.fails_make _ _ _ _)).bind fun called => ?_
  refine (bounded_ofResult (Name.fails_make _ _ _ _)).bind fun target => ?_
  refine (bounded_linksFor drifts_paramRules _ _).bind fun ls => ?_
  refine (chains_bounded.forIn (fun l _ _ => ?_) _).bind fun _ => bounded_pure _
  exact Bounded.bind (bounded_touch fun m => hattach m l) fun _ => bounded_pure _

end Calls

/-! ## Hints -/

namespace Hints

section Make

variable {S : Workbench → Workbench → Prop} [IsPreorder Workbench S]

theorem bounded_resources {k} {rules : ResourceRules k}
    (hcreate : ∀ c n type, Within S (LaunchScope.change fun m => rules.create m c n type))
    (s hints key) :
    Bounded S Fault.Stops (resources rules s hints key) := by
  refine (bounded_ofResult (fails_sectionOf hints key)).bind fun es => ?_
  refine (chains_bounded.mapM fun e _ => ?_).bind fun rs => bounded_pure _
  dsimp only
  split
  · refine of_ite (bounded_pure _) (bounded_get.bind fun w => ?_)
    refine (bounded_ofResult (s.fails_resolveSpace _ _)).bind fun space => ?_
    refine (bounded_ofResult (Name.fails_make _ _ _ _)).bind fun full => ?_
    exact Bounded.bind ⟨hcreate _ _ _, throws_change _⟩ fun r => bounded_pure _
  · exact bounded_throw rfl

theorem bounded_make (s hints)
    (htopic : ∀ c n type, Within S (LaunchScope.change fun m => topicRules.create m c n type))
    (hservice : ∀ c n type, Within S (LaunchScope.change fun m => serviceRules.create m c n type)) :
    Bounded S Fault.Stops (make s hints) := by
  have htopics := bounded_resources htopic s
  have hservices := bounded_resources hservice s
  have hrest : Bounded S Fault.Stops (do
      let hints := if hints.truthy then hints else .record []
      let advertise ← resources topicRules s hints "advertise"
      let subscribe ← resources topicRules s hints "subscribe"
      let service ← resources serviceRules s hints "service"
      let client ← resources serviceRules s hints "client"
      pure { advertise, subscribe, service, client : Hints }) := by
    refine (htopics _ _).bind fun _ => (htopics _ _).bind fun _ => ?_
    exact (hservices _ _).bind fun _ => (hservices _ _).bind fun _ => bounded_pure _
  exact of_ite (Bounded.bind (bounded_throw rfl) fun _ => hrest) hrest

end Make

theorem bounded_link [TopicSteady R] [ServiceSteady R] [Workbench.Follows R T] (s : LaunchScope)
    (hints) : Bounded T Fault.Stops (link s hints) := by
  have htopics : s.Uses topicRules T := uses_of_drifts s drifts_topicRules
  have hservices : s.Uses serviceRules T := uses_of_drifts s drifts_serviceRules
  refine (bounded_make s hints ?_ ?_).bind fun h => ?_
  · exact fun c n type => within_change fun m => drifts_topicRules.create m c n type
  · exact fun c n type => within_change fun m => drifts_serviceRules.create m c n type
  refine (bounded_makeTopics htopics TopicSteady.attachTopic _ _).bind fun _ => ?_
  refine (bounded_makeServices hservices ServiceSteady.attachService _ _).bind fun _ => ?_
  exact (h.bounded_makeMissing htopics TopicSteady.attachTopic).bind fun _ =>
    s.bounded_noteParams _ _

end Hints

end RosAudit
