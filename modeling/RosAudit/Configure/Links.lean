import RosAudit.Configure.Scope
import RosAudit.Pattern.Match

/-!
# Linking nodes to resources

The calls of a node's program say which topics, services and parameters an instance of it uses.
`linksFor` finds or makes the resources for one call. Where the name of a resource is not fully
known, hints given by the user supply candidates.

Topics and services are linked as soon as the node is started, parameters only when the whole
launch file is known. The guards of a resource follow from those of its links; the lists are
shared, so what one resource takes over, all that share it see.
-/

namespace RosAudit

/-- How resources of a kind are handled. `typed` says whether a candidate must have the type that
the call asks for, `linksCopy` whether a hint is linked through its renamed copy. -/
structure ResourceRules (k : EntityKind) where
  role : LinkRole
  collection : Configuration → Collection k
  create : Model → Ref .configuration → Name → Option String → Model × Ref k
  list : Model → Ref k → Model × Nat
  remap : Model → Ref k → Name → Model × Ref k
  nameOf : Model → Ref k → Name
  typeOf : Model → Ref k → Option String
  typed : Bool
  linksCopy : Bool

def topicRules : ResourceRules .topic where
  role := .topic
  collection c := c.topics
  create m configuration name type :=
    let (m, guards) := m.addGuards []
    m.addTopic { configuration, name, type, guards }
  list m r := m.listTopic r
  remap m r n := m.remapTopic r n
  nameOf m r := (m.topic r).name
  typeOf m r := (m.topic r).type
  typed := true
  linksCopy := true

def serviceRules : ResourceRules .service where
  role := .service
  collection c := c.services
  create m configuration name type :=
    let (m, guards) := m.addGuards []
    m.addService { configuration, name, type, guards }
  list m r := m.listService r
  remap m r n := m.remapService r n
  nameOf m r := (m.service r).name
  typeOf m r := (m.service r).type
  typed := true
  linksCopy := false

def paramRules : ResourceRules .param where
  role := .param
  collection c := c.params
  create m configuration name type :=
    let (m, guards) := m.addGuards []
    m.makeParam { configuration, name, type, guards }
  list m r := m.listParam r
  remap m r n := m.remapParam r n
  nameOf m r := (m.param r).name
  typeOf m r := (m.param r).type
  typed := false
  linksCopy := false

/-- A use of a resource by a node instance, with its name already put in place. -/
structure Usage where
  node : Ref .inst
  called : Name
  target : Name
  type : Option String
  queue : Value := .null
  guards : Option (Ref .guards) := none
  location : Option Location := none

section

variable {k : EntityKind}

def candidates (rules : ResourceRules k) (pattern : String) (type : Option String)
    (rs : List (Ref k)) : Job Workbench (List (Ref k)) :=
  if rs.isEmpty then pure []
  else do
    let p ← Job.ofResult (Pattern.parse pattern)
    let m := (← get).model
    pure (rs.filter fun r =>
      p.matchesStart (rules.nameOf m r).full && (!rules.typed || rules.typeOf m r == type))

def linkTo (rules : ResourceRules k) (u : Usage) (r : Ref k) : Job Workbench (Ref .link) := do
  let guards ← match u.guards with
    | some g => pure g
    | none => LaunchScope.change fun m => m.addGuards []
  LaunchScope.change fun m => m.addLink {
    role := rules.role, node := u.node, target := r.entity, type := u.type, name := u.called
    queue := u.queue, guards, location := u.location }

def linkHints (rules : ResourceRules k) (u : Usage) :
    List (Ref k) → Job Workbench (List (Ref .link))
  | [] => pure []
  | hint :: hints => do
    let m := (← get).model
    let x := m.inst u.node
    let name ← Job.ofResult (Name.make (rules.nameOf m hint).full "/" "" x.remaps)
    let copy ← LaunchScope.change fun m => rules.remap m hint name
    if (rules.collection (m.configuration x.configuration)).contains name.full then
      linkHints rules u hints
    else
      let _ ← LaunchScope.change fun m => rules.list m copy
      let l ← linkTo rules u (if rules.linksCopy then copy else hint)
      let ls ← linkHints rules u hints
      pure (l :: ls)

/-- The links for one use: to what is known under the name, or may be meant by it, or else to a
new resource. -/
def linksFor (rules : ResourceRules k) (u : Usage) (hints : List (Ref k)) :
    Job Workbench (List (Ref .link)) := do
  let m := (← get).model
  let configuration := (m.inst u.node).configuration
  let known := rules.collection (m.configuration configuration)
  let links ←
    if u.target.isUnresolved && !hints.isEmpty then do
      let pattern ← Job.ofResult u.target.pattern
      let here ← (← candidates rules pattern u.type known.all).mapM (linkTo rules u)
      let hinted ← linkHints rules u (← candidates rules pattern u.type hints)
      pure (here ++ hinted)
    else
      match m.lookup known u.target.full with
      | some r => pure [← linkTo rules u r]
      | none => pure []
  if links.isEmpty then
    let r ← LaunchScope.change fun m => rules.create m configuration u.target u.type
    let _ ← LaunchScope.change fun m => rules.list m r
    pure [← linkTo rules u r]
  else pure links

end

/-! ## Guards of resources -/

/-- The guards of a topic or service, taken over from its links: those of the first link on an
unguarded node as they are, and before it all guards of links and their nodes in one list. -/
def gatherGuards (assign : Model → Ref .guards → Model) (current : Model → Ref .guards) :
    List (Ref .link) → Model → Model
  | [], m => m
  | l :: ls, m =>
    let x := m.link l
    let ofNode := m.guardList (m.inst x.node).guards
    if ofNode.isEmpty then assign m x.guards
    else
      let m := m.extendGuards (current m) ofNode
      let m := m.extendGuards (current m) (m.guardList x.guards)
      gatherGuards assign current ls m

def settleTopic (r : Ref .topic) (m : Model) : Model :=
  let assign (m : Model) (g : Ref .guards) :
    Model := m.updateTopic r fun t => { t with guards := g }
  let current (m : Model) : Ref .guards := (m.topic r).guards
  let (m, g) := m.addGuards []
  let m := assign m g
  let t := m.topic r
  gatherGuards assign current t.subscribers (gatherGuards assign current t.publishers m)

def settleService (r : Ref .service) (m : Model) : Result Model :=
  let assign (m : Model) (g : Ref .guards) :
    Model := m.updateService r fun s => { s with guards := g }
  let current (m : Model) : Ref .guards := (m.service r).guards
  let (m, g) := m.addGuards []
  let m := assign m g
  let s := m.service r
  match s.server with
  | .group _ => throw .noField
  | .one l => pure (gatherGuards assign current s.clients (gatherGuards assign current [l] m))
  | _ => pure (gatherGuards assign current s.clients m)

/-! ## The calls of a node -/

def LaunchScope.requireNode (s : LaunchScope) : Job Workbench (Ref .inst) :=
  match s.node with
  | some n => pure n
  | none => throw .broken

def LaunchScope.usage (s : LaunchScope) (name : String) (ns type : Option String) (queue : Value)
    (guards : Option (Ref .guards)) (location : Option Location) : Job Workbench Usage := do
  let node ← s.requireNode
  let m := (← get).model
  let pns := s.privateSpace m
  let called ← Job.ofResult (Name.make name ((nonEmpty? ns).getD s.space) pns)
  let space ← Job.ofResult (s.resolveSpace m ns)
  let target ← Job.ofResult (Name.make name space pns (m.inst node).remaps)
  pure { node, called, target, type, queue, guards, location }

/-- The links of a call that take effect: all if the call repeats, and else the first. -/
def effective (repeats : Bool) (ls : List (Ref .link)) : List (Ref .link) :=
  if repeats then ls else ls.take 1

def linkTopicCalls (s : LaunchScope) (side : LinkSide) (calls : List Call)
    (hints : List (Ref .topic)) : Job Workbench Unit := do
  for c in calls do
    let u ← s.usage (← Job.ofResult c.target) c.space c.type c.queue (some c.guards) c.location
    for l in effective c.repeats (← linksFor topicRules u hints) do
      LaunchScope.touch fun m => m.attach l side
      LaunchScope.touch fun m => settleTopic ⟨(m.link l).target.index⟩ m

def LaunchScope.makeTopics (s : LaunchScope) (advertise subscribe : List (Ref .topic)) :
    Job Workbench Unit := do
  let r ← s.requireNode
  let m := (← get).model
  let node := m.node (m.inst r).node
  linkTopicCalls s .publishers node.advertise advertise
  linkTopicCalls s .subscribers node.subscribe subscribe

def linkServiceCalls (s : LaunchScope) (side : LinkSide) (calls : List Call)
    (hints : List (Ref .service)) : Job Workbench Unit := do
  for c in calls do
    let u ← s.usage (← Job.ofResult c.target) c.space c.type .null (some c.guards) c.location
    for l in effective c.repeats (← linksFor serviceRules u hints) do
      LaunchScope.touch fun m => m.attach l side
      let m := (← get).model
      let m ← Job.ofResult (settleService ⟨(m.link l).target.index⟩ m)
      LaunchScope.touch fun _ => m

def LaunchScope.makeServices (s : LaunchScope) (service client : List (Ref .service)) :
    Job Workbench Unit := do
  let r ← s.requireNode
  let m := (← get).model
  let node := m.node (m.inst r).node
  linkServiceCalls s .servers node.service service
  linkServiceCalls s .clients node.client client

def LaunchScope.noteParams (s : LaunchScope) (reads writes : List (Ref .param)) :
    Job Workbench LaunchScope := do
  let r ← s.requireNode
  let m := (← get).model
  let node := m.node (m.inst r).node
  let note (side : LinkSide) (hints : List (Ref .param)) (s : LaunchScope) (c : Call) :
      Job Workbench LaunchScope := do
    let resolved ← Job.ofResult (s.resolveSpace m c.space)
    let f : FutureLink :=
      { node := r, name := c.name, space := (nonEmpty? c.space).getD s.space
        resolvedSpace := resolved, privateSpace := s.privateSpace m, type := c.type
        guards := c.guards, hints, repeats := c.repeats, side, location := c.location }
    pure { s with future := s.future ++ [f] }
  let s ← node.readParam.foldlM (note .reads reads) s
  node.writeParam.foldlM (note .writes writes) s

def FutureLink.make (f : FutureLink) : Job Workbench Unit := do
  let m := (← get).model
  let name ← Job.ofResult (namedTarget f.name)
  let called ← Job.ofResult (Name.make name f.space f.privateSpace)
  let target ← Job.ofResult
    (Name.make name f.resolvedSpace f.privateSpace (m.inst f.node).remaps)
  let u : Usage :=
    { node := f.node, called, target, type := f.type, guards := some f.guards
      location := f.location }
  for l in effective f.repeats (← linksFor paramRules u f.hints) do
    LaunchScope.touch fun m => m.attach l f.side

/-! ## Hints -/

/-- Topics and services that the user says a node uses. -/
structure Hints where
  advertise : List (Ref .topic) := []
  subscribe : List (Ref .topic) := []
  service : List (Ref .service) := []
  client : List (Ref .service) := []

namespace Hints

def sections : List String := ["advertise", "subscribe", "service", "client"]

def sectionOf (hints : Value) (key : String) : Result (List (Value × Value)) :=
  match hints with
  | .record _ =>
    match hints.field? key with
    | none => pure []
    | some (.record es) => pure es
    | some _ => throw .noField
  | _ => throw .noField

def isMessageType (type : String) : Bool :=
  !Text.occursIn [':', ':'] type.toList && (Text.splitOnChar '/' type).length == 2

/-- The entries of one section in a later record of hints win over those of an earlier one. -/
def mergeSection (key : String) (a b : Value) : Result (List (Value × Value)) := do
  let part (v : Value) : Result (List (Value × Value)) :=
    match v with
    | .record _ =>
      match v.field key with
      | .null => pure []
      | .record es => pure es
      | .list [] => pure []
      | .text "" => pure []
      | .list _ | .text _ => throw .unreadableValue
      | _ => throw .wrongKind
    | _ => throw .noField
  let first ← part a
  let second ← part b
  pure (second.foldl (fun es (k, v) => Value.putEntry k v es) first)

/-- The hints for a node: those for its program and those for its instance, taken together. -/
def merge (specs hints : Value) (node inst : String) : Result Value := do
  let ofNode := specs.field node
  let ofInstance := hints.field inst
  if ofNode.isNull then pure ofInstance
  else if ofInstance.isNull then pure ofNode
  else
    let merged ← sections.mapM fun key => do
      let es ← mergeSection key ofNode ofInstance
      pure (key, es)
    pure (.object (merged.filterMap fun (key, es) =>
      if es.isEmpty then none else some (key, .record es)))

def resources {k : EntityKind} (rules : ResourceRules k) (s : LaunchScope) (hints : Value)
    (key : String) : Job Workbench (List (Ref k)) := do
  let es ← Job.ofResult (sectionOf hints key)
  let rs ← es.mapM fun (name, type) => do
    match name, type with
    | .text name, .text type =>
      if !isMessageType type then pure none
      else
        let (ns, own) := match Text.cutAtLast '/' name.toList with
          | some (ns, own) => (String.ofList ns, String.ofList own)
          | none => ("/", name)
        let m := (← get).model
        let space ← Job.ofResult (s.resolveSpace m (some ns))
        let full ← Job.ofResult (Name.make own space (s.privateSpace m))
        let r ← LaunchScope.change fun m => rules.create m s.configuration full (some type)
        pure (some r)
    | _, _ => throw .noField
  pure (rs.filterMap id)

def make (s : LaunchScope) (hints : Value) : Job Workbench Hints := do
  if s.node.isNone then throw .noField
  let hints := if hints.truthy then hints else .record []
  let advertise ← resources topicRules s hints "advertise"
  let subscribe ← resources topicRules s hints "subscribe"
  let service ← resources serviceRules s hints "service"
  let client ← resources serviceRules s hints "client"
  pure { advertise, subscribe, service, client }

def isLinked (m : Model) (r : Ref .inst) (side : LinkSide) (e : Entity) : Bool :=
  ((m.inst r).side side).any fun l => m.equal (m.link l).target e

def linkMissing (s : LaunchScope) (side : LinkSide) (hints : List (Ref .topic)) :
    Job Workbench Unit := do
  let r ← s.requireNode
  for t in hints do
    let m := (← get).model
    if !isLinked m r side t.entity then
      let x := m.topic t
      let u ← s.usage x.name.full (some s.space) x.type .null none none
      for l in ← linksFor topicRules u [] do
        LaunchScope.touch fun m => m.attach l side
        LaunchScope.touch fun m =>
          m.extendGuards (m.topic ⟨(m.link l).target.index⟩).guards
            (m.guardList (m.inst r).guards)

/-- Links all that was hinted and not led to. A service must have been led to by a call. -/
def makeMissing (s : LaunchScope) (h : Hints) : Job Workbench Unit := do
  linkMissing s .publishers h.advertise
  linkMissing s .subscribers h.subscribe
  let r ← s.requireNode
  let check (side : LinkSide) (rs : List (Ref .service)) : Job Workbench Unit := do
    let m := (← get).model
    if rs.any fun x => !isLinked m r side x.entity then throw .wrongKind
  check .servers h.service
  check .clients h.client

def link (s : LaunchScope) (hints : Value) : Job Workbench LaunchScope := do
  let h ← make s hints
  s.makeTopics h.advertise h.subscribe
  s.makeServices h.service h.client
  h.makeMissing s
  s.noteParams [] []

end Hints

end RosAudit
