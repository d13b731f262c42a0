import RosAudit.Model.Graph

/-!
# Models as data

The text and the data of every object of a model: what reports, exports and caches show of it.
`Model.shown` is an object on one line, `Model.toValue` the record that is exported for it. A
settled guard has no exported form, and neither has a package whose files are not listed.
-/

namespace RosAudit

open Value

def showText? (s : Option String) : String := s.getD "None"

namespace Model

variable (m : Model)

def showLocation : Location → String
  | .source p file line function className =>
    let s := "in " ++ (m.package p).name
    match file with
    | none => s
    | some f =>
      let s := s ++ "/" ++ (m.file f).fullName
      match line with
      | none => s
      | some n =>
        let s := s ++ ":" ++ toString n
        let s := match nonEmpty? function with
          | some f => s ++ ", in function " ++ f
          | none => s
        match nonEmpty? className with
        | some c => s ++ ", in class " ++ c
        | none => s
  | .runtime c => "in configuration " ++ (m.configuration c).name

def locationValue : Location → Value
  | .source p file line function className =>
    .object [("package", .text (m.package p).name),
      ("file", .text? (file.map fun f => (m.file f).fullName)),
      ("line", (line.map .int).getD .null), ("function", .text? function),
      ("class", .text? className)]
  | .runtime c => .object [("configuration", .text (m.configuration c).name)]

def locationValue? (l : Option Location) : Value := (l.map m.locationValue).getD .null

end Model

def Guard.shown : Guard → String
  | .source v _ => v.display
  | .settled b => if b then "True" else "False"

namespace Model

variable (m : Model)

def guardValue : Guard → Result Value
  | .source v l =>
    pure (.object [("condition", .text v.display), ("location", m.locationValue? l)])
  | .settled _ => throw .noField

def guardLanguage : Guard → String
  | .source _ (some (.source _ (some f) _ _ _)) => (m.file f).language
  | _ => "unknown"

def guardValues (gs : List Guard) : Result Value := return .list (← gs.mapM m.guardValue)

def showCall (c : Call) : String :=
  "RosPrimitiveCall(" ++ showText? c.name ++ ", " ++ showText? c.space ++ ", " ++
    showText? c.type ++ ") " ++
    ((c.location.map m.showLocation).getD "None") ++ " (depth " ++ toString c.depth ++ ")"

def callValue (k : CallKind) (c : Call) : Result Value := do
  let guards ← m.guardValues (m.guardList c.guards)
  let queue := if k = .advertise || k = .subscribe then [("queue", c.queue)] else []
  pure (.object ([("name", .text? c.name), ("namespace", .text? c.space), ("type", .text? c.type),
    ("depth", .int c.depth), ("repeats", .bool c.repeats), ("conditions", guards),
    ("location", m.locationValue? c.location)] ++ queue))

def callValues (k : CallKind) (cs : List Call) : Result Value :=
  return .list (← cs.mapM (m.callValue k))

def nameValue (n : Name) : Value := .object [("rosname", .text n.full)]

def nodeValue (n : Node) : Result Value := do
  let calls (k : CallKind) : Result Value := m.callValues k (n.calls k)
  pure (.object [("id", .text n.nodeName), ("name", .text n.name), ("package", .text n.packageName),
    ("rosname", (n.rosname.map nameValue).getD n.label), ("nodelet", .text? n.nodelet),
    ("files", .texts (n.files.map fun f => (m.file f).fullName)),
    ("advertise", ← calls .advertise), ("subscribe", ← calls .subscribe),
    ("service", ← calls .service), ("client", ← calls .client), ("readParam", ← calls .readParam),
    ("writeParam", ← calls .writeParam), ("timestamp", m.timestampOf n)])

def fileValue (f : SourceFile) : Value :=
  .object [("name", .text f.name), ("directory", .text f.directory),
    ("package", .text f.packageName), ("language", .text f.language), ("size", .int f.size),
    ("timestamp", f.timestamp), ("lines", .int f.lines), ("sloc", .int f.sloc)]

def peopleNames (ps : List Person) : Value :=
  .texts (FileTree.sortTexts (ps.map Person.name))

def packageValue (p : Package) : Result Value :=
  match p.listing with
  | none => throw .noField
  | some files =>
    pure (.object [("name", .text p.name), ("metapackage", .bool p.isMetapackage),
      ("description", .text p.description), ("wiki", .text? p.website),
      ("repository", .text? p.vcsUrl), ("bugTracker", .text? p.bugUrl),
      ("authors", peopleNames p.authors), ("maintainers", peopleNames p.maintainers),
      ("dependencies", .texts (FileTree.sortTexts p.dependencies)),
      ("files", .texts (files.map fun f => (m.file f).fullName)),
      ("nodes", .texts (p.nodes.map fun n => (m.node n).nodeName))])

def projectValue (p : Project) : Value :=
  .object [("id", .text p.name), ("packages", .texts (p.packages.map fun r => (m.package r).name)),
    ("repositories", .texts (p.repositories.map fun r => (m.repository r).name))]

def linkNodes (ls : List (Ref .link)) : Value :=
  .texts (ls.map fun l => (m.inst (m.link l).node).name.full)

def linkTargets (ls : List (Ref .link)) : Value :=
  .texts (ls.map fun l => (m.id? (m.link l).target).getD "")

def traceValue (e : Entity) : Result Value :=
  return .list ((← m.traceability e).map m.locationValue)

def instanceValue (r : Ref .inst) : Result Value := do
  let x := m.inst r
  pure (.object [("name", .text x.name.full), ("type", .text (m.node x.node).nodeName),
    ("args", x.argv), ("conditions", ← m.guardValues (m.guardList x.guards)),
    ("publishers", m.linkTargets x.publishers), ("subscribers", m.linkTargets x.subscribers),
    ("servers", m.linkTargets x.servers), ("clients", m.linkTargets x.clients),
    ("reads", m.linkTargets x.reads), ("writes", m.linkTargets x.writes),
    ("traceability", ← m.traceValue r.entity)])

def topicValue (r : Ref .topic) : Result Value := do
  let x := m.topic r
  pure (.object [("name", .text x.name.full), ("type", .text? x.type),
    ("conditions", ← m.guardValues (m.guardList x.guards)),
    ("publishers", m.linkNodes x.publishers), ("subscribers", m.linkNodes x.subscribers),
    ("traceability", ← m.traceValue r.entity)])

def serviceValue (r : Ref .service) : Result Value := do
  let x := m.service r
  let servers ← match x.server with
    | .nobody => pure (Value.list [])
    | .one l => pure (m.linkNodes [l])
    | _ => throw .noField
  pure (.object [("name", .text x.name.full), ("type", .text? x.type),
    ("conditions", ← m.guardValues (m.guardList x.guards)), ("servers", servers),
    ("clients", m.linkNodes x.clients), ("traceability", ← m.traceValue r.entity)])

def paramValue (r : Ref .param) : Result Value := do
  let x := m.param r
  pure (.object [("name", .text x.name.full), ("type", .text? x.type), ("value", x.value),
    ("conditions", ← m.guardValues (m.guardList x.guards)), ("reads", m.linkNodes x.reads),
    ("writes", m.linkNodes x.writes), ("traceability", ← m.traceValue r.entity)])

def linkValue (r : Ref .link) : Result Value := do
  let x := m.link r
  let target := Value.text ((m.id? x.target).getD "")
  let guards ← m.guardValues (m.guardList x.guards)
  let own := match x.target.kind with
    | .topic => [("topic", target), ("type", .text? x.type), ("queue", x.queue)]
    | .service => [("service", target), ("type", .text? x.type)]
    | _ => [("param", target), ("type", .text? x.type)]
  pure (.object ([("node", .text (m.inst x.node).name.full), ("name", .text x.name.full),
    ("location", m.locationValue? x.location), ("conditions", guards)] ++ own))

def sideLinks (c : Configuration) (s : LinkSide) : List (Ref .link) :=
  c.nodes.all.flatMap fun r => (m.inst r).side s

def configurationValue (c : Configuration) : Result Value := do
  let links ← LinkSide.all.mapM fun s => do
    return (s.label, Value.list (← (m.sideLinks c s).mapM m.linkValue))
  let nodes ← c.nodes.all.mapM m.instanceValue
  let topics ← c.topics.all.mapM m.topicValue
  let services ← c.services.all.mapM m.serviceValue
  let params ← c.params.all.mapM m.paramValue
  pure (.object [("id", .text c.name), ("collisions", .int (collisions c)),
    ("remaps", .nat (m.remapCount c)),
    ("dependencies", .texts (FileTree.sortTexts c.packageUses)),
    ("environment", .texts (FileTree.sortTexts c.environmentUses)),
    ("nodes", .list nodes), ("topics", .list topics), ("services", .list services),
    ("parameters", .list params), ("links", .object links)])

def toValue (e : Entity) : Result Value :=
  match e.kind with
  | .project => pure (m.projectValue (m.project ⟨e.index⟩))
  | .package => m.packageValue (m.package ⟨e.index⟩)
  | .file => pure (fileValue (m.file ⟨e.index⟩))
  | .node => m.nodeValue (m.node ⟨e.index⟩)
  | .configuration => m.configurationValue (m.configuration ⟨e.index⟩)
  | .inst => m.instanceValue ⟨e.index⟩
  | .topic => m.topicValue ⟨e.index⟩
  | .service => m.serviceValue ⟨e.index⟩
  | .param => m.paramValue ⟨e.index⟩
  | .link => m.linkValue ⟨e.index⟩
  | _ => throw .noField

def showLink (x : Link) : String :=
  let node := (m.inst x.node).name.full
  let target := (m.id? x.target).getD ""
  let type := showText? x.type
  let sentence (what : String) : String :=
    what ++ " of node '" ++ node ++ "' to topic '" ++ target ++ "' of type '" ++ type ++ "'"
  let triple (what : String) :
    String := what ++ "(" ++ node ++ ", " ++ target ++ ", " ++ type ++ ")"
  match x.role with
  | .topic => sentence "Link"
  | .publish => sentence "Publication"
  | .subscribe => sentence "Subscription"
  | .service => triple "SrvCli"
  | .serve => triple "Service"
  | .request => triple "Client"
  | .param => triple "Param"
  | .read => triple "Read"
  | .write => triple "Write"

def kindWord (e : Entity) : String :=
  match e.kind with
  | .project => "Project"
  | .repository => "Repository"
  | .package => "Package"
  | .file => "SourceFile"
  | .node => "Node"
  | .configuration => "Configuration"
  | .inst => "NodeInstance"
  | .topic => "Topic"
  | .service => "Service"
  | .param => "Parameter"
  | .guards => "list"
  | .link =>
    match (m.link ⟨e.index⟩).role with
    | .publish => "PublishLink"
    | .subscribe => "SubscribeLink"
    | .serve => "ServiceLink"
    | .request => "ClientLink"
    | .read => "ReadLink"
    | .write => "WriteLink"
    | .topic => "TopicPrimitive"
    | .service => "ServicePrimitive"
    | .param => "ParameterPrimitive"

def shown (e : Entity) : String :=
  match e.kind with
  | .configuration => "Configuration " ++ (m.configuration ⟨e.index⟩).name
  | .inst =>
    let x := m.inst ⟨e.index⟩
    "NodeInstance " ++ (m.configuration x.configuration).name ++ ":" ++ x.name.full
  | .link => m.showLink (m.link ⟨e.index⟩)
  | .topic | .service | .param => "<haros.metamodel." ++ m.kindWord e ++ " object>"
  | _ => (m.id? e).getD ""

end Model

end RosAudit
