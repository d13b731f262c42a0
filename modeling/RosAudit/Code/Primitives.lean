import RosAudit.Code.Meaning
import RosAudit.Model.Source
import RosAudit.Text.Position

/-!
# Primitives of a program

Which topics, services and parameters a program uses, read off its calls. Each kind of call is
found by its name and its type. The namespace comes from the node handle on which the call is
made, the name, the message type and the queue size from its arguments; a question mark stands
for what is not known.

There are three questions, asked one after another: `communication`, `handleParams` and
`bareParams`. One that fails keeps what it had found before.
-/

namespace RosAudit.Code

open RosAudit.Text

/-! ## Node handles -/

def handleOfCall (h : CallHead) (args : List Expr) : String :=
  match h.name, args with
  | "NodeHandle", [a, _] =>
    match a with
    | .literal (.text s) => s
    | .defaultArg _ => ""
    | _ => "?"
  | "NodeHandle", [.call g _ _] =>
    match g.name with
    | "getNodeHandle" => ""
    | "getPrivateNodeHandle" => "~"
    | _ => "?"
  | "getNodeHandle", _ => ""
  | "getPrivateNodeHandle", _ => "~"
  | _, _ => "?"

def isGiven : Option Expr → Bool
  | none => false
  | some (.literal v) => v.truthy
  | some _ => true

def handleSpace (e : Option Expr) : Result String :=
  match e, isGiven e with
  | some e, true => do
    match ← e.resolveVariable with
    | some (.call h args _) => pure (handleOfCall h args)
    | some (.defaultArg _) => pure ""
    | _ => pure "?"
  | _, _ => pure "?"

def transportSpace (e : Option Expr) : Result String :=
  match e with
  | none => throw .broken
  | some e => do
    match ← e.resolve with
    | some (.call h args _) =>
      if h.name == "ImageTransport" then
        match args with
        | [] => throw .outOfRange
        | a :: _ => handleSpace (some a)
      else pure "?"
    | _ => pure "?"

/-! ## Arguments -/

def argAt (c : CallSite) (i : Nat) : Result Expr :=
  match c.args[i]? with
  | some e => pure e
  | none => throw .outOfRange

def nameArg (c : CallSite) (i : Nat) : Result String := do
  match ← (← argAt c i).resolve with
  | some (.literal (.text s)) => pure (if s.isEmpty then "?" else s)
  | _ => pure "?"

def queueArg (c : CallSite) (i : Nat) : Result Value := do
  match ← (← argAt c i).resolve with
  | some (.literal v) => pure (if v.isNumber then v else .null)
  | _ => pure .null

def cutBefore (mark : List Char) : List Char → Option (List Char)
  | [] => if mark.isEmpty then some [] else none
  | c :: cs =>
    if mark.isPrefixOf (c :: cs) then some [] else (cutBefore mark cs).map (c :: ·)

/-- Is a text two words with a double colon between them? A line feed may follow. -/
def isQualified (cs : List Char) : Bool :=
  let first := cs.takeWhile isWord
  match cs.dropWhile isWord with
  | ':' :: ':' :: rest =>
    let last := rest.dropWhile isWord
    !first.isEmpty && !(rest.takeWhile isWord).isEmpty && (last.isEmpty || last == ['\n'])
  | _ => false

def slashed (cs : List Char) : String := replaceAll (String.ofList cs) "::" "/"

def templateType (t : String) : Result String :=
  let cs := t.toList
  let cs := (cutBefore "_<std::allocator<void>".toList cs).getD cs
  if isQualified cs then pure (slashed cs) else throw .broken

def dropEnding (ending : String) (cs : List Char) : Option (List Char) :=
  if ending.toList.reverse.isPrefixOf cs.reverse then some (cs.take (cs.length - ending.length))
  else none

def afterFirstWord (s : String) : Result (List Char) :=
  let rest := (trimLeft s.toList).dropWhile fun c => !isBlank c
  match trimLeft rest with
  | [] => throw .outOfRange
  | cs => pure cs

def messageOf (isService : Bool) (cs : List Char) : List Char :=
  let cs := (between cs 1 (-1))
  let cs := if isService then (cutBefore ", ".toList cs).getD cs else cs
  let cs := if startsWith "const ".toList cs then cs.drop 6 else cs
  let cs := (dropEnding " &" cs).getD cs
  let cs := match dropEnding "::ConstPtr" cs with
    | some r => r
    | none => (dropEnding "ConstPtr" cs).getD cs
  (dropEnding "::Request" cs).getD cs

def callbackType (isService : Bool) (type : String) : Result String := do
  let cs ← afterFirstWord type
  let cs := if startsWith "(*)".toList cs then cs.drop 3 else cs
  match cs.head?, cs.getLast? with
  | some a, some z =>
    let cs := if a == '(' && z == ')' then messageOf isService cs else cs
    let cs := if startsWith "boost::function".toList cs then between cs 52 (-25) else cs
    pure (slashed cs)
  | _, _ => throw .outOfRange

def innerCallback : Expr → Result Expr
  | .operator _ _ (e :: _) => innerCallback e
  | .operator _ _ [] => throw .outOfRange
  | e => pure e

def messageType (c : CallSite) : Result String := do
  match c.head.template with
  | t :: _ => templateType t
  | [] =>
    let isService := c.head.name == "advertiseService"
    if c.head.name != "subscribe" && !isService then pure "?"
    else
      let callback ← innerCallback (← argAt c (if isService then 1 else 2))
      match callback.result? with
      | none => throw .noField
      | some type => callbackType isService type

/-! ## Calls of a node -/

/-- What is being looked through: a package, one of its nodes, and the calls of its program. -/
structure Lookout where
  package : Ref .package
  node : Ref .node
  sites : List CallSite

namespace Lookout

def location (k : Lookout) (m : Model) (c : CallSite) : Location :=
  let file := c.head.file.bind fun path =>
    if path.isEmpty then none
    else (m.package k.package).files.find? fun f => (m.file f).path == path
  .source k.package file c.head.line (some c.function) none

def note (k : Lookout) (kind : CallKind) (c : CallSite) (name ns : String)
    (type : Option String) (queue : Value) : Job Model Unit := do
  let m ← get
  let location := k.location m c
  let texts ← Job.ofResult ((c.conditions k.sites).mapM Expr.shown)
  let (m, call) := m.makeCall
    { name := some name, space := some ns, type, queue, guards := ⟨0⟩, location := some location }
    (c.depth k.sites) (c.repeats k.sites) (texts.map fun t => .source (.text t) (some location))
  set (m.updateNode k.node fun n => n.setCalls kind (n.calls kind ++ [call]))

def topicCall (k : Lookout) (kind : CallKind) (ns : String) (c : CallSite) (namePos queuePos : Nat)
    (type : Option String) : Job Model Unit := do
  if c.args.length > 1 then
    let name ← Job.ofResult (nameArg c namePos)
    let type ← match type with
      | some t => pure t
      | none => Job.ofResult (messageType c)
    let queue ← Job.ofResult (queueArg c queuePos)
    k.note kind c name ns (some type) queue

def serviceCall (k : Lookout) (kind : CallKind) (ns : String) (c : CallSite) :
    Job Model Unit := do
  if c.args.length > 1 then
    let name ← Job.ofResult (nameArg c 0)
    let type ← Job.ofResult (messageType c)
    k.note kind c name ns (some type) .null

def paramCall (k : Lookout) (kind : CallKind) (ns : String) (c : CallSite) : Job Model Unit := do
  if !c.args.isEmpty then
    let name ← Job.ofResult (nameArg c 0)
    k.note kind c name ns none .null

def named (k : Lookout) (names : List String) : List CallSite :=
  k.sites.filter fun c => names.contains c.head.name

def refersTo (c : CallSite) (lead : String) : Bool :=
  c.head.reference.all fun r => startsWith lead.toList r.toList

def mustShow (c : CallSite) : Job Model Unit := do
  let _ ← Job.ofResult (Expr.call c.head c.args c.object).shown

def handleCalls (k : Lookout) (name type : String)
    (f : String → CallSite → Job Model Unit) : Job Model Unit := do
  for c in k.named [name] do
    if c.head.canonicalType == type then
      f (← Job.ofResult (handleSpace c.object)) c

def filterCalls (k : Lookout) (name lead type : String) (space : Option Expr → Result String)
    (message : Option String) : Job Model Unit := do
  for c in k.named [name] do
    mustShow c
    if refersTo c lead && occursIn type.toList c.head.canonicalType.toList then
      let ns ← Job.ofResult (space c.args.head?)
      k.topicCall .subscribe ns c 1 2 message

def transportCalls (k : Lookout) (name type : String) (kind : CallKind) : Job Model Unit := do
  for c in k.named [name] do
    if c.head.canonicalType == type then
      mustShow c
      let ns ← Job.ofResult (transportSpace c.object)
      k.topicCall kind ns c 0 1 (some "sensor_msgs/Image")

def communication (k : Lookout) : Job Model Unit := do
  k.handleCalls "advertise" "ros::Publisher" fun ns c => k.topicCall .advertise ns c 0 1 none
  k.handleCalls "subscribe" "ros::Subscriber" fun ns c => k.topicCall .subscribe ns c 0 1 none
  k.handleCalls "advertiseService" "ros::ServiceServer" (k.serviceCall .service)
  k.handleCalls "serviceClient" "ros::ServiceClient" (k.serviceCall .client)
  k.filterCalls "SubscriberFilter" "c:@N@image_transport@S@SubscriberFilter"
    "image_transport::SubscriberFilter" transportSpace (some "sensor_msgs/Image")
  k.filterCalls "Subscriber" "c:@N@message_filters@S@Subscriber" "message_filters::Subscriber"
    handleSpace none
  k.transportCalls "subscribe" "image_transport::Subscriber" .subscribe
  k.transportCalls "advertise" "image_transport::Publisher" .advertise

def belongsTo (c : CallSite) (name lead : String) : Bool :=
  startsWith name.toList c.head.fullName.toList ||
    c.head.reference.any fun r => startsWith lead.toList r.toList

def handleParams (k : Lookout) : Job Model Unit := do
  let each (kind : CallKind) (names : List String) : Job Model Unit := do
    for c in k.named names do
      if belongsTo c "ros::NodeHandle" "c:@N@ros@S@NodeHandle@" then
        k.paramCall kind (← Job.ofResult (handleSpace c.object)) c
  each .readParam ["getParam", "getParamCached", "param", "hasParam", "searchParam"]
  each .writeParam ["setParam", "deleteParam"]

def searchSpace (c : CallSite) : Result String :=
  match c.args with
  | a :: _ :: _ :: _ => do
    match ← a.resolve with
    | some (.literal (.text s)) => pure s
    | _ => pure "?"
  | _ => pure "~"

def bareParams (k : Lookout) : Job Model Unit := do
  let mine (c : CallSite) : Bool := belongsTo c "ros::param" "c:@N@ros@N@param@"
  for c in k.named ["get", "getCached", "param", "has"] do
    if mine c then k.paramCall .readParam "" c
  for c in k.named ["search"] do
    if plainType c.head.type == "bool" && mine c then
      k.paramCall .readParam (← Job.ofResult (searchSpace c)) c
  for c in k.named ["set", "del"] do
    if mine c then k.paramCall .writeParam "" c

end Lookout

end RosAudit.Code
