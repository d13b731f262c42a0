import RosAudit.Model.Scene

/-!
# Remembered nodes

The calls of a node can be kept as data between audits. Reading them back looks up packages by
name in the project, and files by their name in the package: a location that no longer exists is
dropped, a node without its package or one of its files is left out.
-/

namespace RosAudit

namespace Recall

def packageNamed (m : Model) (project : Ref .project) (name : Value) : Result (Ref .package) :=
  match (m.project project).packages.find? fun r => Value.same name (.text (m.package r).name) with
  | some r => pure r
  | none =>
    match name with
    | .text s => throw (.invalidValue ("cannot find package: " ++ s))
    | _ => throw .wrongKind

def filesNamed (m : Model) (pkg : Ref .package) (names : List Value) : Result (List (Ref .file)) :=
  names.mapM fun name =>
    match (m.package pkg).files.find? fun f => Value.same name (.text (m.file f).fullName) with
    | some f => pure f
    | none =>
      match name with
      | .text s => throw (.invalidValue ("cannot find file: " ++ s))
      | _ => throw .wrongKind

def locationOf (m : Model) (project : Ref .project) (v : Value) : Result (Option Location) := do
  let place : Result (Ref .package × Option (Ref .file)) := do
    let pkg ← packageNamed m project (← v.need "package")
    let file ← v.need "file"
    if file.truthy then return (pkg, (← filesNamed m pkg [file]).head?)
    else return (pkg, none)
  match place with
  | .error (.invalidValue _) => pure none
  | .error f => throw f
  | .ok (pkg, file) =>
    let line ← v.need "line"
    let function ← v.need "function"
    let cls ← v.need "class"
    pure (some (.source pkg file line.asInt? function.asText? cls.asText?))

def guardOf (m : Model) (project : Ref .project) (v : Value) : Result Guard := do
  let condition ← v.need "condition"
  pure (.source condition (← locationOf m project (← v.need "location")))

def callOf (project : Ref .project) (kind : CallKind) (v : Value) : Job Model Call := do
  let m ← get
  let read : Result (Call × Int × Bool × List Guard) := do
    let guards ← (← (← v.need "conditions").each).mapM (guardOf m project)
    let name ← v.need "name"
    let ns ← v.need "namespace"
    let type ← v.need "type"
    let queue ← match kind with
      | .advertise | .subscribe => v.need "queue"
      | _ => pure .null
    let depth ← v.need "depth"
    let repeats ← v.need "repeats"
    let location ← locationOf m project (← v.need "location")
    let call : Call := { name := name.asText?, space := ns.asText?, type := type.asText?, queue
                         guards := ⟨0⟩, location }
    pure (call, depth.asInt?.getD 0, repeats.truthy, guards)
  let (call, depth, repeats, guards) ← Job.ofResult read
  let (m, call) := m.makeCall call depth repeats guards
  set m
  pure call

def callKeys : List (String × CallKind) :=
  [("advertise", .advertise), ("subscribe", .subscribe), ("service", .service),
   ("client", .client), ("readParam", .readParam), ("writeParam", .writeParam)]

/-- Compares the time of a file with the time of the data; both must be numbers. -/
def checkTime (time stamp : Value) : Result Unit :=
  if time.isNumber && stamp.isNumber then pure () else throw .wrongKind

/-- Adds the node that data describes, unless its package or a file of it is gone. -/
def nodeOf (project : Ref .project) (v : Value) : Job Model (Option (Ref .node)) := do
  let m ← get
  let sources : Result (Ref .package × List (Ref .file)) := do
    let pkg ← packageNamed m project (← v.need "package")
    pure (pkg, ← filesNamed m pkg (← (← v.need "files").each))
  match sources with
  | .error (.invalidValue _) =>
    let _ ← Job.ofResult (v.need "name")
    pure none
  | .error f => throw f
  | .ok (pkg, files) =>
    let stamp ← Job.ofResult (v.need "timestamp")
    for f in files do Job.ofResult (checkTime (m.file f).timestamp stamp)
    let name ← Job.ofResult (v.need "name")
    let label ← Job.ofResult (v.need "rosname")
    let nodelet ← Job.ofResult (v.need "nodelet")
    let name ← Job.ofResult (namedTarget name.asText?)
    let node : Node := { m.makeNode name pkg none nodelet.asText? with label, files }
    let node ← callKeys.foldlM (fun n (key, kind) => do
      let data ← Job.ofResult ((← Job.ofResult (v.need key)).each)
      let calls ← data.mapM (callOf project kind)
      pure (n.setCalls kind calls)) node
    let m ← get
    let (m, r) := m.addNode node
    set m
    pure (some r)

def nodes (project : Ref .project) (data : List Value) :
    Job (Model × Table String (Ref .node)) Unit :=
  for v in data do
    let (m, known) ← get
    let (r, m) := (nodeOf project v).exec m
    set (m, known)
    match ← Job.ofResult r with
    | some n => set (m, known.put (m.node n).nodeName n)
    | none => pure ()

end Recall

end RosAudit
