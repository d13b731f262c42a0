import RosAudit.Audit.Plugin

/-!
# Scripted plugins

A hook can be given as a list of calls of the interface. `Script.perform` carries out one call,
and `Script.hook` a list of them until one fails or gives a state. Each call of a hook is noted in
a trace.
-/

namespace RosAudit

namespace Script

abbrev Resolver := Value → Result Item

def scopeOf (resolve : Resolver) (call : Value) : Result (Option Item) :=
  match call.field "scope" with
  | .null => pure none
  | v => return some (← resolve v)

def spotOf (call : Value) : Interface.Spot :=
  { line := (call.field "line").asInt?, function := (call.field "function").asText?
    className := (call.field "class").asText? }

def textOf (call : Value) (k : String) : String := ((call.field k).asText?).getD ""

def writeFile (name text : String) : Job Interface Unit := do
  let s ← get
  let files ← Job.ofResult (s.files.write name text)
  set { s with files }

def perform (resolve : Resolver) (call : Value) : Job Interface (Option Value) := do
  let s ← get
  match textOf call "do" with
  | "violation" =>
    let scope ← Job.ofResult (scopeOf resolve call)
    Interface.reportViolation (textOf call "rule") (call.field "msg") scope (spotOf call)
    pure none
  | "runtime" =>
    let resources ← Job.ofResult ((call.field "resources").items.mapM resolve)
    Interface.reportRuntime (textOf call "rule") (call.field "msg") resources
    pure none
  | "metric" =>
    let scope ← Job.ofResult (scopeOf resolve call)
    Interface.reportMetric (textOf call "metric") (call.field "value") scope (spotOf call)
    pure none
  | "find_package" =>
    pure ((s.findPackage (textOf call "id")).map fun p => .text (s.model.package p).id)
  | "find_configuration" => throw .noField
  | "export" =>
    writeFile (textOf call "file") (textOf call "text")
    Interface.exportFile (textOf call "file")
    pure none
  | "export_missing" =>
    Interface.exportFile (textOf call "file")
    pure none
  | "get_file" => return some (.text (← Job.ofResult (s.resource (textOf call "file"))))
  | "raise" => throw .unreadableValue
  | "attribute" => throw .noField
  | _ => pure none

def subjectId (m : Model) : Subject → Value
  | .nothing => .null
  | .scope e => .text? (m.id? e)
  | .violation v => .text v.rule.id
  | .measurement x => .text x.metric.id

def subjectScope : Subject → Result (Option Item)
  | .violation { location := some l, .. } => pure (some (.entity l.smallest))
  | .measurement { location := some l, .. } => pure (some (.entity l.smallest))
  | .violation _ => throw .noField
  | .measurement _ => throw .noField
  | .scope e => pure (some (.entity e))
  | .nothing => throw .noField

def trace (entry : Value) : Job Interface Unit :=
  modify fun s => { s with trace := s.trace ++ [entry] }

def callAll (resolve : Resolver) (subject : Subject) : List Value → Job Interface Value
  | [] => pure .null
  | call :: calls => do
    match textOf call "do" with
    | "state" => pure (call.field "value")
    | "show_state" =>
      trace (.list [.text "state", (← get).state])
      callAll resolve subject calls
    | "echo" =>
      let scope ← Job.ofResult (subjectScope subject)
      let details := "echo of " ++ (subjectId (← get).model subject).display
      Interface.reportViolation (textOf call "rule") (.text details) scope {}
      callAll resolve subject calls
    | _ =>
      let _ ← perform resolve call
      callAll resolve subject calls

def hook (resolve : Resolver) (plugin name : String) (calls : List Value) (subject : Subject) :
    Job Interface Value := do
  trace (.list [.text plugin, .text name, subjectId (← get).model subject])
  callAll resolve subject calls

def pluginOf (resolve : Resolver) (v : Value) : Plugin :=
  let name := textOf v "name"
  { name, languages := (v.field "languages").items
    hook := fun h => (v.field "hooks").field? h |>.map fun calls =>
      hook resolve name h calls.items }

end Script

end RosAudit
