import RosAudit.FileTree
import RosAudit.Number
import RosAudit.Yaml.Document

/-!
# Rules and metrics

An audit reports against a registry of rules and metrics. They are registered from data, under
identifiers that may get a lead in front. Registering answers the identifiers that may be
reported: those that are not ignored, neither by themselves nor, for rules, by a tag.
-/

namespace RosAudit

structure Rule where
  id : String
  name : Value
  scope : Value
  description : Value
  tags : Value
  query : Value := .null

/-- A metric, with the bounds of its values. -/
structure Metric where
  id : String
  name : Value
  scope : Value
  description : Value
  minimum : Option Float := none
  maximum : Option Float := none

def Rule.toValue (r : Rule) : Value :=
  .object [("id", .text r.id), ("name", r.name), ("scope", r.scope),
    ("description", r.description), ("tags", r.tags), ("query", r.query)]

def boundValue : Option Float → Value
  | some x => .float x
  | none => .null

def Metric.toValue (k : Metric) : Value :=
  .object [("id", .text k.id), ("name", k.name), ("scope", k.scope),
    ("description", k.description), ("minimum", boundValue k.minimum),
    ("maximum", boundValue k.maximum)]

/-- What is left out of reports. -/
structure Ignored where
  rules : Value := .null
  tags : Value := .null
  metrics : Value := .null

/-- The rules and metrics that are known. -/
structure Registry where
  rules : Table String Rule := Table.empty
  metrics : Table String Metric := Table.empty

namespace Registry

def leadId (lead : String) (name : Value) : Result String :=
  match name with
  | .text s => pure (lead ++ s)
  | _ => throw .wrongKind

def isIgnored (ignored : Value) (id : String) : Result Bool :=
  if ignored.truthy then ignored.has id else pure false

def anyIgnored (ignored : Value) : List Value → Result Bool
  | [] => pure false
  | t :: ts => do if ← ignored.holds t then pure true else anyIgnored ignored ts

def addRule (lead : String) (ignored : Ignored) (name data : Value) :
    Job Registry (Option String) := do
  let read : Result Rule := do
    let id ← leadId lead name
    let tags ← data.need "tags"
    let title ← data.need "name"
    let scope ← data.look "scope" (.text "global")
    let description ← data.need "description"
    let query ← data.look "query" .null
    pure { id, name := title, scope, description, tags, query }
  let rule ← Job.ofResult read
  modify fun r => { r with rules := r.rules.put rule.id rule }
  if ← Job.ofResult (isIgnored ignored.rules rule.id) then return none
  if ignored.tags.truthy then
    if ← Job.ofResult (rule.tags.each.bind (anyIgnored ignored.tags)) then return none
  return some rule.id

def boundOf (v : Value) : Result (Option Float) :=
  if v.isNull then pure none else some <$> Number.toDouble v

def addMetric (lead : String) (ignored : Ignored) (name data : Value) :
    Job Registry (Option String) := do
  let read : Result Metric := do
    let id ← leadId lead name
    let minimum ← boundOf (← data.look "min" .null)
    let maximum ← boundOf (← data.look "max" .null)
    let title ← data.need "name"
    let scope ← data.look "scope" .null
    let description ← data.need "description"
    pure { id, name := title, scope, description, minimum, maximum }
  let metric ← Job.ofResult read
  modify fun r => { r with metrics := r.metrics.put metric.id metric }
  if ← Job.ofResult (isIgnored ignored.metrics metric.id) then return none
  return some metric.id

def addEntries (add : Value → Value → Job Registry (Option String)) (data : Value) :
    Job Registry (List String) := do
  let entries ← Job.ofResult data.pairs
  let ids ← entries.mapM fun (name, entry) => add name entry
  pure (ids.filterMap id)

def addRules (lead : String) (ignored : Ignored) (data : Value) : Job Registry (List String) :=
  addEntries (addRule lead ignored) data

def addMetrics (lead : String) (ignored : Ignored) (data : Value) : Job Registry (List String) :=
  addEntries (addMetric lead ignored) data

def load (t : FileTree) (path lead : String) (ignored : Ignored) :
    Job Registry (List String × List String) := do
  let data ← Job.ofResult ((t.read path).bind Yaml.load)
  let rules ← addRules lead ignored (← Job.ofResult (data.look "rules" (.record [])))
  let metrics ← addMetrics lead ignored (← Job.ofResult (data.look "metrics" (.record [])))
  pure (rules, metrics)

end Registry

end RosAudit
