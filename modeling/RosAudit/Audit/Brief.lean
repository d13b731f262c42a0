import RosAudit.Audit.Export
import RosAudit.Audit.Run
import RosAudit.Audit.Script

/-!
# Briefs

A brief describes an audit by data: the project, as a scene, the rules and metrics, what is
ignored, and findings that are already there. From a brief come an `Interface` to try out, a run
of queries and a whole audit.
-/

namespace RosAudit

structure Brief where
  scene : Scene
  database : Database
  allowedRules : List String := []
  allowedMetrics : List String := []
  report : Report

namespace Brief

def resolver (s : Scene) : Script.Resolver := fun v => ((Scene.itemOf v).exec s).1

def ignoredOf (v : Value) : Ignored :=
  { rules := v.field "ignored_rules", tags := v.field "ignored_tags"
    metrics := v.field "ignored_metrics" }

def recordOf (v : Value) (k : String) : Value :=
  match v.field k with
  | .null => .record []
  | x => x

def entryOf {α : Type} (t : Table String α) (v : Value) : Result α :=
  match v.asText?.bind t.get? with
  | some a => pure a
  | none => throw .noKey

def locationOf (s : Scene) (v : Value) : Result (Option Location) :=
  ((Scene.locationOf (v.field "loc")).exec s).1

def violationOf (s : Scene) (r : Registry) (v : Value) : Result Violation := do
  let rule ← entryOf r.rules (v.field "rule")
  let location ← locationOf s v
  let affected ← (v.field "affected").items.mapM (resolver s)
  pure { rule, location, details := v.field "details", affected }

def measurementOf (s : Scene) (r : Registry) (v : Value) : Result Measurement := do
  let metric ← entryOf r.metrics (v.field "metric")
  let location ← locationOf s v
  pure { metric, location, value := v.field "value" }

def addFindings (s : Scene) (r : Registry) (report : Report) (id : String) (v : Value) :
    Result Report := do
  let i ← if id.isEmpty then pure report.whole else entryOf report.index (.text id)
  let report ← (v.field "violations").items.foldlM (fun report x =>
    return report.addViolation i (← violationOf s r x)) report
  (v.field "metrics").items.foldlM (fun report x =>
    return report.addMeasurement i (← measurementOf s r x)) report

def ofValue (scene : Scene) (v : Value) : Result Brief := do
  let d : Database := { model := scene.model }
  let d := d.register scene.project
  let register : Job Registry (List String × List String) := do
    let rules ← Registry.addRules "" (ignoredOf v) (recordOf v "rules")
    let metrics ← Registry.addMetrics "" (ignoredOf v) (recordOf v "metrics")
    pure (rules, metrics)
  let (allowed, registry) := register.exec {}
  let (allowedRules, allowedMetrics) ← allowed
  let report ← (v.field "reports").fields.foldlM (fun r (id, x) =>
    addFindings scene registry r id x) (Report.make scene.model scene.project "T")
  pure { scene, database := { d with registry }, allowedRules, allowedMetrics, report }

def ignoredLines (v : Value) : Table String (List (Option Int)) :=
  Table.ofList ((v.field "ignored_lines").fields.map fun (id, ns) =>
    (id, ns.items.map Value.asInt?))

def interface (b : Brief) (v : Value) : Interface :=
  { model := b.database.model, files := b.scene.files, registry := b.database.registry
    catalog := b.database.catalog, report := b.report, allowedRules := b.allowedRules
    allowedMetrics := b.allowedMetrics, ignoredLines := ignoredLines v }

/-! ## Trying an interface -/

def tally (s : Interface) : Value :=
  let buffered := match s.buffers.violations with
    | none => Value.null
    | some vs => .list [.nat vs.length, .nat ((s.buffers.metrics.map List.length).getD 0)]
  .object [("violations", .nat s.report.violationCount), ("buffered", buffered)]

def tryCall (resolve : Script.Resolver) (step : Value) : Job Interface Value := do
  match Script.textOf step "do" with
  | "at" =>
    let s ← get
    match step.field "id" with
    | .null => set { s with current := none }
    | id => set { s with current := some (← Job.ofResult (entryOf s.report.index id)) }
    pure .null
  | "buffer" => do Interface.hold; pure .null
  | "commit" => do Interface.commit; pure .null
  | _ =>
    match ← Script.perform resolve step with
    | some v => pure v
    | none => return tally (← get)

/-! ## Queries -/

def engineOf (resolve : Script.Resolver) (answers : Value) : QueryEngine := fun q =>
  match answers.field q with
  | .text _ => none
  | v => some (v.items.filterMap fun x => (resolve x).toOption)

def rulesOf (b : Brief) (order : Value) : Result (List Rule) :=
  match order with
  | .null => pure b.database.registry.rules.values
  | ids => ids.items.mapM (entryOf b.database.registry.rules)

/-! ## Whole audits -/

def audit (b : Brief) (root : String) (v : Value) : Result (Result Unit × Interface) := do
  let resolve := resolver b.scene
  let outFolder := Path.join root "out"
  let exportFolder := Path.join root "export"
  let files ← b.scene.files.ensureFolders outFolder
  let files ← files.ensureFolders exportFolder
  let files ← (v.field "exported").fields.foldlM (fun t (name, text) =>
    t.place (Path.join exportFolder name) (text.asText?.getD "")) files
  let restricts := Scene.flag v "restrict" true
  let s := b.interface v
  let known := b.database.registry
  let places : AuditPlaces := {
    outFolder, exportFolder
    engine := (v.field? "matches").map fun a => (Path.join root "pyflwor", engineOf resolve a) }
  let s := { s with
    files
    report := Report.make b.database.model b.scene.project "T"
    allowedRules := if restricts then b.allowedRules else known.rules.keys
    allowedMetrics := if restricts then b.allowedMetrics else known.metrics.keys }
  pure ((Audit.run places ((v.field "plugins").items.map (Script.pluginOf resolve))).exec s)

/-! ## Exports -/

def historyOf (v : Value) : Export.History :=
  v.items.map fun x => (Script.textOf x "timestamp", Statistics.ofValue (x.field "stats"))

def exportNames : List String :=
  ["projects", "packages", "rules", "metrics", "source", "runtime", "other", "measurements",
   "configurations", "summary"]

def exportOf (b : Brief) (t : FileTree) (folder : String) (v : Value) (name : String) : Export :=
  let m := b.database.model
  match name with
  | "projects" => Export.projects t folder [(m, b.scene.project)] (Scene.flag v "overwrite" true)
  | "packages" => Export.packages m b.report
  | "rules" => Export.rules b.database.registry
  | "metrics" => Export.metrics b.database.registry
  | "source" => Export.source m b.report
  | "runtime" => Export.runtime m b.report
  | "other" => Export.other m b.report
  | "measurements" => Export.measurements m b.report
  | "configurations" => Export.configurations m b.report
  | _ => Export.summary b.report (historyOf (v.field "history"))

def jsonFiles (t : FileTree) (folder : String) : Result Value := do
  let files ← (t.names folder).mapM fun name => do
    match Json.parse (← t.stored (Path.join folder name)) with
    | some v => pure (name, v)
    | none => throw .json
  pure (.object files)

def exported (b : Brief) (v : Value) (name : String) : Result Value := do
  let folder := "/export"
  let t ← FileTree.ensureFolders {} folder
  let t ← match name, v.field? "existing" with
    | "projects", some x => t.place (Path.join folder "projects.json") (← Export.textOf x)
    | _, _ => pure t
  let (done, t) := ((b.exportOf t folder v name).write folder).exec t
  let _ ← done
  jsonFiles t folder

end Brief

end RosAudit
