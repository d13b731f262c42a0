import RosAudit.Json.Reader
import RosAudit.Json.Writer
import RosAudit.View.Report

/-!
# Exports

The outcome of an audit as JSON files: each export is a list of files by name with what is to be
written into them. `Export.write` writes them one after another, until one has no JSON form.
-/

namespace RosAudit

abbrev Export := List (String × Result Value)

namespace Export

def textOf (v : Value) : Result String :=
  match Json.render v with
  | some s => pure s
  | none => throw .wrongKind

def write (folder : String) : Export → Job FileTree Unit
  | [] => pure ()
  | (name, content) :: rest => do
    let text ← Job.ofResult (content.bind textOf)
    let t ← get
    set (← Job.ofResult (t.write (Path.join folder name) text))
    write folder rest

/-! ## Projects -/

def upsert (name : String) (project : Value) : List Value → Result (List Value)
  | [] => pure [project]
  | v :: vs => do
    if Value.same (← v.need "id") (.text name) then pure (project :: vs)
    else return v :: (← upsert name project vs)

def addProject (m : Model) (p : Ref .project) (data : Value) : Result Value :=
  let x := m.project p
  match data with
  | .list vs => return .list (← upsert x.name (m.projectValue x) vs)
  | .record [] | .text "" => throw .noField
  | .record _ => throw .noKey
  | _ => throw .wrongKind

def listed (t : FileTree) (folder : String) : Result Value := do
  match Json.parse (← t.read (Path.join folder "projects.json")) with
  | some data => pure data
  | none => throw .json

def projects (t : FileTree) (folder : String) (ps : List (Model × Ref .project))
    (overwrite : Bool) : Export :=
  let content : Result Value :=
    if overwrite || !t.isFile (Path.join folder "projects.json") then
      pure (.list (ps.map fun (m, p) => m.projectValue (m.project p)))
    else do ps.foldlM (fun data (m, p) => addProject m p data) (← listed t folder)
  [("projects.json", content)]

/-! ## Findings -/

def packageValue (m : Model) (r : Report) (p : PackageReport) : Value :=
  let x := m.package p.package
  let size := Float.ofInt x.size / 1000.0
  .object [("id", .text x.name), ("metapackage", .bool x.isMetapackage),
    ("description", .text x.description), ("wiki", .text? x.website),
    ("repository", .text? x.vcsUrl), ("bugTracker", .text? x.bugUrl),
    ("authors", Model.peopleNames x.authors), ("maintainers", Model.peopleNames x.maintainers),
    ("dependencies", .texts (FileTree.sortTexts x.dependencies)),
    ("size", .text (Decimal.fixedTwo size)), ("lines", .int x.lines), ("sloc", .int x.sloc),
    ("analysis", r.analysisValue p)]

def packages (m : Model) (r : Report) : Export :=
  [("packages.json", pure (.list (r.packages.values.map (packageValue m r))))]

def rules (g : Registry) : Export :=
  [("rules.json", pure (.list (g.rules.values.map Rule.toValue)))]

def metrics (g : Registry) : Export :=
  [("metrics.json", pure (.list (g.metrics.values.map Metric.toValue)))]

def source (m : Model) (r : Report) : Export :=
  r.packages.values.map fun p =>
    ((m.package p.package).name ++ ".json",
     pure (.list ((r.allViolations p).map (Report.violationValue m))))

def runtime (m : Model) (r : Report) : Export :=
  r.configurations.values.map fun (c, i) =>
    ((m.configuration c).name ++ ".json",
     pure (.list ((r.findingsAt i).violations.map (Report.violationValue m))))

def other (m : Model) (r : Report) : Export :=
  [("unknown.json", pure (.list ((r.findingsAt r.whole).violations.map (Report.violationValue m))))]

def measurements (m : Model) (r : Report) : Export :=
  r.packages.values.map fun p =>
    let found := (r.findingsAt p.findings).metrics ++ (r.fileFindings p).flatMap Findings.metrics
    ((m.package p.package).name ++ ".json", pure (.list (found.map (Report.measurementValue m))))

/-! ## Configurations -/

def targetWord (role : LinkRole) : String :=
  match role with
  | .publish | .subscribe | .topic => "topic"
  | .serve | .request | .service => "service"
  | .read | .write | .param => "param"

def affectedValue? (m : Model) (c : Ref .configuration) (x : Item) : Option Value :=
  match x with
  | .entity e =>
    if m.configurationOf? e != some c then none
    else if e.kind == .link then
      let l := m.link ⟨e.index⟩
      some (.object [("node", .text (m.inst l.node).name.full),
        (targetWord l.role, .text? (m.id? l.target)), ("resourceType", .text "link")])
    else Report.resourceValue? m x
  | _ => none

def queries (m : Model) (c : Ref .configuration) (vs : List Violation) : Value :=
  let found := vs.foldl (fun (t : Table String (Value × List Value)) v =>
    match v.affected.filterMap (affectedValue? m c) with
    | [] => t
    | xs =>
      let (name, before) := t.getD v.rule.id (v.rule.name, [])
      t.put v.rule.id (name, before ++ xs)) Table.empty
  .list (found.entries.map fun (id, name, xs) =>
    .object [("rule", .text id), ("name", name), ("objects", .list xs)])

def configurationValue (m : Model) (r : Report) (c : Ref .configuration) (i : FindingsRef) :
    Result Value := do
  match ← m.configurationValue (m.configuration c) with
  | .record es =>
    pure (.record (es ++ [(.text "queries", queries m c (r.findingsAt i).violations)]))
  | v => pure v

def configurations (m : Model) (r : Report) : Export :=
  [("configurations.json", do
    return .list (← r.configurations.values.mapM fun (c, i) => configurationValue m r c i))]

/-! ## Summaries -/

abbrev History := List (String × Statistics)

def historyColumns : List (String × (Statistics → Value)) :=
  [("lines_of_code", Statistics.lines), ("comments", Statistics.commentLines),
   ("issues", Statistics.issues), ("standards", Statistics.standardIssues),
   ("metrics", Statistics.metricsIssues), ("complexity", Statistics.complexity),
   ("function_length", Statistics.functionLength)]

def historyValue (h : History) : Value :=
  .object (("timestamps", .texts (h.map Prod.fst)) ::
    historyColumns.map fun (name, get) => (name, .list (h.map fun e => get e.2)))

def summary (r : Report) (past : History) : Export :=
  let content : Result Value := do
    match ← r.toValue, r.statistics with
    | .record es, some s =>
      pure (.record (es ++ [(.text "history", historyValue (past ++ [(r.timestamp, s)]))]))
    | v, _ => pure v
  [("summary.json", content)]

end Export

end RosAudit
