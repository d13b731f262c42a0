import RosAudit.Audit.Registry
import RosAudit.Audit.Statistics
import RosAudit.Model.Inspect

/-!
# Reports

An audit collects findings: violations of rules, and measurements of metrics. There is one
collection for each package, each file and each configuration of a project, and one for the
project as a whole, all in the store of a `Report`. An identifier leads to the collection that was
made for it last.

`Report.summarise` computes the statistics from the findings.
-/

namespace RosAudit

structure Violation where
  rule : Rule
  location : Option Location := none
  details : Value := .null
  affected : List Item := []

structure Measurement where
  metric : Metric
  location : Option Location := none
  value : Value := .null

/-- What was found about an object, or about the whole project. -/
structure Findings where
  scope : Option Entity := none
  violations : List Violation := []
  metrics : List Measurement := []
  deriving Inhabited

abbrev FindingsRef := Nat

/-- The report on a package and its files. -/
structure PackageReport where
  package : Ref .package
  findings : FindingsRef
  files : List (Ref .file × FindingsRef) := []
  statistics : Option Statistics := none

structure Report where
  project : Ref .project
  timestamp : String
  store : Array Findings := #[]
  index : Table String FindingsRef := Table.empty
  whole : FindingsRef := 0
  packages : Table String PackageReport := Table.empty
  configurations : Table String (Ref .configuration × FindingsRef) := Table.empty
  statistics : Option Statistics := none

namespace Report

def findingsAt (r : Report) (i : FindingsRef) : Findings := r.store.getD i {}

def placeOf (r : Report) (m : Model) (e : Entity) : Option FindingsRef :=
  (m.id? e).bind r.index.get?

def enlist (r : Report) (m : Model) (e : Entity) : Report × FindingsRef :=
  let i := r.store.size
  ({ r with store := r.store.push { scope := some e }
            index := r.index.put ((m.id? e).getD "") i }, i)

def addPackage (m : Model) (r : Report) (p : Ref .package) : Report :=
  let (r, i) := r.enlist m p.entity
  let (r, files) := (m.package p).files.foldl (fun (r, fs) f =>
    let (r, j) := r.enlist m f.entity
    (r, fs ++ [(f, j)])) (r, [])
  { r with packages := r.packages.put (m.package p).id { package := p, findings := i, files } }

def addConfiguration (m : Model) (r : Report) (c : Ref .configuration) : Report :=
  let (r, i) := r.enlist m c.entity
  { r with configurations := r.configurations.put ((m.id? c.entity).getD "") (c, i) }

def make (m : Model) (project : Ref .project) (timestamp : String) : Report :=
  let p := m.project project
  let r : Report := { project, timestamp }
  let r := p.packages.foldl (addPackage m) r
  let r := p.configurations.foldl (addConfiguration m) r
  { r with whole := r.store.size, store := r.store.push {} }

def addViolation (r : Report) (i : FindingsRef) (v : Violation) : Report :=
  { r with store := r.store.modify i fun f => { f with violations := f.violations ++ [v] } }

def addMeasurement (r : Report) (i : FindingsRef) (x : Measurement) : Report :=
  { r with store := r.store.modify i fun f => { f with metrics := f.metrics ++ [x] } }

def violationCount (r : Report) : Nat :=
  (r.store.toList.map fun f => f.violations.length).foldl (· + ·) 0

/-! ## Packages -/

def fileFindings (r : Report) (p : PackageReport) : List Findings :=
  p.files.map fun (_, i) => r.findingsAt i

def allViolations (r : Report) (p : PackageReport) : List Violation :=
  (r.findingsAt p.findings).violations ++ (r.fileFindings p).flatMap Findings.violations

def valuesOf (r : Report) (p : PackageReport) (metric : String) : List Value :=
  ((r.fileFindings p).flatMap Findings.metrics).filterMap fun x =>
    if x.metric.id == metric then some x.value else none

/-! ## Statistics -/

def sortIssue (v : Violation) : Result (Bool × Bool) := do
  let standard ← v.rule.tags.has "code-standards"
  let metrics ← v.rule.tags.has "metrics"
  pure (standard, metrics)

def bump (test : Bool) (v : Value) : Result Value := if test then Number.add v (.int 1) else pure v

def countIssues (f : Findings) (s : Statistics) : Result Statistics := do
  let s := { s with issues := ← Number.add s.issues (.nat f.violations.length) }
  f.violations.foldlM (fun s v => do
    let (standard, metrics) ← sortIssue v
    pure { s with
      standardIssues := ← bump standard s.standardIssues
      metricsIssues := ← bump metrics s.metricsIssues
      otherIssues := ← bump (!standard && !metrics) s.otherIssues }) s

def countPackage (m : Model) (r : Report) (s : Statistics) (p : PackageReport) :
    Result Statistics := do
  let x := m.package p.package
  let s := { s with files := ← Number.add s.files (.nat x.files.length) }
  let s ← countIssues (r.findingsAt p.findings) s
  let nodelets := x.nodes.filter fun n => (m.node n).nodelet.isSome
  pure { s with nodes := ← Number.add s.nodes (.nat x.nodes.length)
                nodelets := ← Number.add s.nodelets (.nat nodelets.length) }

/-- The lists of which means are taken. -/
structure Samples where
  complexities : List Value := []
  functionLines : List Value := []
  fileLines : List Value := []

def lineMetrics : List String := ["sloc", "eloc", "ploc"]

def takeMeasurement (sm : Statistics × Samples) (x : Measurement) :
    Result (Statistics × Samples) := do
  let (s, k) := sm
  if x.metric.id == "comments" then
    pure ({ s with commentLines := ← Number.add s.commentLines x.value }, k)
  else if x.metric.id == "cyclomatic_complexity" then
    pure (s, { k with complexities := k.complexities ++ [x.value] })
  else if lineMetrics.contains x.metric.id then
    match x.location with
    | none => throw .noField
    | some (.source _ _ _ (some _) _) =>
      pure (s, { k with functionLines := k.functionLines ++ [x.value] })
    | some (.source _ _ _ none _) => pure (s, k)
    | some (.runtime _) => throw .noField
  else pure (s, k)

def countFile (m : Model) (sm : Statistics × Samples) (f : Ref .file) (found : Findings) :
    Result (Statistics × Samples) := do
  let (s, k) := sm
  let x := m.file f
  let lines := Value.int x.lines
  let isScript := Text.startsWith "scripts/".toList x.fullName.toList
  let isCpp := x.language == "cpp"
  let isPython := x.language == "python"
  let s := { s with
    lines := ← Number.add s.lines lines
    scripts := ← bump isScript s.scripts
    cppLines := ← Number.add s.cppLines (if isCpp then lines else .int 0)
    pythonLines := ← Number.add s.pythonLines (if isPython then lines else .int 0)
    launches := ← bump (x.language == "launch") s.launches
    paramFiles := ← bump (x.language == "yaml") s.paramFiles }
  let k := { k with fileLines := k.fileLines ++ [lines] }
  let s ← countIssues found s
  if isCpp || isPython then found.metrics.foldlM takeMeasurement (s, k) else pure (s, k)

def statisticsOf (m : Model) (r : Report) (ps : List PackageReport) : Result Statistics := do
  let s ← ps.foldlM (countPackage m r) {}
  let (s, k) ← (ps.flatMap PackageReport.files).foldlM (fun sm (f, i) =>
    countFile m sm f (r.findingsAt i)) (s, {})
  pure { s with
    complexity := ← Number.mean k.complexities
    functionLength := ← Number.mean k.functionLines
    fileLength := ← Number.mean k.fileLines }

def summarisePackages (m : Model) : List (String × PackageReport) → Job Report Unit
  | [] => pure ()
  | (id, p) :: ps => do
    modify fun r => { r with packages := r.packages.put id { p with statistics := none } }
    let s ← Job.ofResult (statisticsOf m (← get) [p])
    modify fun r => { r with packages := r.packages.put id { p with statistics := some s } }
    summarisePackages m ps

def summarise (m : Model) : Job Report Unit := do
  let r ← get
  let s ← Job.ofResult (statisticsOf m r r.packages.values)
  set { r with statistics := some s }
  summarisePackages m r.packages.entries

end Report

end RosAudit
