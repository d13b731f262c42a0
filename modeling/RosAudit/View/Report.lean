import RosAudit.Audit.Report

/-!
# Reports as data
-/

namespace RosAudit

namespace Report

def resourceWord? (e : Entity) : Option String :=
  match e.kind with
  | .inst => some "node"
  | .topic => some "topic"
  | .service => some "service"
  | .param => some "param"
  | _ => none

def resourceValue? (m : Model) (x : Item) : Option Value :=
  match x with
  | .entity e => (resourceWord? e).map fun w =>
      .object [("name", .text? (m.id? e)), ("resourceType", .text w)]
  | _ => none

def violationValue (m : Model) (v : Violation) : Value :=
  .object [("rule", .text v.rule.id), ("comment", v.details),
    ("location", m.locationValue? v.location),
    ("resources", .list (v.affected.filterMap (resourceValue? m)))]

def measurementValue (m : Model) (x : Measurement) : Value :=
  .object [("metric", .text x.metric.id), ("value", x.value),
    ("location", m.locationValue? x.location)]

def findingsValue (m : Model) (r : Report) : Value :=
  let entryOf (id : String) (f : Findings) : Option (String × Value) :=
    if f.violations.isEmpty && f.metrics.isEmpty then none
    else some (id, .object [("violations", .list (f.violations.map (violationValue m))),
      ("metrics", .list (f.metrics.map (measurementValue m)))])
  .object ((r.index.entries.filterMap fun (id, i) => entryOf id (r.findingsAt i)) ++
    (entryOf "" (r.findingsAt r.whole)).toList)

def violationCounts (vs : List Violation) : Value :=
  let counts := vs.foldl (fun (t : Table String Nat) v => t.put v.rule.id (t.getD v.rule.id 0 + 1))
    Table.empty
  Value.ofTable Value.nat counts

def analysisValue (r : Report) (p : PackageReport) : Value :=
  let metrics :=
    Table.ofList ((r.findingsAt p.findings).metrics.map fun x => (x.metric.id, x.value))
  .object [("violations", violationCounts (r.allViolations p)),
    ("metrics", Value.ofTable (fun v => v) metrics)]

def packageValue (m : Model) (r : Report) (p : PackageReport) : Result Value := do
  match ← m.packageValue (m.package p.package) with
  | .record es => pure (.record (es ++ [(.text "analysis", r.analysisValue p)]))
  | v => pure v

def toValue (r : Report) : Result Value :=
  match r.statistics with
  | none => throw .noField
  | some s => do
    let cpp ← s.cppRatio
    let python ← s.pythonRatio
    let ratio ← Number.toDouble (← s.issueRatio)
    pure (.object [
      ("source", .object [("packages", .nat r.packages.size), ("files", s.files),
        ("scripts", s.scripts), ("languages", .object [("cpp", cpp), ("python", python)])]),
      ("issues", .object [("total", s.issues), ("coding", s.standardIssues),
        ("metrics", s.metricsIssues), ("other", s.otherIssues),
        ("ratio", .text (Decimal.fixedTwo ratio))]),
      ("components", .object [("launchFiles", s.launches), ("nodes", s.nodes),
        ("nodelets", s.nodelets), ("parameterFiles", .null),
        ("configurations", s.configurations)]),
      ("communications", .object [("topics", .null), ("remappings", .null), ("messages", .null),
        ("services", .null), ("actions", .null)])])

/-! ## Overviews -/

def placeValue (m : Model) (l : Option Location) : Result Value :=
  match l with
  | some l => pure (.text? (m.id? l.smallest))
  | none => throw .noField

def placeValues (tried : Result Value → Value) (m : Model) (r : Report) : Value :=
  .list ((r.index.values ++ [r.whole]).flatMap fun i =>
    let f := r.findingsAt i
    (f.violations.map fun v => tried (placeValue m v.location)) ++
      f.metrics.map fun x => tried (placeValue m x.location))

def statisticsValue (tried : Result Value → Value) : Option Statistics → Value
  | some s => s.toValue tried
  | none => .null

def packageOverview (tried : Result Value → Value) (m : Model) (r : Report) (sums : List String)
    (p : PackageReport) : Value :=
  let totals := sums.flatMap fun k =>
    [("sum:" ++ k, tried (Number.sum (r.valuesOf p k))),
      ("avg:" ++ k, tried (Number.mean (r.valuesOf p k)))]
  .object ([("stats", statisticsValue tried p.statistics), ("all", .nat (r.allViolations p).length),
    ("json", tried (packageValue m r p)), ("scope", .text (m.package p.package).id),
    ("scopes", .texts (p.files.map fun (f, _) => (m.file f).id))] ++ totals)

def overview (tried : Result Value → Value) (m : Model) (r : Report) (sums : List String)
    (previous : Option (List Statistics)) : Value :=
  let (done, r) := (summarise m).exec r
  let compared := match previous with
    | none => []
    | some before =>
      let compare : Job Statistics Unit := match r.statistics with
        | some s => Statistics.relative s before
        | none => throw .noField
      let (done, s) := compare.exec {}
      [("relative", tried (done.map fun _ => .null)), ("relative_stats", s.toValue tried)]
  .object ([("calc", tried (done.map fun _ => .null)),
    ("total", statisticsValue tried r.statistics), ("json", tried r.toValue),
    ("packages", Value.ofTable (packageOverview tried m r sums) r.packages),
    ("configs", .texts r.configurations.keys), ("scopes", placeValues tried m r),
    ("package_count", .nat r.packages.size)] ++ compared)

end Report

end RosAudit
