import RosAudit.Audit.Database
import RosAudit.Audit.Report

/-!
# Queries

A rule may come with a query, which is put to an engine outside the audit. Rules about packages
are asked for each package, rules about configurations for each configuration, and all others
once. Every match becomes a violation: with the findings of the package or configuration that was
asked about, or else with those of the first object in the match that has findings, or else with
those of the whole project.
-/

namespace RosAudit

namespace Model

variable (m : Model)

mutual

def reprItem : Item → String
  | .entity e => m.shown e
  | .group xs =>
    match reprItems xs with
    | [s] => "(" ++ s ++ ",)"
    | ss => "(" ++ ", ".intercalate ss ++ ")"
  | .named es => "\x7b" ++ ", ".intercalate (reprEntries es) ++ "\x7d"
  | .data v => v.shown

def reprItems : List Item → List String
  | [] => []
  | x :: xs => reprItem x :: reprItems xs

def reprEntries : List (String × Item) → List String
  | [] => []
  | (k, x) :: es => (Text.quote k ++ ": " ++ reprItem x) :: reprEntries es

end

def showItem : Item → String
  | .data v => v.display
  | x => m.reprItem x

end Model

/-- What a query can see: names, the numbers of files, packages, nodes and configurations, and the
object it is asked about. -/
structure QueryView where
  names : List String
  files : Nat := 0
  packages : Nat := 0
  nodes : Nat := 0
  configurations : Nat := 0
  subject : Option String := none

abbrev QueryEngine := String → Option (List Item)

/-- A report that queries add to, and what they were asked with. -/
structure QueryRun where
  report : Report
  asked : List (String × QueryView) := []

namespace Query

def commonNames : List String := ["configs", "files", "is_rosglobal", "nodes", "packages"]

def configurationNames : List String :=
  ["config", "configs", "files", "is_rosglobal", "nodes", "packages", "parameters", "services",
   "topics"]

def packageNames : List String :=
  ["configs", "files", "is_rosglobal", "nodes", "package", "packages"]

def partsOf (m : Model) (x : Item) : String × List Item :=
  match x with
  | .group [.group xs] => ("(" ++ ", ".intercalate (xs.map m.showItem) ++ ")", xs)
  | .group xs => ("(" ++ ", ".intercalate (xs.map m.showItem) ++ ")", xs)
  | .named es =>
    ("\x7b" ++ ", ".intercalate (es.map fun (k, x) => k ++ ": " ++ m.showItem x) ++ "\x7d",
     es.map Prod.snd)
  | .data (.record es) =>
    ("\x7b" ++ ", ".intercalate (es.map fun (k, v) => k.display ++ ": " ++ v.display) ++ "\x7d", [])
  | x => (m.showItem x, [x])

def entitiesOf (xs : List Item) : List Entity :=
  xs.filterMap fun
    | .entity e => some e
    | _ => none

def placesOf (m : Model) (es : List Entity) : Result (Table String Location) :=
  es.foldlM (fun t e =>
    match m.locationOf e with
    | none => throw .noField
    | some l => pure (t.put ((m.id? l.smallest).getD "") l)) Table.empty

def firstPlace (m : Model) (r : Report) (details : String) :
    List (String × Location) → String × Option (FindingsRef × Location)
  | [] => (details, none)
  | (id, l) :: ls =>
    let details := details ++ "\nReported " ++ m.showLocation l
    match r.index.get? id with
    | some i => (details, some (i, l))
    | none => firstPlace m r details ls

def reportMatch (m : Model) (rule : Rule) (asked : Option Location) (x : Item) :
    Job QueryRun Unit := do
  let r := (← get).report
  let (text, parts) := partsOf m x
  let affected := entitiesOf parts
  let places ← Job.ofResult (placesOf m affected)
  let details := "Query found: " ++ text
  let (details, found) ← match asked with
    | some l =>
      match r.placeOf m l.smallest with
      | some i => pure (details, some (i, l))
      | none => throw .noKey
    | none => pure (firstPlace m r details places.entries)
  let v : Violation := { rule, location := found.map Prod.snd, details := .text details
                         affected := affected.map .entity }
  let i := (found.map Prod.fst).getD r.whole
  modify fun q => { q with report := q.report.addViolation i v }

def ask (m : Model) (engine : QueryEngine) (view : QueryView) (asked : Option Location)
    (rule : Rule) : Job QueryRun Unit := do
  let text := rule.query.display
  modify fun q => { q with asked := q.asked ++ [(text, view)] }
  match engine text with
  | none => pure ()
  | some found => for x in found do reportMatch m rule asked x

def packageView (m : Model) (p : Ref .package) : QueryView :=
  { names := packageNames, files := (m.package p).files.length, nodes := (m.package p).nodes.length
    subject := some (m.shown p.entity) }

def configurationView (m : Model) (c : Ref .configuration) : QueryView :=
  { names := configurationNames, nodes := (m.configuration c).nodes.all.length
    subject := some (m.shown c.entity) }

def run (m : Model) (c : Catalog) (engine : QueryEngine) (rules : List Rule) :
    Job QueryRun Unit := do
  let rules := rules.filter fun r => r.query.truthy
  let about (scope : String) (r : Rule) : Bool := Value.same r.scope (.text scope)
  for p in c.packages.values do
    for r in rules.filter (about "package") do
      ask m engine (packageView m p) (m.locationOf p.entity) r
  for k in c.configurations do
    for r in rules.filter (about "configuration") do
      ask m engine (configurationView m k) (m.locationOf k.entity) r
  let view : QueryView := {
    names := commonNames, files := c.files.size, packages := c.packages.size
    nodes := c.nodes.size, configurations := c.configurations.length }
  for r in rules.filter fun r => !about "package" r && !about "configuration" r do
    ask m engine view none r

def isGlobal (name : Value) : Result Value :=
  match name with
  | .text s => pure (if s.isEmpty then name else .bool (Text.startsWith ['/'] s.toList))
  | v => if v.truthy then throw .noField else pure v

end Query

end RosAudit
