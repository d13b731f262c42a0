import RosAudit.Audit.Plugin
import RosAudit.Audit.Query

/-!
# Running an audit

An audit puts the queries of the rules, lets every plugin analyse the files, packages and
configurations of the project, and then lets every plugin process the findings. What processing
reports is filed when all plugins are done. A plugin that fails is left alone, and the next one
goes on. In the end marked files are moved to the export folder, and the statistics are computed.
-/

namespace RosAudit

/-- Where an audit keeps its files, and the engine for queries if there is one. -/
structure AuditPlaces where
  outFolder : String
  exportFolder : String
  engine : Option (String × QueryEngine) := none

namespace Audit

def within {α : Type} (folder : String) (job : Job Interface α) : Job Interface α := do
  let s ← get
  let files ← Job.ofResult (s.files.enter folder)
  set { s with files }
  let r ← job.attempt
  modify fun t => { t with files := { t.files with current := s.files.current } }
  Job.ofResult r

def prepare (places : AuditPlaces) : List Plugin → Job Interface Unit
  | [] => pure ()
  | p :: ps => do
    let s ← get
    let files ← Job.ofResult (s.files.makeFolder (Path.join places.outFolder p.name))
    set { s with files }
    prepare places ps

def askedValue (asked : String × QueryView) : Value :=
  let (query, v) := asked
  .list [.text query, .texts v.names,
    .list [.nat v.files, .nat v.packages, .nat v.nodes, .nat v.configurations], .text? v.subject]

def query (places : AuditPlaces) : Job Interface Unit := do
  match places.engine with
  | none => pure ()
  | some (folder, engine) =>
    modify fun s => { s with trace := s.trace ++ [.list [.text "parser", .text folder]] }
    let s ← get
    let rules := s.registry.rules.values.filter fun r => s.allowedRules.contains r.id
    let (r, q) := (Query.run s.model s.catalog engine rules).exec { report := s.report }
    set { s with report := q.report, trace := s.trace ++ q.asked.map askedValue }
    Job.ofResult r

def call (p : Plugin) (name : String) (subject : Subject) : Job Interface Unit :=
  match p.hook name with
  | none => pure ()
  | some f => do
    let _ ← f subject
    pure ()

/-- The state that a hook has prepared: none if it asks for something that does not exist. -/
def prepared : Result Value → Result Value
  | .ok v => pure v
  | .error .noField => pure .null
  | .error e => throw e

/-- Calls a hook that prepares a state. A plugin without one has no state. -/
def callBefore (p : Plugin) (name : String) : Job Interface Value :=
  match p.hook name with
  | none => pure .null
  | some f => do Job.ofResult (prepared (← (f .nothing).attempt))

def callAfter (p : Plugin) (name : String) : Job Interface Unit := do
  let _ ← callBefore p name

def focus (e : Entity) : Job Interface FindingsRef := do
  let s ← get
  match s.report.placeOf s.model e with
  | none => throw .noKey
  | some i =>
    set { s with current := some i }
    pure i

def subjects :
    Job Interface (List (Ref .package) × List (Ref .file) × List (Ref .configuration)) := do
  let s ← get
  let p := s.model.project s.report.project
  pure (p.packages, p.packages.flatMap fun r => (s.model.package r).files, p.configurations)

def start (p : Plugin) (folder hook : String) : Job Interface Unit := do
  let state ← callBefore p hook
  modify fun s => { s with plugin := p.name, folder, state }

def analyseWith (p : Plugin) (folder : String) : Job Interface Unit := do
  start p folder "pre_analysis"
  let (packages, files, configurations) ← subjects
  let m := (← get).model
  for f in files do
    let _ ← focus f.entity
    if p.languages.any (Value.same (.text (m.file f).language)) then
      call p "file_analysis" (.scope f.entity)
  for k in packages do
    let _ ← focus k.entity
    call p "package_analysis" (.scope k.entity)
  for c in configurations do
    let _ ← focus c.entity
    call p "configuration_analysis" (.scope c.entity)
  modify fun s => { s with current := none }
  callAfter p "post_analysis"

def processFindings (p : Plugin) (kind : String) (e : Entity) : Job Interface Unit := do
  let i ← focus e
  let found := (← get).report.findingsAt i
  for v in found.violations do call p ("process_" ++ kind ++ "_violation") (.violation v)
  for x in found.metrics do call p ("process_" ++ kind ++ "_metric") (.measurement x)

def processAll (p : Plugin) : Job Interface Unit := do
  let (packages, files, configurations) ← subjects
  for f in files do processFindings p "file" f.entity
  for k in packages do processFindings p "package" k.entity
  for c in configurations do processFindings p "configuration" c.entity
  modify fun s => { s with current := none }
  callAfter p "post_process"

def processWith (p : Plugin) (folder : String) : Job Interface Unit := do
  start p folder "pre_process"
  processAll p

def eachPlugin (places : AuditPlaces) (work : Plugin → String → Job Interface Unit) :
    List Plugin → Job Interface Unit
  | [] => pure ()
  | p :: ps => do
    let folder := Path.join places.outFolder p.name
    within folder do
      let _ ← (work p folder).attempt
    eachPlugin places work ps

def processing (places : AuditPlaces) (plugins : List Plugin) : Job Interface Unit := do
  Interface.hold
  eachPlugin places processWith plugins

/-! ## Exports -/

def exportName (path : String) : String :=
  let name := Path.base path
  if name.toList.contains '.' then name else name ++ ".data"

def fourDigits (n : Nat) : String :=
  let ds := Nat.toDigits 10 n
  String.ofList (List.replicate (4 - ds.length) '0' ++ ds)

def freeName (t : FileTree) (folder name : String) : Nat → Nat → Option String
  | 0, _ => none
  | tries + 1, n =>
    let path := Path.join folder (if n = 0 then name else "d" ++ fourDigits n ++ name)
    if t.isFile path then freeName t folder name tries (n + 1) else some path

def move (t : FileTree) (source target : String) : Result FileTree := do
  let text ← t.stored source
  let time ← t.modified source
  let target := if t.isFolder target then Path.join target (Path.base source) else target
  if t.isFolder target || !t.isFolder (Path.parent target) then throw .fileAccess
  let t ← t.removeFile source
  t.place target text time

/-- Moves a file to its first free name; it stays if the name and 9998 numbered ones are taken. -/
def moveExport (folder : String) (t : FileTree) (f : String) : Result FileTree :=
  match freeName t folder (exportName f) 9999 0 with
  | none => pure t
  | some target => move t f target

def moveExports (folder : String) (files : List String) (t : FileTree) : Result FileTree :=
  files.foldlM (moveExport folder) t

/-! ## The whole audit -/

def run (places : AuditPlaces) (plugins : List Plugin) : Job Interface Unit := do
  prepare places plugins
  query places
  eachPlugin places analyseWith plugins
  processing places plugins
  Interface.commit
  let s ← get
  let files ← Job.ofResult (moveExports places.exportFolder s.exported s.files)
  set { s with files }
  let (r, report) := (Report.summarise s.model).exec s.report
  let configurations := Value.nat (s.model.project report.project).configurations.length
  let statistics := report.statistics.map fun k =>
    if r.isOk then { k with configurations } else k
  set { s with files, report := { report with statistics } }
  Job.ofResult r

end Audit

end RosAudit
