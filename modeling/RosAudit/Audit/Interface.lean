import RosAudit.Audit.Database
import RosAudit.Audit.Report
import RosAudit.Settings

/-!
# What plugins can do

A plugin talks to the audit through an `Interface`: it reports violations and measurements, looks
up packages and marks files for export. A report goes to the findings of its scope, or of the
package or configuration around it; while buffers are active it waits there until they are
committed.
-/

namespace RosAudit

/-- Reports that wait to be committed. -/
structure Buffers where
  violations : Option (List Violation) := none
  metrics : Option (List Measurement) := none

/-- The side of an audit that a plugin sees. -/
structure Interface where
  model : Model
  files : FileTree
  registry : Registry
  catalog : Catalog := {}
  report : Report
  allowedRules : List String := []
  allowedMetrics : List String := []
  ignoredLines : Table String (List (Option Int)) := Table.empty
  current : Option FindingsRef := none
  buffers : Buffers := {}
  plugin : String := ""
  folder : String := ""
  exported : List String := []
  modules : Table String String := Table.empty
  trace : List Value := []
  state : Value := .null

namespace Interface

/-- Where in a scope something was found. -/
structure Spot where
  line : Option Int := none
  function : Option String := none
  className : Option String := none

def currentScope : Job Interface (Option Entity) := do
  let s ← get
  match s.current with
  | none => throw .noField
  | some i => pure (s.report.findingsAt i).scope

/-- Does an item count as one: an object, or anything that is not empty, zero or null? -/
def counts : Item → Bool
  | .entity _ => true
  | .group xs => !xs.isEmpty
  | .named es => !es.isEmpty
  | .data v => v.truthy

/-- The object that a report names, or the current one if it names nothing. -/
def scopeOr (given : Option Item) : Job Interface Entity := do
  match given.filter counts with
  | some (.entity e) => pure e
  | none =>
    match ← currentScope with
    | some e => pure e
    | none => throw .noField
  | some _ => throw .noField

def scopeId (m : Model) (e : Entity) : Result String :=
  match m.id? e with
  | some id => pure id
  | none => throw .noField

def locate (m : Model) (e : Entity) (at_ : Spot) : Result Location :=
  match m.locationOf e with
  | none => throw .noField
  | some (.source p f _ _ _) => pure (.source p f at_.line at_.function at_.className)
  | some l => pure l

def ignoresLine (s : Interface) (id : String) (line : Option Int) : Bool :=
  (s.ignoredLines.getD id []).contains line

/-- The findings for a scope: its own, or those of what it belongs to. -/
def findingsFor (s : Interface) (id : String) (l : Location) : Result FindingsRef :=
  match s.report.index.get? id, s.report.placeOf s.model l.largest with
  | some i, _ => pure i
  | none, some i => pure i
  | none, none => throw (.scope (.invalidScope id))

/-- A rule or a metric by its identifier, with or without the name of the plugin. Nothing if it
is known but may not be reported. -/
def property {α : Type} (s : Interface) (known : Table String α) (allowed : List String)
    (id : String) : Result (Option α) :=
  let id' := if known.contains id then id else s.plugin ++ ":" ++ id
  match known.get? id' with
  | none => throw (.undefinedProperty id)
  | some a => pure (if allowed.contains id' then some a else none)

def place (given : Option Item) (at_ : Spot) :
    Job Interface (Option (Entity × Location × FindingsRef)) := do
  let e ← scopeOr given
  let s ← get
  let id ← Job.ofResult (scopeId s.model e)
  if s.ignoresLine id at_.line then return none
  let l ← Job.ofResult (locate s.model e at_)
  let i ← Job.ofResult (s.findingsFor id l)
  return some (e, l, i)

def fileViolation (i : FindingsRef) (v : Violation) : Job Interface Unit :=
  modify fun s =>
    match s.buffers.violations with
    | some vs => { s with buffers := { s.buffers with violations := some (vs ++ [v]) } }
    | none => { s with report := s.report.addViolation i v }

def reportViolation (rule : String) (details : Value) (scope : Option Item) (at_ : Spot) :
    Job Interface Unit := do
  match ← place scope at_ with
  | none => pure ()
  | some (e, l, i) =>
    let s ← get
    match ← Job.ofResult (s.property s.registry.rules s.allowedRules rule) with
    | none => pure ()
    | some rule =>
      fileViolation i { rule, location := some l, details, affected := [.entity e] }

def isWithin (m : Model) (c : Ref .configuration) (x : Item) : Bool :=
  match x with
  | .entity e => m.configurationOf? e == some c
  | _ => false

def reportRuntime (rule : String) (details : Value) (resources : List Item) :
    Job Interface Unit := do
  let scope ← currentScope
  let s ← get
  match scope, s.current with
  | some ⟨.configuration, c⟩, some i =>
    if !resources.all (isWithin s.model ⟨c⟩) then throw (.scope .foreignResource)
    match ← Job.ofResult (s.property s.registry.rules s.allowedRules rule) with
    | none => pure ()
    | some rule =>
      fileViolation i { rule, location := some (.runtime ⟨c⟩), details
                        affected := .entity ⟨.configuration, c⟩ :: resources }
  | _, _ => throw (.scope .notAConfiguration)

def exceeds (a b : Value) : Result Bool :=
  if a.isNumber && b.isNumber then pure (Value.less b a) else throw .wrongKind

def checkValue (k : Metric) (v : Value) : Result Unit := do
  let above ← match k.maximum with
    | some x => exceeds v (.float x)
    | none => pure false
  let under ←
    if above then pure false
    else match k.minimum with
      | some x => exceeds (.float x) v
      | none => pure false
  if above || under then
    throw (.invalidValue ("metric value outside bounds: " ++ k.id ++ ", " ++ v.display))

def reportMetric (metric : String) (value : Value) (scope : Option Item) (at_ : Spot) :
    Job Interface Unit := do
  match ← place scope at_ with
  | none => pure ()
  | some (_, l, i) =>
    let s ← get
    match ← Job.ofResult (s.property s.registry.metrics s.allowedMetrics metric) with
    | none => pure ()
    | some metric =>
      Job.ofResult (checkValue metric value)
      let x : Measurement := { metric, location := some l, value }
      modify fun s =>
        match s.buffers.metrics with
        | some xs => { s with buffers := { s.buffers with metrics := some (xs ++ [x]) } }
        | none => { s with report := s.report.addMeasurement i x }

/-! ## Buffers -/

/-- From now on reports wait. -/
def hold : Job Interface Unit :=
  modify fun s => { s with buffers := { violations := some [], metrics := some [] } }

/-- The findings to which a report that waited belongs: those of its closest object. -/
def findingsOf (s : Interface) (l : Option Location) : Result FindingsRef :=
  match l with
  | none => throw .noField
  | some l =>
    match s.report.placeOf s.model l.smallest with
    | some i => pure i
    | none => throw .noField

/-- Files all reports that waited. -/
def commit : Job Interface Unit := do
  match (← get).buffers.violations with
  | none => throw .wrongKind
  | some vs =>
    for v in vs do
      let s ← get
      let i ← Job.ofResult (s.findingsOf v.location)
      set { s with report := s.report.addViolation i v }
  modify fun s => { s with buffers := { s.buffers with violations := none } }
  match (← get).buffers.metrics with
  | none => throw .wrongKind
  | some xs =>
    for x in xs do
      let s ← get
      let i ← Job.ofResult (s.findingsOf x.location)
      set { s with report := s.report.addMeasurement i x }
  modify fun s => { s with buffers := { s.buffers with metrics := none } }

/-! ## Files and look-ups -/

def exportFile (path : String) : Job Interface Unit :=
  modify fun s =>
    let target := Path.join s.folder path
    if s.files.isFile target && !s.exported.contains target then
      { s with exported := s.exported ++ [target] }
    else s

/-- The path of a file that comes with the plugin, if the plugin is installed. -/
def resource (s : Interface) (path : String) : Result String :=
  match s.modules.get? s.plugin with
  | none => throw .noModule
  | some folder =>
    if path.isEmpty then pure folder
    else pure ((Text.splitOnChar '/' path).foldl Path.join folder)

def findPackage (s : Interface) (id : String) : Option (Ref .package) :=
  (s.catalog.packages.get? id).orElse fun _ => s.catalog.packages.get? ("package:" ++ id)

end Interface

end RosAudit
