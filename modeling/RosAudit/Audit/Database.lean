import RosAudit.Audit.Registry
import RosAudit.Model.Source

/-!
# The database of an audit

What an audit works on: the objects of a project by their identifiers, and the rules and metrics.
A database outlives an audit; what it keeps are the objects and the calls of their nodes, not the
trees of the launch files.
-/

namespace RosAudit

/-- The objects of a project by their identifiers. -/
structure Catalog where
  packages : Table String (Ref .package) := Table.empty
  files : Table String (Ref .file) := Table.empty
  nodes : Table String (Ref .node) := Table.empty
  repositories : Table String (Ref .repository) := Table.empty
  configurations : List (Ref .configuration) := []
  project : Option (Ref .project) := none

structure Database where
  model : Model := {}
  registry : Registry := {}
  catalog : Catalog := {}

namespace Database

def register (d : Database) (project : Ref .project) : Database :=
  let m := d.model
  let p := m.project project
  let c := d.catalog
  let nodesOf (r : Ref .package) := (m.package r).nodes.map fun n => ((m.node n).id, n)
  let filesOf (r : Ref .package) := (m.package r).files.map fun f => ((m.file f).id, f)
  { d with catalog := {
      project := some project
      repositories := c.repositories.putAll
        (p.repositories.map fun r => ((m.repository r).id, r))
      packages := c.packages.putAll (p.packages.map fun r => ((m.package r).id, r))
      files := c.files.putAll (p.packages.flatMap filesOf)
      nodes := c.nodes.putAll (p.packages.flatMap nodesOf)
      configurations := c.configurations ++ p.configurations } }

def fileAt? (d : Database) (path : String) : Option (Ref .file) :=
  d.catalog.files.values.find? fun f => (d.model.file f).path == path

/-- The database without what is not kept: launch trees, and whether nodes were parsed. -/
def compact (d : Database) : Database :=
  let m := d.catalog.nodes.values.foldl (fun m n =>
    m.updateNode n fun x => { x with isParsed := false }) d.model
  { d with model := d.catalog.files.values.foldl (fun m f =>
      m.updateFile f fun x => { x with tree := none }) m }

/-! ## Calls of earlier nodes -/

def placeAgain (d : Database) (old : Model) (l : Option Location) : Result Location :=
  match l with
  | some (.source p _ _ _ _) =>
    match d.catalog.packages.get? (old.package p).id with
    | some r => pure (.source r none none none none)
    | none => throw .noKey
  | _ => throw .noField

def guardAgain (d : Database) (old : Model) : Guard → Result Guard
  | .source text l => return .source text (some (← d.placeAgain old l))
  | .settled _ => throw .noField

def callAgain (old : Model) (c : Call) : Job Database Call := do
  let d ← get
  let location ← Job.ofResult (d.placeAgain old c.location)
  let guards ← Job.ofResult ((old.guardList c.guards).mapM (d.guardAgain old))
  let (model, r) := d.model.addGuards guards
  set { d with model }
  pure { c with location := some location, guards := r }

def callKinds : List CallKind :=
  [.advertise, .subscribe, .service, .client, .readParam, .writeParam]

def lookBack (old : Model) (nodes : Table String (Ref .node)) : Job Database Unit := do
  for (id, r) in (← get).catalog.nodes.entries do
    match nodes.get? id with
    | none => pure ()
    | some before =>
      for kind in callKinds do
        let calls ← ((old.node before).calls kind).mapM (callAgain old)
        modify fun d => { d with model := d.model.updateNode r fun n => n.setCalls kind calls }

end Database

end RosAudit
