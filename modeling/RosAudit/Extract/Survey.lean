import RosAudit.Extract.Nodes
import RosAudit.Extract.Recall
import RosAudit.Extract.Repositories
import RosAudit.Extract.Tiers
import RosAudit.Package.Manifest
import RosAudit.Package.Search
import RosAudit.Settings

/-!
# Surveys

A survey builds the model of a project from its index file: it loads the repositories, finds the
packages in the workspace, puts them in the order of their needs, lists their files and finds
their nodes. `Survey.run` takes these steps; one that fails leaves what was known before it.
-/

namespace RosAudit

/-- What is known while a project is surveyed. The index says nothing before it is read. -/
structure Survey where
  files : FileTree
  model : Model := {}
  shell : Shell := {}
  origin : Origin := {}
  index : String
  environment : Value := .record []
  systemRoots : List String := []
  repoFolder : Option String := none
  distribution : Option (Option String) := none
  requiresRepos : Bool := false
  parses : Bool := false
  program : Option Code.Program := none
  settings : Option Settings := none
  knownPackages : Table String (Ref .package) := Table.empty
  knownRepositories : Table String (Ref .repository) := Table.empty
  nodeData : Table String Value := Table.empty
  remembered : Table String (Ref .node) := Table.empty
  project : Option (Ref .project) := none
  repositories : Value := .null
  names : Option (List Value) := none
  missing : Option (List Value) := none
  configurations : Value := .null
  nodeSpecs : Value := .null
  rules : Value := .null
  requests : List Value := []

namespace Survey

def change {α : Type} (f : Model → Model × α) : Job Survey α := do
  let s ← get
  let (model, a) := f s.model
  set { s with model }
  pure a

def theProject : Job Survey (Ref .project) := return ((← get).project).getD ⟨0⟩

/-! ## The index -/

def readIndex (s : Survey) : Result Value :=
  match s.files.read s.index with
  | .error _ => pure (.record [])
  | .ok text => Yaml.load text

def localNames (s : Survey) : Result (List Value) :=
  let search : Search := { sought := .package, roots := ["."] }
  return ((← ((Search.all s.files).exec search).1).keys.map .text)

def setup : Job Survey Unit := do
  let s ← get
  let data ← Job.ofResult s.readIndex
  let name ← Job.ofResult (data.look "project" (.text "default"))
  let name ← Job.ofResult (RepositoryLoader.nameText name)
  let p ← Job.ofResult (Model.makeProject name)
  let r ← change fun m => m.addProject p
  modify fun s => { s with
    project := some r
    repositories := (data.field? "repositories").getD (.record []) }
  let given := data.field "packages"
  let names ← Job.ofResult (if given.truthy then given.each else s.localNames)
  let names ← Job.ofResult (Value.distinct names)
  modify fun s => { s with
    names := some names, missing := some names
    configurations := (data.field? "configurations").getD (.record [])
    nodeSpecs := (data.field? "nodes").getD (.record [])
    rules := (data.field? "rules").getD (.record []) }

/-! ## Repositories -/

def withLoader {α : Type} (job : Job RepositoryLoader α) : Job Survey α := do
  let s ← get
  let (r, l) := job.exec { model := s.model, files := s.files, shell := s.shell }
  set { s with model := l.model, files := l.files, shell := l.shell }
  Job.ofResult r

def downloads (s : Survey) : Job RepositoryLoader Unit :=
  match nonEmpty? s.repoFolder with
  | none => pure ()
  | some top => do
    match ← (RepositoryLoader.download top).attempt with
    | .ok _ => pure ()
    | .error (.clone m) => if s.requiresRepos then throw (.clone m)
    | .error f => throw f

def loadRepositories : Job Survey Unit := do
  let s ← get
  let project ← theProject
  let entries ← Job.ofResult s.repositories.pairs
  withLoader do
    for (name, data) in entries do
      match name.asText?.bind s.knownRepositories.get? with
      | some r => modify fun l => { l with model := l.model.updateProject project fun j =>
          { j with repositories := j.repositories ++ [r] } }
      | none =>
        let _ ← RepositoryLoader.loadDeclared name data (some project)
    s.downloads

def loadDistribution (content : Option String) : Job Survey Unit := do
  let s ← get
  let project ← theProject
  match content with
  | none => pure ()
  | some text =>
    let data ← Job.ofResult ((Yaml.load text).bind fun v => v.need "repositories")
    withLoader do
      let _ ← RepositoryLoader.loadNeeded data (s.missing.getD []) (some project)
      s.downloads

/-! ## Packages -/

def locate (t : FileTree) (name : String) : Job (PackageSearch × PackageSearch) String := do
  let (near, far) ← get
  let (r, near) := (PackageSearch.locate t name).exec near
  set (near, far)
  match r with
  | .ok folder => pure folder
  | .error .noResource =>
    let (r, far) := (PackageSearch.locate t name).exec far
    set (near, far)
    Job.ofResult r
  | .error f => throw f

def holder? (m : Model) (name : String) : List (Ref .repository) → Result (Option (Ref .repository))
  | [] => pure none
  | r :: rs => do
    if ← (m.repository r).declared.has name then pure (some r) else holder? m name rs

def enlist (name : Value) (p : Ref .package) : Job Survey Unit := do
  let project ← theProject
  modify fun s => { s with model := s.model.updateProject project fun j =>
    { j with packages := j.packages ++ [p] } }
  let m := (← get).model
  match ← Job.ofResult (holder? m name.display (m.project project).repositories) with
  | none => pure ()
  | some r => modify fun s =>
      let m := s.model.updatePackage p fun k => { k with repository := some r }
      { s with model := m.updateRepository r fun x => { x with packages := x.packages ++ [p] } }

def findPackage (name : Value) (searches : PackageSearch × PackageSearch) :
    Job Survey (Bool × (PackageSearch × PackageSearch)) := do
  let s ← get
  let project ← theProject
  match name.asText?.bind s.knownPackages.get? with
  | some p =>
    modify fun s => { s with model := s.model.updateProject project fun j =>
      { j with packages := j.packages ++ [p] } }
    pure (true, searches)
  | none =>
    let (folder, searches) := (locate s.files (name.asText?.getD "")).exec searches
    let manifest := folder.bind fun folder => Manifest.read s.files (Path.join folder "package.xml")
    match manifest with
    | .ok x =>
      let p ← change fun m => m.addManifest x (some project)
      enlist name p
      pure (true, searches)
    | .error .fileAccess => pure (false, searches)
    | .error .xml => pure (false, searches)
    | .error .noResource => pure (false, searches)
    | .error f => throw f

def findAll : List Value → PackageSearch × PackageSearch → Job Survey (List Value)
  | [], _ => pure []
  | name :: names, searches => do
    let (found, searches) ← findPackage name searches
    let rest ← findAll names searches
    pure (if found then rest else name :: rest)

def findPackages : Job Survey Unit := do
  let s ← get
  let roots := (nonEmpty? s.repoFolder).toList ++ [s.files.absolute "."]
  let missing ← findAll (s.missing.getD []) (.across roots, .across s.systemRoots)
  modify fun s => { s with missing := some missing }

/-! ## Files and nodes -/

def listSources : Job Survey Unit := do
  let project ← theProject
  let packages := ((← get).model.project project).packages
  for p in packages do
    let s ← get
    let (r, model, ignored) :=
      (Model.listSources s.files p packages s.origin).exec (s.model, Table.empty)
    set { s with model }
    let has ← Job.ofResult r
    match s.settings with
    | none => pure ()
    | some settings =>
      if !has then throw .wrongKind
      let settings := { settings with ignoredLines := settings.ignoredLines.merge ignored }
      modify fun s => { s with settings := some settings }

def recallNodes : Job Survey Unit := do
  let s ← get
  let project ← theProject
  let data := s.nodeData.values
  let (r, model, remembered) := (Recall.nodes project data).exec (s.model, Table.empty)
  set { s with model, remembered, nodeData := Table.empty }
  Job.ofResult r

def parserRequests (s : Survey) (workspace : String) : List Value :=
  let hasDatabase (folder : String) : Bool :=
    s.files.isFile (Path.join folder "compile_commands.json")
  let call (name : String) (args : List Value) : Value := .list (.text name :: args)
  match s.settings with
  | none =>
    let folder := Path.join workspace "build"
    call "set_library_path" [] ::
      if hasDatabase folder then [call "set_database" [.text folder]] else []
  | some k =>
    call "set_library_path" [k.parserLibrary] :: call "set_standard_includes" [k.parserIncludes] ::
      match k.compileDatabase with
      | .text folder =>
        if !folder.isEmpty && hasDatabase folder then [call "set_database" [.text folder]] else []
      | _ => []

def findNodes : Job Survey Unit := do
  let s ← get
  let project ← theProject
  let packages := (s.model.project project).packages
  let given := (s.settings.map Settings.workspace).getD .null
  let workspace ← Job.ofResult
    (if given.truthy then pure given else workspaceOf s.files false s.environment)
  let workspace ← Job.ofResult (Settings.folderText workspace)
  if s.parses && s.program.isSome then
    set { s with requests := s.requests ++ s.parserRequests workspace }
  let finder : NodeFinder := {
    files := s.files, model := s.model, workspace
    packages := packages.map fun p => (s.model.package p).name
    environment := Scene.textTable s.environment
    remembered := s.remembered, parses := s.parses, program := s.program }
  let new := packages.filter fun p => !s.knownPackages.contains (s.model.package p).name
  let (r, f) := (new.forM NodeFinder.find : Job NodeFinder Unit).exec finder
  modify fun s => { s with model := f.model, requests := s.requests ++ f.parsed.map .text }
  Job.ofResult r

def run : Job Survey Unit := do
  setup
  loadRepositories
  findPackages
  let s ← get
  match s.missing, s.distribution with
  | some (_ :: _), some content =>
    loadDistribution content
    findPackages
  | _, _ => pure ()
  let project ← theProject
  let names := (s.names.getD []).filterMap Value.asText?
  modify fun s => { s with model := s.model.sortByTier project names }
  listSources
  recallNodes
  findNodes

end Survey

end RosAudit
