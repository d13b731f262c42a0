import RosAudit.Model.Source

/-!
# Repositories

Repositories are declared by the user, or found in the list of a distribution when packages are
missing. `RepositoryLoader.download` fetches those that have an address, with the commands of
their version control system. A `Shell` stands for whatever runs the commands: it keeps a record
of them, and knows which will fail.
-/

namespace RosAudit

structure Shell where
  failing : List Nat := []
  count : Int := 0
  commands : List (String × List Value) := []

namespace Shell

def run (s : Shell) (folder : String) (command : List Value) : Shell × Bool :=
  let s := { s with commands := s.commands ++ [(folder, command)] }
  (s, !s.failing.contains s.commands.length)

end Shell

structure RepositoryLoader where
  model : Model := {}
  files : FileTree := {}
  shell : Shell := {}
  repositories : List (Ref .repository) := []
  declared : List Value := []

namespace RepositoryLoader

def nameText (name : Value) : Result String :=
  match name with
  | .text s => pure s
  | _ => throw .wrongKind

def enlist (x : Repository) (project : Option (Ref .project)) :
    Job RepositoryLoader (Ref .repository) := do
  let s ← get
  let (model, r) := s.model.addRepository x
  set { s with model, repositories := s.repositories ++ [r] }
  let names ← Job.ofResult x.declared.each
  let declared ← Job.ofResult (Value.distinct (s.declared ++ names))
  modify fun s => { s with declared }
  match project with
  | none => pure ()
  | some p =>
    modify fun s => { s with model := s.model.updateProject p fun j =>
      { j with repositories := j.repositories ++ [r] } }
  pure r

def loadDeclared (name data : Value) (project : Option (Ref .project)) :
    Job RepositoryLoader (Ref .repository) := do
  let read : Result Repository := do
    let name ← nameText name
    let vcs ← data.need "type"
    let url ← data.need "url"
    let version ← data.need "version"
    let declared ← data.need "packages"
    pure { name, status := .text "private", vcs, url, version, declared }
  enlist (← Job.ofResult read) project

def loadListed (name data : Value) (project : Option (Ref .project)) :
    Job RepositoryLoader (Option (Ref .repository)) := do
  if !(← Job.ofResult (data.has "source")) then return none
  let read : Result Repository := do
    let name' ← nameText name
    let status ← data.look "status" .null
    let source ← data.need "source"
    let vcs ← source.need "type"
    let url ← source.need "url"
    let version ← source.need "version"
    let declared ←
      if ← data.has "release" then (← data.need "release").look "packages" (.list [name])
      else pure (.list [])
    pure { name := name', status, vcs, url, version, declared }
  return some (← enlist (← Job.ofResult read) project)

def loadFor (name info : Value) (project : Option (Ref .project)) :
    List Value → List Value → Job RepositoryLoader (List Value)
  | remaining, [] => pure remaining
  | remaining, pkg :: pkgs => do
    if !pkg.isKey then throw .wrongKind
    if remaining.any (Value.same pkg) then
      match ← (loadListed name info project).attempt with
      | .ok _ => pure ()
      | .error .noKey => pure ()
      | .error f => throw f
      loadFor name info project (remaining.filter fun r => !Value.same pkg r) pkgs
    else loadFor name info project remaining pkgs

def loadEntries (project : Option (Ref .project)) :
    List Value → List (Value × Value) → Job RepositoryLoader Bool
  | remaining, [] => pure remaining.isEmpty
  | remaining, (name, info) :: entries => do
    if !(← Job.ofResult (info.has "release")) then loadEntries project remaining entries
    else
      let release ← Job.ofResult (info.need "release")
      let pkgs ← Job.ofResult ((← Job.ofResult (release.look "packages" (.list [name]))).each)
      let remaining ← loadFor name info project remaining pkgs
      if remaining.isEmpty then pure true else loadEntries project remaining entries

def loadNeeded (data : Value) (needed : List Value) (project : Option (Ref .project)) :
    Job RepositoryLoader Bool := do
  if needed.isEmpty then return true
  loadEntries project needed (← Job.ofResult data.pairs)

/-! ## Downloads -/

def command (system folder : String) (words : List Value) : Job RepositoryLoader Unit := do
  let s ← get
  let (shell, ok) := s.shell.run folder words
  set { s with shell }
  if !ok then
    throw (.clone (system ++ " error: Command '" ++ (Value.list words).shown ++
      "' returned non-zero exit status 1."))

def words (s : String) : List Value := (Text.splitOnChar ' ' s).map .text

def noteFetched (r : Ref .repository) (path : String) : Job RepositoryLoader Unit :=
  modify fun s => { s with model := s.model.updateRepository r fun x =>
    { x with path := some path, commits := s.shell.count } }

def fetchGit (r : Ref .repository) (path folder : String) (isNew : Bool) :
    Job RepositoryLoader Unit := do
  let x := (← get).model.repository r
  let run := command "git" folder
  if isNew then
    run (words "git init")
    run (words "git remote add -t" ++ [x.version] ++ words "-f origin" ++ [x.url])
    run (words "git checkout" ++ [x.version])
  else run (words "git pull")
  modify fun s =>
    { s with model := s.model.updateRepository r fun x => { x with path := some path } }
  run (words "git rev-list HEAD --count")
  noteFetched r path

def fetchHg (r : Ref .repository) (path folder : String) (isNew : Bool) :
    Job RepositoryLoader Unit := do
  let x := (← get).model.repository r
  let run := command "hg" folder
  if isNew then run (words "hg clone" ++ [x.url] ++ words "-r" ++ [x.version])
  else run (words "hg pull")
  modify fun s =>
    { s with model := s.model.updateRepository r fun x => { x with path := some path } }
  run (words "hg id --num --rev tip")
  noteFetched r path

def fetchSvn (r : Ref .repository) (folder : String) (isNew : Bool) :
    Job RepositoryLoader Unit := do
  let x := (← get).model.repository r
  let run := command "git-svn" folder
  if isNew then
    let branch ← match x.version with
      | .text "trunk" => pure "trunk"
      | .text v => pure ("branches/" ++ v)
      | _ => throw .wrongKind
    run (words "git svn clone -T" ++ [.text branch, x.url])
  else run (words "git svn fetch")
  run (words "git rev-list HEAD --count")

def fetch (top : String) (r : Ref .repository) : Job RepositoryLoader Unit := do
  let s ← get
  let x := s.model.repository r
  if x.url.truthy then
    let path := Path.join top x.name
    let isNew := !s.files.present path
    let files ← if isNew then Job.ofResult (s.files.makeFolders path) else pure s.files
    set { s with files }
    let folder := (← Job.ofResult (files.enter path)).current
    match x.vcs with
    | .text "git" => fetchGit r path folder isNew
    | .text "hg" => fetchHg r path folder isNew
    | .text "svn" => fetchSvn r folder isNew
    | _ => pure ()

def download (top : String) : Job RepositoryLoader Unit := do
  for r in (← get).repositories do fetch top r

end RepositoryLoader

end RosAudit
