import RosAudit.FileTree
import RosAudit.Model.Basic

/-!
# Source objects

Identifiers, languages and sizes of files, the calls a node makes, and how the objects on the
source side belong together.

`Model.boundTo` says whether one object is tied to another: a file to its package, a node to its
files, a package to the repository that holds it. `Scale` orders the scopes from the file up to
the project.
-/

namespace RosAudit

open RosAudit.Text

def cppSuffixes : List String :=
  [".cpp", ".cc", ".h", ".hpp", ".c", ".cpp.in", ".h.in", ".hpp.in", ".c.in", ".cc.in"]

def endsWith (s suffix : String) : Bool := suffix.toList.reverse.isPrefixOf s.toList.reverse

def languageOf (name : String) : String :=
  if cppSuffixes.any (endsWith name) then "cpp"
  else if endsWith name ".py" then "py"
  else if endsWith name ".launch" || endsWith name ".launch.xml" then "launch"
  else if name == "package.xml" then "package"
  else "unknown"

def SourceFile.id (f : SourceFile) : String :=
  "file:" ++ f.packageName ++ "/" ++ f.directory ++ "/" ++ f.name

def Package.id (p : Package) : String := "package:" ++ p.name

def Repository.id (r : Repository) : String := "repository:" ++ r.name

def Project.id (p : Project) : String := "project:" ++ p.name

def nonEmpty? (s : Option String) : Option String := s.filter fun s => !s.isEmpty

def Node.nodeName (n : Node) : String :=
  n.packageName ++ "/" ++ (nonEmpty? n.nodelet).getD n.name

def Node.id (n : Node) : String := "node:" ++ n.nodeName

/-! ## Making objects -/

namespace Model

def makeFile (m : Model) (name directory : String) (pkg : Ref .package) : Result SourceFile :=
  let p := m.package pkg
  match p.path with
  | none => throw .wrongKind
  | some path =>
    pure { name, directory, package := pkg, packageName := p.name,
           fullName := Path.join directory name, folder := Path.join path directory,
           path := Path.join (Path.join path directory) name, language := languageOf name }

def makeProject (name : String) : Result Project :=
  if name == "all" then throw (.invalidValue "Forbidden project name: all") else pure { name }

def makeNode (m : Model) (name : String) (pkg : Ref .package) (rosname : Option Name)
    (nodelet : Option String) : Node :=
  { name, package := pkg, packageName := (m.package pkg).name, rosname, nodelet }

def makeCall (m : Model) (c : Call) (depth : Int) (repeats : Bool) (guards : List Guard) :
    Model × Call :=
  let (m, g) := m.addGuards guards
  let depth := if depth = 0 then (guards.length : Int) else depth
  (m, { c with guards := g, depth, repeats := repeats && depth ≥ 1 })

end Model

/-! ## Sizes and comments of a file -/

/-- How a line of a language asks to be ignored: itself, or the line after it. -/
structure IgnoreMarks where
  line : String
  nextLine : String

def ignoreMarks? (language : String) : Option IgnoreMarks :=
  if language == "cpp" then some ⟨"// haros:ignore-line", "// haros:ignore-next-line"⟩
  else if language == "py" then some ⟨"# haros:ignore-line", "# haros:ignore-next-line"⟩
  else none

def lineStats (marks : Option IgnoreMarks) (number : Nat) (line : String) : Bool × List Nat :=
  let cs := trimChars line.toList
  if cs.isEmpty then (false, [])
  else
    match marks with
    | none => (true, [])
    | some k =>
      if occursIn k.line.toList cs then (true, [number])
      else if occursIn k.nextLine.toList cs then (true, [number + 1])
      else (true, [])

def countLines (marks : Option IgnoreMarks) : Nat → List String → Nat × Nat × List Nat
  | _, [] => (0, 0, [])
  | n, l :: ls =>
    let (code, ignored) := lineStats marks n l
    let (lines, sloc, more) := countLines marks (n + 1) ls
    (lines + 1, sloc + (if code then 1 else 0), ignored ++ more)

/-- A file with its size, time and line counts taken from the tree, and the lines to ignore. -/
def SourceFile.measure (f : SourceFile) (t : FileTree) : Result (SourceFile × List Nat) := do
  let size ← t.sizeOf f.path
  let time ← t.modified f.path
  let text ← t.read f.path
  let (lines, sloc, ignored) := countLines (ignoreMarks? f.language) 1 (keptLines text)
  pure ({ f with size, timestamp := .float time, lines, sloc }, ignored)

/-! ## Scopes -/

def scopeNames : List String := ["file", "node", "package", "repository", "project"]

def scopeRank (s : String) : Result Nat :=
  match scopeNames.idxOf? s with
  | some i => pure i
  | none => throw .unreadableValue

def Entity.scope? (e : Entity) : Option String :=
  match e.kind with
  | .file => some "file"
  | .node => some "node"
  | .package => some "package"
  | .repository => some "repository"
  | .project => some "project"
  | _ => none

namespace Model

variable (m : Model)

def id? (e : Entity) : Option String :=
  match e.kind with
  | .project => some (m.project ⟨e.index⟩).id
  | .repository => some (m.repository ⟨e.index⟩).id
  | .package => some (m.package ⟨e.index⟩).id
  | .file => some (m.file ⟨e.index⟩).id
  | .node => some (m.node ⟨e.index⟩).id
  | .configuration => some ("configuration:" ++ (m.configuration ⟨e.index⟩).name)
  | .inst => some (m.inst ⟨e.index⟩).name.full
  | .topic => some (m.topic ⟨e.index⟩).name.full
  | .service => some (m.service ⟨e.index⟩).name.full
  | .param => some (m.param ⟨e.index⟩).name.full
  | .link => none
  | .guards => none

def configurationOf? (e : Entity) : Option (Ref .configuration) :=
  match e.kind with
  | .inst => some (m.inst ⟨e.index⟩).configuration
  | .topic => some (m.topic ⟨e.index⟩).configuration
  | .service => some (m.service ⟨e.index⟩).configuration
  | .param => some (m.param ⟨e.index⟩).configuration
  | .link => some (m.inst (m.link ⟨e.index⟩).node).configuration
  | _ => none

/-- Are two references to equal objects? Source objects are equal when their kind and identifier
are, resources when their kind, configuration and name are, anything else only to itself. -/
def equal (a b : Entity) : Bool :=
  a.kind = b.kind &&
    match a.kind with
    | .configuration | .link | .guards => a.index == b.index
    | .inst | .topic | .service | .param =>
      m.configurationOf? a == m.configurationOf? b && m.id? a == m.id? b
    | _ => m.id? a == m.id? b

def holds {k : EntityKind} (rs : List (Ref k)) (r : Ref k) : Bool :=
  rs.any fun x => m.equal x.entity r.entity

def packagesOf (e : Entity) : List (Ref .package) :=
  match e.kind with
  | .repository => (m.repository ⟨e.index⟩).packages
  | .project => (m.project ⟨e.index⟩).packages
  | _ => []

def packageOf (e : Entity) : Ref .package :=
  if e.kind = .file then (m.file ⟨e.index⟩).package else (m.node ⟨e.index⟩).package

def firstIn (ps qs : List (Ref .package)) : Bool := ps.head?.any fun p => m.holds qs p

/-- Is one source object tied to another? -/
def boundTo (a b : Entity) : Result Bool :=
  match a.kind, b.scope? with
  | _, none => throw .noField
  | .file, some "node" => pure (m.holds (m.node ⟨b.index⟩).files ⟨a.index⟩)
  | .file, some "package" => pure (m.equal (m.packageOf a).entity b)
  | .file, some "file" => pure (m.equal a b)
  | .file, some _ => pure (m.holds (m.packagesOf b) (m.packageOf a))
  | .package, some "file" => pure (m.equal (m.packageOf b).entity a)
  | .package, some "node" => pure (m.equal (m.packageOf b).entity a)
  | .package, some "repository" =>
    pure ((m.package ⟨a.index⟩).repository.any fun r => m.equal r.entity b)
  | .package, some "project" =>
    pure ((m.package ⟨a.index⟩).project.any fun p => m.equal p.entity b)
  | .package, some _ =>
    if m.equal a b then pure true
    else if (m.package ⟨a.index⟩).dependencies.isEmpty then pure false
    else throw .noField
  | .repository, some "package" =>
    pure ((m.package ⟨b.index⟩).repository.any fun r => m.equal r.entity a)
  | .repository, some "project" =>
    let r := m.repository ⟨a.index⟩
    pure (r.project.any (fun p => m.equal p.entity b) ||
      m.firstIn r.packages (m.project ⟨b.index⟩).packages)
  | .repository, some "repository" => pure (m.equal a b)
  | .repository, some _ => pure (m.holds (m.repository ⟨a.index⟩).packages (m.packageOf b))
  | .project, some "package" =>
    pure ((m.package ⟨b.index⟩).project.any fun p => m.equal p.entity a)
  | .project, some "repository" =>
    let r := m.repository ⟨b.index⟩
    pure (r.project.any (fun p => m.equal p.entity a) ||
      m.firstIn r.packages (m.project ⟨a.index⟩).packages)
  | .project, some "project" => pure (m.equal a b)
  | .project, some _ => pure (m.holds (m.project ⟨a.index⟩).packages (m.packageOf b))
  | .node, some "package" => pure (m.equal b (m.packageOf a).entity)
  | .node, some "file" => pure (m.holds (m.node ⟨a.index⟩).files ⟨b.index⟩)
  | .node, some "node" => pure (m.equal a b)
  | .node, some _ =>
    pure ((m.packagesOf b).head?.any fun p => m.equal p.entity (m.packageOf a).entity)
  | _, some _ => throw .noField

/-- Is a thing about a scope of use to an object? A file takes part in every larger scope. -/
def acceptsScope (e : Entity) (scope : String) : Result Bool :=
  match e.scope? with
  | none => throw .noField
  | some own =>
    if e.kind = .file then return (← scopeRank own) ≥ (← scopeRank scope) else pure (own == scope)

def timestampOf (n : Node) : Value :=
  let times := n.files.map fun f => (m.file f).timestamp
  match times with
  | [] => .int 0
  | t :: ts => ts.foldl (fun a b => if (Value.less b a || Value.same a b) then a else b) t

end Model

end RosAudit
