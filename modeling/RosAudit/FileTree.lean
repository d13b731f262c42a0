import RosAudit.Fault
import RosAudit.Path

/-!
# File trees

The files an audit reads and writes, as one value: a table from absolute paths to folders and
files. Every operation is pure, so what an audit does to its files can be stated and tested.
Listings are in ascending name order. A path that ends in a slash never names a file.

The tree also knows the current folder, against which relative paths are read.
-/

namespace RosAudit

open RosAudit.Text

inductive Entry where
  | folder
  | file (text : String) (modified : Float)
  deriving Inhabited

/-- Folders and files by absolute path, and the current folder. -/
structure FileTree where
  entries : Table String Entry := ⟨[("/", .folder)]⟩
  current : String := "/"
  deriving Inhabited

namespace FileTree

/-- The moment that a file is taken to be written at, unless it is said otherwise. -/
def defaultTime : Float := 1000.0

def sortTexts (ss : List String) : List String := ss.mergeSort fun a b => a < b || a == b

def absolute (t : FileTree) (p : String) : String := Path.absolute t.current p

def at? (t : FileTree) (p : String) : Option Entry :=
  if p.isEmpty then none
  else
    match t.entries.get? (t.absolute p) with
    | some (.file s m) => if p.toList.getLast? == some '/' then none else some (.file s m)
    | e => e

def present (t : FileTree) (p : String) : Bool := (t.at? p).isSome

def isFile (t : FileTree) (p : String) : Bool :=
  match t.at? p with
  | some (.file _ _) => true
  | _ => false

def isFolder (t : FileTree) (p : String) : Bool :=
  match t.at? p with
  | some .folder => true
  | _ => false

def stored (t : FileTree) (p : String) : Result String :=
  match t.at? p with
  | some (.file s _) => pure s
  | _ => throw .fileAccess

def read (t : FileTree) (p : String) : Result String := return unixLines (← t.stored p)

def sizeOf (t : FileTree) (p : String) : Result Nat := return (← t.stored p).utf8ByteSize

def modified (t : FileTree) (p : String) : Result Float :=
  match t.at? p with
  | some (.file _ m) => pure m
  | some .folder => pure defaultTime
  | none => throw .fileAccess

def names (t : FileTree) (p : String) : List String :=
  let here := Path.parts (t.absolute p)
  sortTexts (t.entries.keys.filterMap fun k =>
    let ps := Path.parts k
    if ps.length == here.length + 1 && ps.dropLast == here then ps.getLast? else none)

def list (t : FileTree) (p : String) : Result (List String) :=
  if t.isFolder p then pure (t.names p) else throw .fileAccess

def write (t : FileTree) (p text : String) : Result FileTree :=
  if p.isEmpty || p.toList.getLast? == some '/' || t.isFolder p ||
      !t.isFolder (Path.parent (t.absolute p)) then throw .fileAccess
  else pure { t with entries := t.entries.put (t.absolute p) (.file text defaultTime) }

def makeFolder (t : FileTree) (p : String) : Result FileTree :=
  if t.present p || !t.isFolder (Path.parent (t.absolute p)) then throw .fileAccess
  else pure { t with entries := t.entries.put (t.absolute p) .folder }

/-- The folders on the way to a path, outermost first, the path itself included. -/
def ancestry (p : String) : List String :=
  let ps := Path.parts p
  (List.range (ps.length + 1)).map fun n => Path.ofParts (ps.take n)

def ensureFolders (t : FileTree) (p : String) : Result FileTree :=
  (ancestry (t.absolute p)).foldlM (fun t q =>
    match t.entries.get? q with
    | some .folder => pure t
    | some _ => throw .fileAccess
    | none => pure { t with entries := t.entries.put q .folder }) t

def makeFolders (t : FileTree) (p : String) : Result FileTree :=
  if t.present p then throw .fileAccess else t.ensureFolders p

/-- The tree with a file at a path, whose folders are made where needed. -/
def place (t : FileTree) (p text : String) (modified : Float := defaultTime) : Result FileTree := do
  let t ← t.ensureFolders (Path.parent (t.absolute p))
  pure { t with entries := t.entries.put (t.absolute p) (.file text modified) }

def removeFile (t : FileTree) (p : String) : Result FileTree :=
  if t.isFile p then pure { t with entries := t.entries.erase (t.absolute p) }
  else throw .fileAccess

def below (top p : String) : Bool := (Path.parts top).isPrefixOf (Path.parts p)

def removeFolder (t : FileTree) (p : String) : Result FileTree :=
  if t.isFolder p then
    let top := t.absolute p
    pure { t with entries := ⟨t.entries.entries.filter fun e => !below top e.1⟩ }
  else throw .fileAccess

def enter (t : FileTree) (p : String) : Result FileTree :=
  if t.isFolder p then pure { t with current := t.absolute p } else throw .fileAccess

def depth (t : FileTree) : Nat := t.entries.size + 1

/-- A folder of a walk: its path, and the names of its folders and of its files. -/
structure Visit where
  path : String
  folders : List String
  files : List String

/-- Visits a folder and, in name order, the folders below it that `keep` lets through. -/
def walkFrom (t : FileTree) (keep : String → List String → List String) :
    Nat → String → List Visit
  | 0, _ => []
  | fuel + 1, p =>
    let ns := t.names p
    let folders := keep p (ns.filter fun n => t.isFolder (Path.join p n))
    let files := ns.filter fun n => t.isFile (Path.join p n)
    ⟨p, folders, files⟩ :: folders.flatMap fun n => walkFrom t keep fuel (Path.join p n)

def walk (t : FileTree) (p : String) (keep : String → List String → List String := fun _ ns => ns) :
    List Visit :=
  if t.isFolder p then t.walkFrom keep t.depth p else []

end FileTree

end RosAudit
