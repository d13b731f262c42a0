import RosAudit.FileTree
import RosAudit.Xml.Element

/-!
# Finding packages

Packages are found by walking the folders of a search path. A folder with a manifest is a package
and is not searched further. The outcome of a walk is kept: when a walk stops at a manifest that
cannot be read, what was found before it is all that later questions see.
-/

namespace RosAudit

/-- What a search looks for: single packages, or groups of packages. -/
inductive Sought where
  | package
  | stack
  deriving DecidableEq

/-- A search over some folders, with the folders found so far. -/
structure Search where
  sought : Sought
  roots : List String
  found : Option (Table String String) := none

namespace Search

def rootsOf (environment : Table String String) : List String :=
  (environment.get? "ROS_ROOT").toList.filter (fun s => !s.isEmpty) ++
    ((Text.splitOnChar ':' (environment.getD "ROS_PACKAGE_PATH" "")).filter fun s =>
      !(Text.trim s).isEmpty)

def dropHidden : List String → List String
  | [] => []
  | n :: ns =>
    if n.toList.head? == some '.' then
      match ns with
      | [] => []
      | kept :: more => kept :: dropHidden more
    else n :: dropHidden ns

/-- What a folder is to a search: a package with a name, the end of a branch, or neither. -/
inductive Verdict where
  | found (name : String)
  | leaf
  | inner

def manifestName (root : Xml.Element) : Result String :=
  match root.child? "name" with
  | none => throw .noField
  | some e =>
    let blank (c : Char) : Bool := c == ' ' || c == '\n' || c == '\r' || c == '\t'
    pure (String.ofList (((e.text.toList.dropWhile blank).reverse.dropWhile blank).reverse))

def judge (t : FileTree) (sought : Sought) (folder : String) : Result Verdict := do
  let has (n : String) : Bool := t.isFile (Path.join folder n)
  if has "CATKIN_IGNORE" then return .leaf
  if has "package.xml" then
    match Xml.Element.parse (← t.stored (Path.join folder "package.xml")) with
    | none => throw .xml
    | some root =>
      let group := ((root.child? "export").bind fun e => e.child? "metapackage").isSome
      if group == (sought = .stack) then return .found (← manifestName root)
  if has (if sought = .package then "manifest.xml" else "stack.xml") then
    return .found (Path.base folder)
  if has "manifest.xml" || has "package.xml" || has "rospack_nosubdirs" then return .leaf
  return .inner

def walk (t : FileTree) (sought : Sought) :
    Nat → String → Job (Table String String × List String) Unit
  | 0, _ => pure ()
  | fuel + 1, folder => do
    match ← Job.ofResult (judge t sought folder) with
    | .found name =>
      modify fun (found, seen) =>
        if seen.contains name then (found, seen) else (found.put name folder, name :: seen)
    | .leaf => pure ()
    | .inner =>
      let folders := (t.names folder).filter fun n => t.isFolder (Path.join folder n)
      for n in dropHidden folders do walk t sought fuel (Path.join folder n)

def walkRoots (t : FileTree) (sought : Sought) :
    List String → Table String String → Table String String × Option Fault
  | [], found => (found, none)
  | root :: roots, found =>
    let top := t.absolute root
    if t.isFolder top then
      match (walk t sought t.depth top).exec (found, []) with
      | (.ok _, (found, _)) => walkRoots t sought roots found
      | (.error f, (found, _)) => (found, some f)
    else walkRoots t sought roots found

def all (t : FileTree) : Job Search (Table String String) := do
  let s ← get
  match s.found with
  | some found => pure found
  | none =>
    let (found, fault) := walkRoots t s.sought s.roots.reverse Table.empty
    set { s with found := some found }
    match fault with
    | some f => throw f
    | none => pure found

def locate (t : FileTree) (name : String) : Job Search String := do
  match (← all t).get? name with
  | some folder => pure folder
  | none => throw .noResource

end Search

/-- A search for packages and, failing that, for groups of packages. -/
structure PackageSearch where
  packages : Search
  stackFolders : Search

namespace PackageSearch

def across (roots : List String) : PackageSearch := ⟨⟨.package, roots, none⟩, ⟨.stack, roots, none⟩⟩

def locate (t : FileTree) (name : String) : Job PackageSearch String := do
  let s ← get
  let (r, packages) := (Search.locate t name).exec s.packages
  set { s with packages }
  match r with
  | .ok folder => pure folder
  | .error .noResource =>
    let (r, stackFolders) := (Search.locate t name).exec s.stackFolders
    set ({ packages, stackFolders } : PackageSearch)
    Job.ofResult r
  | .error f => throw f

end PackageSearch

end RosAudit
