import RosAudit.Model.Scene

/-!
# Files of packages

`Model.listSources` walks the folder of a package, leaving out the folders that hold no sources,
and adds every file with its size and its line counts. Launch files are parsed as they are found.
Comments that ask to ignore lines are collected on the way.
-/

namespace RosAudit

def skippedFolders : List String := [".git", "doc", "bin", "cmake"]

/-- The lines to ignore, by file and by rule; a star stands for every rule. -/
abbrev IgnoredLines := Table String (Table String (List Nat))

namespace Model

def addSource (t : FileTree) (pkg : Ref .package) (packages : Table String (Option String))
    (origin : Origin) (folder name : String) : Job (Model × IgnoredLines) Unit := do
  let (m, ignored) ← get
  let f ← Job.ofResult (m.makeFile name folder pkg)
  let (f, lines) ← Job.ofResult (f.measure t)
  let ignored :=
    if lines.isEmpty then ignored else ignored.put f.id (Table.ofList [("*", lines)])
  let (m, r) := m.addFile f
  let m ←
    if f.language == "launch" then Job.ofResult (Scene.parseLaunch m t packages origin r)
    else pure m
  set (m.updatePackage pkg fun p =>
    { p with files := p.files ++ [r], size := p.size + f.size, lines := p.lines + f.lines
             sloc := p.sloc + f.sloc }, ignored)

def listSources (t : FileTree) (pkg : Ref .package) (others : List (Ref .package))
    (origin : Origin) : Job (Model × IgnoredLines) Bool := do
  let (m, _) ← get
  match nonEmpty? (m.package pkg).path with
  | none => pure false
  | some top =>
    let packages := Table.ofList (others.map fun r => ((m.package r).name, (m.package r).path))
    let keep (_ : String) (ns : List String) : List String :=
      ns.filter fun n => !skippedFolders.contains n
    for visit in t.walk top keep do
      let folder := String.ofList (visit.path.toList.drop (top.length + 1))
      for name in visit.files do addSource t pkg packages origin folder name
    pure true

end Model

end RosAudit
