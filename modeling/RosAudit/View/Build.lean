import RosAudit.CMake.Project

/-!
# Build scripts as data

Statements, arguments and projects of build scripts as plain records.
-/

namespace RosAudit.CMake

def Line.toValue (l : Line) : Value :=
  .list [.text l.command, .text? l.arguments, .text? l.comment]

mutual

def Statement.toValue : Statement → Value
  | .mk l none => .list [.text l.command, .text? l.arguments, .text? l.comment, .null]
  | .mk l (some ss) =>
    .list [.text l.command, .text? l.arguments, .text? l.comment, .list (Statement.values ss)]

def Statement.values : List Statement → List Value
  | [] => []
  | s :: ss => s.toValue :: Statement.values ss

end

mutual

def Argument.toValue : Argument → Value
  | .word s => .text s
  | .group xs => .list (Argument.values xs)

def Argument.values : List Argument → List Value
  | [] => []
  | x :: xs => x.toValue :: Argument.values xs

end

mutual

def Argument.ofValue : Value → Argument
  | .list xs => .group (Argument.ofValues xs)
  | v => .word v.display

def Argument.ofValues : List Value → List Argument
  | [] => []
  | x :: xs => Argument.ofValue x :: Argument.ofValues xs

end

def Project.Operand.toValue : Project.Operand → Value
  | .text s => .text s
  | .truth b => .bool b

def Target.toValue (key : String) (t : Target) : Value :=
  .object [("key", .text key), ("name", .text t.name), ("prefix", .text t.lead),
    ("base", .text t.base), ("suffix", .text t.suffix), ("prefixed", .text t.prefixedName),
    ("output", .text t.outputName), ("files", .texts t.files),
    ("links", .list (t.links.map fun
      | .name s => .text s
      | .target n => .object [("target", .text n)]))]

def Project.toValue (p : Project) : Value :=
  let targets (t : Table String Target) : Value :=
    .list (t.entries.map fun e => e.2.toValue e.1)
  .object [("project", .text? p.name), ("variables", Value.ofTable .text p.bindings),
    ("environment", Value.ofTable .text p.environment),
    ("package_includes", .texts p.packageIncludes), ("include_dirs", .texts p.includeDirs),
    ("dependencies", .texts p.dependencies),
    ("system_dependencies", .texts p.systemDependencies), ("subdirectories", .texts p.subfolders),
    ("libraries", targets p.libraries), ("executables", targets p.executables)]

end RosAudit.CMake
