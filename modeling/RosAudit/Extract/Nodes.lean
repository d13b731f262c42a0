import RosAudit.CMake.Project
import RosAudit.Code.Primitives

/-!
# Nodes of packages

The nodes of a package are the programs that its build script makes. A `NodeFinder` works through
the build script of one package after another, adds a node for each executable, and gives each
nodelet the source files of its library.

When the finder is to parse programs, a node that is remembered from an earlier audit takes the
place of the one found, and the calls of any other node written in C++ are read off its program.
-/

namespace RosAudit

/-- What is known while the nodes of packages are found. -/
structure NodeFinder where
  files : FileTree
  model : Model
  workspace : String
  packages : List String
  environment : Table String String := Table.empty
  remembered : Table String (Ref .node) := Table.empty
  parses : Bool := false
  program : Option Code.Program := none
  found : List (Ref .node) := []
  parsed : List String := []

namespace NodeFinder

/-- The variables that every build script can use. -/
def bindings (workspace package : String) : Table String String :=
  Table.ofList [("catkin_INCLUDE_DIRS", Path.join workspace "devel/include"),
    ("Boost_INCLUDE_DIRS", "/usr/include/"), ("Eigen_INCLUDE_DIRS", "/usr/include/eigen3"),
    ("ImageMagick_INCLUDE_DIRS", "/usr/include/ImageMagick"), ("PROJECT_SOURCE_DIR", package)]

def filesAt (m : Model) (pkg : Ref .package) (paths : List String) : List (Ref .file) :=
  paths.filterMap fun path => (m.package pkg).files.find? fun f => (m.file f).path == path

def targetFiles (m : Model) (pkg : Ref .package) (p : CMake.Project) (t : CMake.Target) :
    List (Ref .file) :=
  filesAt m pkg t.files ++ t.links.flatMap fun
    | .name _ => []
    | .target n => filesAt m pkg (((p.target? n).map CMake.Target.files).getD [])

def updateNodelets (m : Model) (pkg : Ref .package) (p : CMake.Project) : Model :=
  let files := Table.ofList (p.libraries.values.map fun t =>
    (t.prefixedName, targetFiles m pkg p t))
  (m.package pkg).nodes.foldl (fun m r =>
    match (m.node r).nodelet, files.get? (m.node r).name with
    | some _, some fs => m.updateNode r fun n => { n with files := fs }
    | _, _ => m) m

def addPrograms (pkg : Ref .package) (p : CMake.Project) : Job NodeFinder Unit :=
  for t in p.executables.values do
    let s ← get
    let node := s.model.makeNode t.outputName pkg none none
    let (m, r) := s.model.addNode { node with files := targetFiles s.model pkg p t }
    let m := m.updatePackage pkg fun k => { k with nodes := k.nodes ++ [r] }
    set { s with model := m, found := s.found ++ [r] }

def languageOf? (m : Model) (n : Node) : Option String :=
  n.files.head?.map fun f => (m.file f).language

def readCalls (pkg : Ref .package) (node : Ref .node) (program : Code.Program) :
    Job NodeFinder Unit := do
  let s ← get
  let paths := (s.model.node node).files.map fun f => (s.model.file f).path
  let look : Code.Lookout := { package := pkg, node, sites := program.sites }
  let job : Job Model Unit := do
    look.communication
    look.handleParams
    look.bareParams
  let (r, model) := job.exec s.model
  set { s with model, parsed := s.parsed ++ paths }
  Job.ofResult r

def lookBack (pkg : Ref .package) (place : Nat) (node : Ref .node) : Job NodeFinder Unit := do
  let s ← get
  if (s.model.node node).package != pkg then throw .broken
  set { s with model := s.model.updatePackage pkg fun k =>
    { k with nodes := k.nodes.set place node } }

def parseNodes (pkg : Ref .package) : Job NodeFinder Unit := do
  let nodes := ((← get).model.package pkg).nodes
  for (r, place) in nodes.zipIdx do
    let s ← get
    let node := s.model.node r
    if !node.isParsed then
      match s.remembered.get? node.nodeName with
      | some known => lookBack pkg place known
      | none =>
        set { s with model := s.model.updateNode r fun n =>
          { n with isParsed := true, advertise := [], subscribe := [], service := []
                   client := [], readParam := [], writeParam := [] } }
        match languageOf? s.model node, s.program with
        | some "cpp", some program => readCalls pkg r program
        | _, _ => pure ()

def sourceFolder (workspace package : String) : String :=
  let below := String.ofList (package.toList.drop workspace.length)
  Path.join workspace ((Text.splitOnChar '/' below).headD "")

def find (pkg : Ref .package) : Job NodeFinder Unit := do
  let s ← get
  match (s.model.package pkg).path with
  | none => throw .wrongKind
  | some path =>
    let p := CMake.Project.make (sourceFolder s.workspace path) (Path.join s.workspace "build")
      s.packages s.environment (bindings s.workspace path)
    let (r, p) := (CMake.Project.parse s.files (Path.join path "CMakeLists.txt")).exec p
    set { s with environment := p.environment }
    Job.ofResult r
    modify fun s => { s with model := updateNodelets s.model pkg p }
    addPrograms pkg p
    if s.parses then parseNodes pkg

end NodeFinder

end RosAudit
