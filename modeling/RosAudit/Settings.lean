import RosAudit.Extract.Sources
import RosAudit.Yaml.Document

/-!
# Settings

How an audit is set up: the environment, the workspace, what is left out of reports, and where the
parser of C++ finds its files. Settings come from a file or are given one by one; what is missing
or empty gets its standard value.

`workspaceOf` finds the workspace that an environment belongs to.
-/

namespace RosAudit

def spaceDepth? (isolated : Bool) (path : String) : Option Nat :=
  if endsWith path "/devel" || endsWith path "/install" then some 1
  else if isolated && (Text.occursIn "devel_isolated".toList path.toList ||
      Text.occursIn "install_isolated".toList path.toList) then some 2
  else none

def workspaceOf (t : FileTree) (isolated : Bool) (environment : Value) : Result Value := do
  let ws := environment.field "ROS_WORKSPACE"
  if ws.truthy then return ws
  match (environment.field? "CMAKE_PREFIX_PATH").getD (.text "") with
  | .text s =>
    let spaces := (Text.splitOnChar ':' s).filterMap fun p =>
      if t.present (Path.join p ".catkin") then (spaceDepth? isolated p).map fun d => (p, d)
      else none
    match spaces with
    | (p, d) :: _ => return .text (t.absolute (Path.join p (if d = 1 then ".." else "../..")))
    | [] => throw .noWorkspace
  | _ => throw .noField

structure Settings where
  environment : Value
  blacklist : Value := .list []
  workspace : Value
  ignoredTags : Value := .list []
  ignoredRules : Value := .list []
  ignoredMetrics : Value := .list []
  ignoredLines : IgnoredLines := Table.empty
  parser : Value
  parserLibrary : Value
  parserIncludes : Value
  compileDatabase : Value := .null

namespace Settings

/-- The environments that settings can draw on: the one of the process, and the standard one. -/
structure Surroundings where
  process : Value
  standard : Value

def orElse (v d : Value) : Value := if v.truthy then v else d

def folderText (v : Value) : Result String :=
  match v with
  | .text s => pure s
  | _ => throw .wrongKind

def make (t : FileTree) (around : Surroundings) (given : Value) : Result Settings := do
  let environment := orElse (given.field "env") around.standard
  let workspace ←
    if (given.field "workspace").truthy then pure (given.field "workspace")
    else workspaceOf t true environment
  let compileDatabase ← match given.field "cpp_compile_db" with
    | .null =>
      let folder := Path.join (← folderText workspace) "build"
      pure (if t.isFile (Path.join folder "compile_commands.json") then .text folder else .null)
    | .bool false => pure .null
    | v => pure v
  let blacklist := given.field "blacklist"
  pure {
    environment, workspace, compileDatabase
    blacklist := if blacklist.isNull then .list [] else blacklist
    ignoredTags := orElse (given.field "ignored_tags") (.list [])
    ignoredRules := orElse (given.field "ignored_rules") (.list [])
    ignoredMetrics := orElse (given.field "ignored_metrics") (.list [])
    parser := orElse (given.field "cpp_parser") (.text "clang")
    parserLibrary := orElse (given.field "cpp_parser_lib") (.text "/usr/lib/llvm-3.8/lib")
    parserIncludes := orElse (given.field "cpp_includes")
      (.text "/usr/lib/llvm-3.8/lib/clang/3.8.0/include") }

def environmentOf (around : Surroundings) (v : Value) : Result Value :=
  match v with
  | .text "copy" => pure around.process
  | .text "all" => pure around.process
  | .bool true => pure around.process
  | .record _ => pure .null
  | .null => pure .null
  | _ => throw (.invalidValue "invalid value for environment")

def read (t : FileTree) (around : Surroundings) (path : String) : Result Settings := do
  let data ← Yaml.load (← t.read path)
  let data := orElse data (.record [])
  let env ← environmentOf around (← data.look "environment" .null)
  let blacklist ← data.look "plugin_blacklist" (.list [])
  let ignore ← (← data.look "analysis" (.record [])).look "ignore" (.record [])
  let tags ← ignore.look "tags" .null
  let rules ← ignore.look "rules" .null
  let metrics ← ignore.look "metrics" .null
  let cpp ← data.look "cpp" (.record [])
  let parser ← cpp.look "parser" .null
  make t around (.object [("env", env), ("blacklist", blacklist),
    ("workspace", data.field "workspace"), ("ignored_tags", tags), ("ignored_rules", rules),
    ("ignored_metrics", metrics), ("cpp_parser", parser),
    ("cpp_parser_lib", cpp.field "parser_lib"), ("cpp_includes", cpp.field "std_includes"),
    ("cpp_compile_db", cpp.field "compile_db")])

def toValue (s : Settings) : Value :=
  .object [("environment", s.environment), ("plugin_blacklist", s.blacklist),
    ("workspace", s.workspace), ("ignored_tags", s.ignoredTags),
    ("ignored_rules", s.ignoredRules), ("ignored_metrics", s.ignoredMetrics),
    ("ignored_lines", Value.ofTable (Value.ofTable fun ns => .list (ns.map Value.nat))
      s.ignoredLines),
    ("cpp_parser", s.parser), ("cpp_parser_lib", s.parserLibrary),
    ("cpp_includes", s.parserIncludes), ("cpp_compile_db", s.compileDatabase)]

end Settings

end RosAudit
