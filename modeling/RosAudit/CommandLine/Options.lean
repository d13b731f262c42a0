import RosAudit.CommandLine.Grammar
import RosAudit.Path

/-!
# The options of the program

The program has five commands: `init` sets up its home folder, `analyse` audits a project, `export`
writes the outcome of earlier audits, `viz` serves it, and `full` audits and serves.
-/

namespace RosAudit.CommandLine

def flag (target : String) (flags : List String) : Opt :=
  { flags, target, arity := .flag, initial := .bool false }

def single (target : String) (flags : List String) (initial : Value := .null) : Opt :=
  { flags, target, arity := .one, initial }

def mainGrammar : Grammar :=
  { options := [single "home" ["--home"], single "config" ["--config"], flag "debug" ["--debug"],
      single "cwd" ["-c", "--cwd"]]
    plain := .command }

def auditOptions : List Opt :=
  [flag "use_repos" ["-r", "--use-repos"], single "project_file" ["-p", "--project-file"],
   flag "parse_nodes" ["-n", "--parse-nodes"], flag "env" ["--env"],
   single "data_dir" ["-d", "--data-dir"], flag "no_cache" ["--no-cache"],
   { flags := ["-w", "--whitelist"], target := "whitelist", arity := .many
     rivals := ["blacklist"] },
   { flags := ["-b", "--blacklist"], target := "blacklist", arity := .many
     rivals := ["whitelist"] }]

def serverOptions : List Opt :=
  [single "server_host" ["-s", "--server-host"] (.text "localhost:8080"),
   flag "headless" ["--headless"]]

def commands : List (String × Grammar) :=
  let named (name : String) : List (String × Value) := [("command", .text ("command_" ++ name))]
  [("init", { options := [], constants := named "init" }),
   ("full", { options := auditOptions ++ serverOptions, constants := named "full" }),
   ("analyse", { options := auditOptions, constants := named "analyse" }),
   ("export", { options := [flag "export_viz" ["-v", "--export-viz"],
                  single "project" ["-p", "--project"] (.text "default")]
                plain := .value "data_dir", constants := named "export" }),
   ("viz", { options := single "data_dir" ["-d", "--data-dir"] :: serverOptions
             constants := named "viz" })]

def read (words : List String) : Reading (Table String Value) :=
  readCommands mainGrammar commands words

/-- The places of the program: its home folder and what it keeps there. -/
structure Places where
  home : String
  index : String
  log : String
  viz : String
  config : String

def Places.make (usual : String) (home config : Option String) : Places :=
  let given (s : Option String) (d : String) : String := (s.filter fun s => !s.isEmpty).getD d
  let home := given home usual
  { home, index := Path.join home "index.yaml", log := Path.join home "log.txt"
    viz := Path.join home "viz"
    config := given config (Path.join home "configs.yaml") }

def Places.ofValues (usual : String) (values : Table String Value) : Places :=
  let given (k : String) : Option String := (values.get? k).bind Value.asText?
  Places.make usual (given "home") (given "config")

def Places.toValue (p : Places) : Value := .texts [p.home, p.index, p.log, p.viz, p.config]

end RosAudit.CommandLine
