import RosAudit.Audit.Export
import RosAudit.Audit.Run
import RosAudit.CommandLine.Home
import RosAudit.CommandLine.Options
import RosAudit.CommandLine.Viewer
import RosAudit.Configure.Builder
import RosAudit.Extract.Survey

/-!
# Sessions

A session is what the commands of the program work on: the files, the databases of earlier audits
and the lines that were printed. Each command is a job on a session; `Session.launch` reads a
command line and runs its command.
-/

namespace RosAudit

open CommandLine

/-- A plugin that is installed, with the rules and metrics that it brings. -/
structure Installed where
  plugin : Plugin
  rules : Value := .record []
  metrics : Value := .record []

structure Host where
  home : String
  definitions : String
  scratch : String
  timestamp : String
  surroundings : Settings.Surroundings
  systemRoots : List String := []
  origin : Origin := {}
  plugins : List Installed := []
  viewer : List String := Viewer.contents

/-- A database that was saved, with its report and the past of its project. -/
structure Archive where
  database : Database
  report : Report
  history : Export.History := []

/-- What the commands of the program work on. A saved database is a file that holds the number of
its archive. -/
structure Session where
  files : FileTree
  archives : List Archive := []
  output : List String := []
  trace : List Value := []

namespace Session

def say (line : String) : Job Session Unit :=
  modify fun s => { s with output := s.output ++ [line] }

def note (event : Value) : Job Session Unit :=
  modify fun s => { s with trace := s.trace ++ [event] }

def onFiles {α : Type} (j : Job FileTree α) : Job Session α := do
  let s ← get
  let (r, files) := j.exec s.files
  set { s with files }
  Job.ofResult r

def demand (test : Bool) (message : String) : Job Session Unit :=
  if test then pure () else throw (.invalidValue message)

/-! ## Saved databases -/

def archiveMark : String := "audit "

def save (path : String) (a : Archive) : Job Session Unit := do
  let s ← get
  let files ← Job.ofResult (s.files.write path (archiveMark ++ toString s.archives.length))
  set { s with files, archives := s.archives ++ [a] }

def load (path : String) : Job Session Archive := do
  let s ← get
  let text ← Job.ofResult (s.files.stored path)
  match (List.range s.archives.length).find? fun n => text == archiveMark ++ toString n with
  | none => throw .wrongKind
  | some n =>
    match s.archives[n]? with
    | some a => pure a
    | none => throw .wrongKind

/-! ## The home folder -/

def homeLayout : Value :=
  .object [
    ("index.yaml", .text "%YAML 1.1\n---\npackages: []\n"),
    ("configs.yaml",
      .text ("%YAML 1.1\n---\n# workspace: \x27/path/to/ws\x27\n# environment: null\n" ++
      "# plugin_blacklist: []\n# cpp:\n#    parser_lib: \x27/usr/lib/llvm-3.8/lib\x27\n" ++
      "#    std_includes: \x27/usr/lib/llvm-3.8/lib/clang/3.8.0/include\x27\n" ++
      "#    compile_db: \x27/path/to/ws/build\x27\n# analysis:\n#    ignore:\n" ++
      "#        tags: []\n#        rules: []\n#        metrics: []\n")),
    ("parse_cache.json", .text "\x7b\x7d"), ("repositories", .record []), ("export", .record []),
    ("projects", .object [("default", .record [])]), ("pyflwor", .record [])]

def installViewer (h : Host) (target : String) (force : Bool) : Job Session Unit := do
  note (.list [.text "viz", .text target, .bool force])
  onFiles (Viewer.install h.viewer target force)

def setup (h : Host) (p : Places) (overwrite : Bool) : Job Session Unit := do
  say "[HAROS] Running setup operations..."
  let t := (← get).files
  if t.present p.home && !t.isFolder p.home then
    throw (.stopped
      ("Could not initialise; " ++ p.home ++ " already exists and is not a directory."))
  if !t.present p.home then onFiles do set (← Job.ofResult (t.makeFolders p.home))
  match homeLayout with
  | .record es => onFiles (FileTree.layOut overwrite p.home es)
  | _ => pure ()
  if overwrite || !(← get).files.present p.viz then installViewer h p.viz true

/-! ## Exports -/

def exportProject (folder : String) (a : Archive) : Job Session Unit := do
  let m := a.database.model
  let r := a.report
  let into (path : String) (e : Export) : Job Session Unit := onFiles (e.write path)
  let fresh (path : String) : Job Session Unit := onFiles (FileTree.ensure path true)
  into folder (Export.packages m r)
  into folder (Export.rules a.database.registry)
  into folder (Export.metrics a.database.registry)
  into folder (Export.summary r a.history)
  into folder (Export.configurations m r)
  let compliance := Path.join folder "compliance"
  fresh compliance
  into compliance (Export.other m r)
  fresh (Path.join compliance "source")
  into (Path.join compliance "source") (Export.source m r)
  fresh (Path.join compliance "runtime")
  into (Path.join compliance "runtime") (Export.runtime m r)
  fresh (Path.join folder "metrics")
  into (Path.join folder "metrics") (Export.measurements m r)

def exportProjects (folder : String) (as : List Archive) (overwrite : Bool) : Job Session Unit := do
  let projects := as.filterMap fun a =>
    a.database.catalog.project.map fun p => (a.database.model, p)
  onFiles ((Export.projects (← get).files folder projects overwrite).write folder)

/-! ## Audits -/

structure Request where
  index : String
  dataFolder : Option String := none
  wanted : Value := .null
  unwanted : Value := .null
  useRepos : Bool := false
  parseNodes : Bool := false
  copyEnvironment : Bool := false
  useCache : Bool := true

structure Allowed where
  rules : List String := []
  metrics : List String := []

def ignoredBy (k : Settings) : Ignored :=
  { rules := k.ignoredRules, tags := k.ignoredTags, metrics := k.ignoredMetrics }

def settings (h : Host) (p : Places) : Job Session Settings := do
  let t := (← get).files
  match Settings.read t h.surroundings p.config with
  | .error .fileAccess => Job.ofResult (Settings.make t h.surroundings (.record []))
  | r => Job.ofResult r

def register (h : Host) (k : Settings) (q : Request) : Job Session (Registry × Allowed) := do
  say "[HAROS] Loading common definitions..."
  let (r, g) := (Registry.load (← get).files h.definitions "" (ignoredBy k)).exec {}
  let (rules, metrics) ← Job.ofResult r
  say "[HAROS] Loading plugins..."
  let unwanted := if q.unwanted.truthy then q.unwanted else k.blacklist
  note (.list [.text "load", q.wanted, unwanted, .nat g.rules.size, .nat g.metrics.size])
  if h.plugins.isEmpty then
    throw (.stopped (if unwanted.truthy || q.wanted.truthy
      then "Could not find any analysis plugins for the provided names."
      else "Could not find any analysis plugins."))
  let mut g := g
  let mut allowed : Allowed := { rules, metrics }
  for x in h.plugins do
    say ("  > Loaded " ++ x.plugin.name)
    let both : Job Registry (List String × List String) := do
      let lead := x.plugin.name ++ ":"
      let rules ← Registry.addRules lead (ignoredBy k) x.rules
      let metrics ← Registry.addMetrics lead (ignoredBy k) x.metrics
      pure (rules, metrics)
    let (r, next) := both.exec g
    let (rules, metrics) ← Job.ofResult r
    g := next
    allowed := { rules := allowed.rules ++ rules, metrics := allowed.metrics ++ metrics }
  pure (g, allowed)

def readCache (path : String) : Job Session Value := do
  match (← get).files.read path with
  | .error .fileAccess => pure (.record [])
  | .error f => throw f
  | .ok text =>
    match Json.parse text with
    | some v => pure v
    | none => throw .json

def configure (h : Host) (t : FileTree) (environment : Table String String) (specs : Value)
    (name : String) (data : Value) : Job Database Unit := do
  let d ← get
  let (specs, hints, launches) ← match data with
    | .list xs => pure (Value.null, Value.null, xs)
    | v => do
      let hints ← Job.ofResult (v.look "hints" .null)
      let launches ← Job.ofResult ((← Job.ofResult (v.need "launch")).each)
      pure (specs, hints, launches)
  let (m, configuration) := d.model.addConfiguration { name, environment }
  let project := d.catalog.project.getD ⟨0⟩
  let catalogue := Builder.catalogueOf m project
  let b : Builder := {
    files := t, bench := { model := m }, configuration, catalogue
    search := PackageSearch.across h.systemRoots, specs, hints
    context := { packages := Builder.Catalogue.paths m catalogue, origin := h.origin } }
  let build : Job Builder Unit := do
    for launch in launches do
      let path ← match launch with
        | .text s => pure s
        | _ => throw .noField
      let (package, rest) ← match path.toList.span (· != '/') with
        | (_, []) => throw (.invalidValue ("invalid launch file: " ++ path))
        | (a, _ :: b) => pure (String.ofList a, String.ofList b)
      let folder ← match d.catalog.packages.get? ("package:" ++ package) with
        | some p => pure ((d.model.package p).path.getD "")
        | none => throw (.invalidValue ("unknown package: " ++ package))
      match d.fileAt? (Path.join folder rest) with
      | none => throw (.invalidValue ("unknown launch file: " ++ path))
      | some f =>
        let _ ← Builder.addLaunch f
  let (r, b) := build.exec b
  Job.ofResult r
  let m := b.bench.model.updateProject project fun j =>
    { j with configurations := j.configurations ++ [configuration] }
  set { d with model := m, catalog := { d.catalog with
    configurations := d.catalog.configurations ++ [configuration] } }

def configureAll (h : Host) (t : FileTree) (environment : Table String String)
    (specs configurations : Value) : Job Database Unit := do
  for (name, data) in ← Job.ofResult configurations.pairs do
    configure h t environment specs name.display data

def inspect (h : Host) (home : String) (d : Database) (k : Settings) (allowed : Allowed) :
    Job Session Report := do
  say "[HAROS] Running analysis..."
  onFiles (FileTree.clear (Path.join home "export"))
  onFiles do set (← Job.ofResult ((← get).ensureFolders h.scratch))
  let s ← get
  let project := d.catalog.project.getD ⟨0⟩
  let lines := k.ignoredLines.map fun t => (t.getD "*" []).map fun n => some (Int.ofNat n)
  let i : Interface := {
    model := d.model, files := s.files, registry := d.registry, catalog := d.catalog
    report := Report.make d.model project h.timestamp, allowedRules := allowed.rules
    allowedMetrics := allowed.metrics, ignoredLines := lines }
  let places : AuditPlaces := { outFolder := h.scratch, exportFolder := Path.join home "export" }
  let (r, i) := (Audit.run places (h.plugins.map Installed.plugin)).exec i
  set { s with files := i.files, trace := s.trace ++ i.trace }
  onFiles do set (← Job.ofResult ((← get).removeFolder h.scratch))
  Job.ofResult r
  pure i.report

def cacheOf (d : Database) (before : Value) : Result Value :=
  d.catalog.nodes.values.foldlM (fun v n => do
    let x := d.model.node n
    match v with
    | .record es => return .record (Value.putEntry (.text x.nodeName) (← d.model.nodeValue x) es)
    | _ => throw .wrongKind) before

def analyse (h : Host) (p : Places) (q : Request) : Job Session Unit := do
  let k ← settings h p
  let (registry, allowed) ← register h k q
  let cachePath := Path.join p.home "parse_cache.json"
  let cached := q.parseNodes && q.useCache
  let cache ← if cached then readCache cachePath else pure (.record [])
  say "[HAROS] Reading project and indexing source code..."
  let environment := if q.copyEnvironment then h.surroundings.process else k.environment
  if q.parseNodes then say "  > Parsing nodes might take some time."
  let s ← get
  let survey : Survey := {
    files := s.files, index := q.index, environment, systemRoots := h.systemRoots
    origin := h.origin, repoFolder := some (Path.join p.home "repositories")
    distribution := if q.useRepos then some none else none, requiresRepos := true
    parses := q.parseNodes, settings := some k, nodeData := cache.toTable }
  let (r, survey) := Survey.run.exec survey
  set { s with files := survey.files }
  Job.ofResult r
  let k := survey.settings.getD k
  let project := survey.project.getD ⟨0⟩
  let name := (survey.model.project project).name
  if (survey.model.project project).packages.isEmpty then
    throw (.stopped "There are no packages to analyse.")
  let d : Database := { model := survey.model, registry }
  let d := d.register project
  let (r, registry) := (Registry.addRules "user:" (ignoredBy k) survey.rules).exec d.registry
  let allowed := { allowed with rules := allowed.rules ++ (← Job.ofResult r) }
  let d := { d with registry }
  let (dataRoot, projects) := match q.dataFolder.filter fun s => !s.isEmpty with
    | some folder => (folder, Path.join folder "projects")
    | none => (Path.join p.home "viz", Path.join p.home "projects")
  let folder := Path.join projects name
  let archive := Path.join folder "haros.db"
  let history ← match ← (load archive).attempt with
    | .ok a => match a.report.statistics with
      | some k => pure (a.history ++ [(a.report.timestamp, k)])
      | none => pure a.history
    | .error .fileAccess => pure []
    | .error f => throw f
  let texts := Scene.textTable environment
  let (r, d) := (configureAll h (← get).files texts survey.nodeSpecs survey.configurations).exec d
  Job.ofResult r
  let report ← inspect h p.home d k allowed
  say "[HAROS] Saving analysis results..."
  if (q.dataFolder.filter fun s => !s.isEmpty).isSome then installViewer h dataRoot false
  let data := Path.join dataRoot "data"
  onFiles (FileTree.ensure data)
  onFiles (FileTree.ensure folder)
  let a : Archive := { database := d.compact, report, history }
  save archive a
  onFiles (FileTree.ensure (Path.join data name))
  exportProject (Path.join data name) a
  exportProjects data [a] false
  if cached then
    let text ← Job.ofResult ((cacheOf a.database cache).bind Export.textOf)
    match ← (onFiles do set (← Job.ofResult ((← get).write cachePath text))).attempt with
    | .ok _ | .error .fileAccess => pure ()
    | .error f => throw f

/-! ## Other commands -/

def copyFile (source target : String) : Job FileTree Unit := do
  let t ← get
  if t.absolute source == t.absolute target then throw .fileAccess
  set (← Job.ofResult (t.write target (← Job.ofResult (t.stored source))))

def exportSaved (home folder projects name : String) : Job Session (Option Archive) := do
  onFiles (FileTree.ensure (Path.join projects name))
  onFiles (FileTree.ensure (Path.join folder name))
  let archive := Path.join (Path.join (Path.join home "projects") name) "haros.db"
  if !(← get).files.isFile archive then return none
  let a ← load archive
  onFiles (copyFile archive (Path.join (Path.join projects name) "haros.db"))
  exportProject (Path.join folder name) a
  return some a

def exportAll (h : Host) (home folder project : String) (withViewer : Bool) : Job Session Unit := do
  say "[HAROS] Exporting analysis results..."
  let (data, projects) :=
    if withViewer then (Path.join folder "data", Path.join folder "projects") else (folder, folder)
  if withViewer then installViewer h folder false
  onFiles (FileTree.ensure data)
  onFiles (FileTree.ensure projects)
  let names ←
    if project == "all" then do
      let t := (← get).files
      let top := Path.join home "projects"
      pure ((← Job.ofResult (t.list top)).filter fun n => t.isFolder (Path.join top n))
    else pure [project]
  let found ← names.mapM (exportSaved home data projects)
  exportProjects data (found.filterMap id) true

def serve (folder host : String) : Job Session Bool := do
  match ← Job.ofResult (Viewer.address (← get).files folder host) with
  | none => pure false
  | some _ =>
    say ("[HAROS] Serving visualisation at " ++ host)
    pure true

/-! ## Command lines -/

def given (values : Table String Value) (k : String) : Option String :=
  (values.get? k).bind Value.asText?

def isSet (values : Table String Value) (k : String) : Bool :=
  match values.get? k with
  | some (.bool b) => b
  | _ => false

def auditCommand (h : Host) (p : Places) (values : Table String Value) : Job Session Bool := do
  setup h p false
  let t := (← get).files
  let folder := (given values "data_dir").filter fun s => !s.isEmpty
  match folder with
  | some f => demand (t.isFolder f) ("Not a directory: " ++ f)
  | none => pure ()
  let index := ((given values "project_file").filter fun s => !s.isEmpty).getD p.index
  demand (t.isFile index) ("Not a file: " ++ index)
  analyse h p {
    index, dataFolder := folder, wanted := values.getD "whitelist" .null
    unwanted := values.getD "blacklist" .null, useRepos := isSet values "use_repos"
    parseNodes := isSet values "parse_nodes", copyEnvironment := isSet values "env"
    useCache := !isSet values "no_cache" }
  pure true

def serveCommand (p : Places) (values : Table String Value) : Job Session Bool := do
  let folder := ((given values "data_dir").filter fun s => !s.isEmpty).getD p.viz
  demand ((← get).files.isFolder folder) ("Not a directory: " ++ folder)
  serve folder ((given values "server_host").getD "")

def command (h : Host) (p : Places) (values : Table String Value) : Job Session Bool := do
  match given values "command" with
  | some "command_init" => do
    setup h p true
    pure true
  | some "command_analyse" => auditCommand h p values
  | some "command_full" => do
    let _ ← auditCommand h p values
    serveCommand p values
  | some "command_export" => do
    setup h p false
    let folder := (given values "data_dir").getD ""
    demand ((← get).files.isFolder folder) ("Not a directory: " ++ folder)
    exportAll h p.home folder ((given values "project").getD "") (isSet values "export_viz")
    pure true
  | some _ => do
    setup h p false
    serveCommand p values
  | none => throw .noField

def isReported : Fault → Bool
  | .noKey | .noWorkspace | .stopped _ | .unsupported _ | .tooDeep => true
  | _ => false

inductive Ending where
  | misuse (code : Nat)
  | done (code : Nat)

def launch (h : Host) (words : List String) : Job Session Ending := do
  match CommandLine.read words with
  | .error code => pure (.misuse code)
  | .ok values =>
    let p := Places.ofValues h.home values
    let before := (← get).files.current
    let run : Job Session Bool := do
      match (given values "cwd").filter fun s => !s.isEmpty with
      | some folder => onFiles do set (← Job.ofResult ((← get).enter folder))
      | none => pure ()
      command h p values
    let r ← run.attempt
    modify fun s => { s with files := { s.files with current := before } }
    match r with
    | .ok true => pure (.done 0)
    | .ok false => pure (.done 1)
    | .error f => if isReported f then pure (.done 1) else throw f

/-! ## What a session left -/

def fileValue (path text : String) : Value :=
  let ends (s : String) : Bool := s.toList.isSuffixOf path.toList
  if ends ".db" then .text "<db>"
  else if ends ".json" then (Json.parse text).getD (.text text)
  else .text text

def folderValue (t : FileTree) (folder : String) : Value :=
  .object ((t.listing folder true).map fun (path, text) =>
    (path, (text.map (fileValue path)).getD .null))

end Session

end RosAudit
