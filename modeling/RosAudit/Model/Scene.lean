import RosAudit.View.Model

/-!
# Scenes

A project can be described by data instead of being extracted from a workspace: its packages with
their files and nodes, its repositories, and a script that puts configurations together. A
`Scene` is such a project under construction: the model, the files that go with it, and the names
under which its objects can be found again.

`Scene.describe` builds a whole scene; `Scene.perform` carries out one step of a script.
-/

namespace RosAudit

structure Scene where
  files : FileTree := {}
  model : Model := {}
  project : Ref .project := ⟨0⟩
  packages : Table String (Ref .package) := Table.empty
  sources : Table String (Ref .file) := Table.empty
  nodes : Table String (Ref .node) := Table.empty
  repositories : Table String (Ref .repository) := Table.empty
  configurations : Table String (Ref .configuration) := Table.empty
  handles : Table String Entity := Table.empty
  origin : Origin := {}
  deriving Inhabited

namespace Scene

def text? (v : Value) (k : String) : Option String := (v.field k).asText?

def textD (v : Value) (k d : String) : String := (text? v k).getD d

def int? (v : Value) (k : String) : Option Int := (v.field k).asInt?

def flag (v : Value) (k : String) (d : Bool) : Bool :=
  match v.field k with
  | .bool b => b
  | _ => d

def textList (v : Value) : List String := v.items.filterMap Value.asText?

def textTable (v : Value) : Table String String :=
  Table.ofList (v.fields.filterMap fun e => e.2.asText?.map fun s => (e.1, s))

def nameOf (v : Value) : Result Name :=
  match v with
  | .text s => Name.make s
  | v => Name.make (textD v "name" "") (textD v "ns" "/") (textD v "pns" "")
      (textTable (v.field "remaps"))

def require {α : Type} (o : Option α) : Job Scene α :=
  match o with
  | some a => pure a
  | none => throw .noKey

def change {α : Type} (f : Model → Model × α) : Job Scene α := do
  let s ← get
  let (m, a) := f s.model
  set { s with model := m }
  pure a

def touch (f : Model → Model) : Job Scene Unit := modify fun s => { s with model := f s.model }

def locationOf (v : Value) : Job Scene (Option Location) := do
  if v.isNull then pure none
  else
    let s ← get
    match text? v "config" with
    | some c => return some (.runtime (← require (s.configurations.get? c)))
    | none =>
      let p ← require ((text? v "pkg").bind fun n => s.packages.get? n)
      let f ← match text? v "file" with
        | some f => pure (some (← require (s.sources.get? f)))
        | none => pure none
      pure (some (.source p f (int? v "line") (text? v "fun") (text? v "cls")))

def guardOf (v : Value) : Job Scene Guard :=
  match v with
  | .text s => pure (.source (.text s) none)
  | .bool b => pure (.settled b)
  | v => return .source (v.field "cond") (← locationOf (v.field "loc"))

def guardsOf (v : Value) : Job Scene (Ref .guards) := do
  let gs ← v.items.mapM guardOf
  change fun m => m.addGuards gs

def callOf (v : Value) : Job Scene Call := do
  let location ← locationOf (v.field "loc")
  let gs ← (v.field "conditions").items.mapM guardOf
  change fun m => m.makeCall
    { name := text? v "name", space := text? v "ns", type := text? v "type",
      queue := v.field "queue", guards := ⟨0⟩, location }
    ((int? v "depth").getD 0) (flag v "repeats" false) gs

def callKeys : List (String × CallKind) :=
  [("advertise", .advertise), ("subscribe", .subscribe), ("service", .service),
   ("client", .client), ("read_param", .readParam), ("write_param", .writeParam)]

def addFile (pkg : Ref .package) (v : Value) : Job Scene Unit := do
  let s ← get
  let f ← Job.ofResult (s.model.makeFile (textD v "name" "") (textD v "dir" "src") pkg)
  let f := { f with
    size := (int? v "size").getD f.size, lines := (int? v "lines").getD f.lines
    sloc := (int? v "sloc").getD f.sloc, language := textD v "language" f.language
    timestamp := if (v.field "timestamp").isNull then f.timestamp else v.field "timestamp" }
  match text? v "text" with
  | some text => do
    let t ← Job.ofResult (s.files.place f.path text)
    modify fun s => { s with files := t }
  | none => pure ()
  let r ← change fun m => m.addFile f
  touch fun m => m.updatePackage pkg fun p => { p with files := p.files ++ [r] }
  modify fun s => { s with sources := s.sources.put f.id r }

def addNode (pkg : Ref .package) (v : Value) : Job Scene Unit := do
  let rosname ← match v.field "rosname" with
    | .null => pure none
    | n => pure (some (← Job.ofResult (nameOf n)))
  let s ← get
  let node := s.model.makeNode (textD v "name" "") pkg rosname (text? v "nodelet")
  let files ← (textList (v.field "files")).mapM fun f =>
    require (s.sources.get? ("file:" ++ node.packageName ++ "/" ++ f))
  let node ← callKeys.foldlM (fun n (key, kind) => do
    let cs ← (v.field key).items.mapM callOf
    pure (n.setCalls kind cs)) { node with files }
  let r ← change fun m => m.addNode node
  touch fun m => m.updatePackage pkg fun p => { p with nodes := p.nodes ++ [r] }
  modify fun s => { s with nodes := s.nodes.put node.id r }

def peopleOf (v : Value) : List Person :=
  v.items.foldl (fun ps x =>
    let p : Person := match x.items with
      | [n, e] => ⟨n.asText?.getD "", e.asText?.getD "email@example.com"⟩
      | n :: _ => ⟨n.asText?.getD "", "email@example.com"⟩
      | [] => ⟨"", "email@example.com"⟩
    let p := if p.name.isEmpty then { p with name := "Unknown" } else p
    if ps.any fun q => q.email == p.email then ps else ps ++ [p]) []

def addPackage (root : String) (v : Value) : Job Scene Unit := do
  let s ← get
  let name := textD v "name" ""
  let path := match v.field? "path" with
    | none => some (root ++ "/" ++ name)
    | some p => p.asText?
  let owned := flag v "owned" true
  let r ← change fun m => m.addPackage {
    name, path, project := if owned then some s.project else none
    dependencies := (textList (v.field "deps")).eraseDups
    isMetapackage := flag v "is_metapackage" false, description := textD v "description" ""
    website := text? v "website", vcsUrl := text? v "vcs_url", bugUrl := text? v "bug_url"
    size := (int? v "size").getD 0, lines := (int? v "lines").getD 0
    sloc := (int? v "sloc").getD 0
    authors := peopleOf (v.field "authors"), maintainers := peopleOf (v.field "maintainers") }
  modify fun s => { s with packages := s.packages.put name r }
  if !flag v "stray" false then
    touch fun m => m.updateProject s.project fun p => { p with packages := p.packages ++ [r] }
  for f in (v.field "files").items do addFile r f
  for n in (v.field "nodes").items do addNode r n

def addRepository (v : Value) : Job Scene Unit := do
  let s ← get
  let name := textD v "name" ""
  let r ← change fun m => m.addRepository {
    name, project := if flag v "owned" false then some s.project else none }
  modify fun s => { s with repositories := s.repositories.put name r }
  touch fun m => m.updateProject s.project fun p => { p with repositories := p.repositories ++ [r] }
  for n in textList (v.field "packages") do
    let p ← require (s.packages.get? n)
    touch fun m => m.updateRepository r fun x => { x with packages := x.packages ++ [p] }
    touch fun m => m.updatePackage p fun x => { x with repository := some r }

def packagePaths (m : Model) (ps : List (Ref .package)) : Table String (Option String) :=
  Table.ofList (ps.map fun r => ((m.package r).name, (m.package r).path))

def parseLaunch (m : Model) (t : FileTree) (packages : Table String (Option String))
    (origin : Origin) (f : Ref .file) : Result Model := do
  let doc ← t.stored (m.file f).path
  match ((LaunchTree.ofDocument doc).exec { packages, origin }).1 with
  | .ok tree => pure (m.updateFile f fun x => { x with tree := some tree })
  | .error (.launch _) => pure m
  | .error e => throw e

def parseLaunches : Job Scene Unit := do
  let s ← get
  let paths := packagePaths s.model (s.model.project s.project).packages
  for f in s.sources.values do
    let s ← get
    let x := s.model.file f
    if x.language == "launch" && s.files.isFile x.path then
      let m ← Job.ofResult (parseLaunch s.model s.files paths s.origin f)
      set { s with model := m }

/-! ## Scripts -/

def handle (name : String) : Job Scene Entity := do require ((← get).handles.get? name)

def remember (step : Value) (e : Entity) : Job Scene Unit :=
  match text? step "as" with
  | some h => modify fun s => { s with handles := s.handles.put h e }
  | none => pure ()

def configOf (step : Value) : Job Scene (Ref .configuration) := do
  require ((← get).configurations.get? (textD step "config" ""))

def launchOf (step : Value) : Job Scene (Option (Ref .file)) :=
  match text? step "launch" with
  | some f => do return some (← require ((← get).sources.get? f))
  | none => pure none

def listed (step : Value) (e : Entity) (list : Model → Model × Nat) : Job Scene Value := do
  remember step e
  if flag step "add" true then return .nat (← change list) else pure .null

def linkWords : List (String × LinkRole × Option LinkSide) :=
  [("pub", .publish, some .publishers), ("sub", .subscribe, some .subscribers),
   ("srv", .serve, some .servers), ("cli", .request, some .clients),
   ("read", .read, some .reads), ("write", .write, some .writes),
   ("topic", .topic, none), ("service", .service, none), ("param", .param, none)]

def perform (step : Value) : Job Scene (Option Value) := do
  match textD step "do" "" with
  | "config" =>
    let name := textD step "name" ""
    let r ← change fun m => m.addConfiguration {
      name, environment := textTable (step.field "env")
      packageUses := (textList (step.field "pkg_deps")).eraseDups
      environmentUses := (textList (step.field "env_deps")).eraseDups }
    let s ← get
    set { s with configurations := s.configurations.put name r }
    touch fun m => m.updateProject s.project fun p =>
      { p with configurations := p.configurations ++ [r] }
    remember step r.entity
    return some (.text ("Configuration " ++ name))
  | "node" =>
    let configuration ← configOf step
    let node ← require ((← get).nodes.get? (textD step "node" ""))
    let launch ← launchOf step
    let name ← Job.ofResult (nameOf (step.field "name"))
    let guards ← guardsOf (step.field "conditions")
    let argv := if (step.field "argv").isNull then Value.list [] else step.field "argv"
    let r ← change fun m => m.addInstance {
      configuration, name, node, launch, guards, argv, remaps := textTable (step.field "remaps") }
    return some (← listed step r.entity fun m => m.listInstance r)
  | "topic" =>
    let configuration ← configOf step
    let name ← Job.ofResult (nameOf (step.field "name"))
    let guards ← guardsOf (step.field "conditions")
    let r ← change fun m => m.addTopic { configuration, name, guards, type := text? step "type" }
    return some (← listed step r.entity fun m => m.listTopic r)
  | "service" =>
    let configuration ← configOf step
    let name ← Job.ofResult (nameOf (step.field "name"))
    let guards ← guardsOf (step.field "conditions")
    let r ← change fun m => m.addService { configuration, name, guards, type := text? step "type" }
    return some (← listed step r.entity fun m => m.listService r)
  | "param" =>
    let configuration ← configOf step
    let name ← Job.ofResult (nameOf (step.field "name"))
    let guards ← guardsOf (step.field "conditions")
    let launch ← launchOf step
    let r ← change fun m => m.makeParam {
      configuration, name, guards, launch, type := text? step "type", value := step.field "value" }
    return some (← listed step r.entity fun m => m.listParam r)
  | "link" =>
    let (role, side) ← require (linkWords.lookup (textD step "kind" ""))
    let node ← handle (textD step "node" "")
    let target ← handle (textD step "to" "")
    let name ← Job.ofResult (nameOf (step.field "name"))
    let guards ← guardsOf (step.field "conditions")
    let location ← locationOf (step.field "loc")
    let r ← change fun m => m.addLink {
      role, node := ⟨node.index⟩, target, type := text? step "type", name, guards, location
      queue := step.field "queue" }
    match side with
    | some side => touch fun m => m.attach r side
    | none => pure ()
    remember step r.entity
    let s ← get
    let text := Value.text (s.model.shown r.entity)
    return some (.list [text, text])
  | _ => pure none

def describe (root : String) (v : Value) : Job Scene Unit := do
  let p ← Job.ofResult (Model.makeProject (textD v "project" "default"))
  let r ← change fun m => m.addProject p
  modify fun s => { s with project := r }
  for x in (v.field "packages").items do addPackage root x
  for x in (v.field "repositories").items do addRepository x
  parseLaunches
  for x in (v.field "model").items do
    let _ ← perform x

end Scene

end RosAudit
