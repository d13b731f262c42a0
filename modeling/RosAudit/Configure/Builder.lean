import RosAudit.Configure.Links
import RosAudit.Package.Manifest
import RosAudit.Package.Search

/-!
# Building configurations

A configuration is what runs when some launch files are launched. `Builder.addLaunch` works
through the tree of a launch file and the files that it includes, in document order: nodes are
started and linked, parameters set, arguments passed on.

A tag that cannot be used leaves a message in `Builder.errors` and the rest of the file still
counts. Anything worse stops the launch where it is, and what was built up to there stays.
-/

namespace RosAudit

/-- The objects of a project by which launch files speak of them. -/
structure Catalogue where
  packages : Table String (Ref .package) := Table.empty
  files : List (Ref .file) := []
  nodes : Table String (Ref .node) := Table.empty

structure Builder where
  files : FileTree
  bench : Workbench
  configuration : Ref .configuration
  catalogue : Catalogue := {}
  search : PackageSearch
  foreign : List (Ref .package) := []
  specs : Value := .null
  hints : Value := .null
  context : SubstContext := {}
  future : List FutureLink := []
  errors : List String := []

namespace Builder

def onBench {α : Type} (j : Job Workbench α) : Job Builder α := fun b =>
  let (r, bench) := j.exec b.bench
  (r, { b with bench })

def onContext {α : Type} (j : Job SubstContext α) : Job Builder α := fun b =>
  let (r, context) := j.exec b.context
  (r, { b with context })

def model : Job Builder Model := return (← get).bench.model

def resolveField (k : TagKind) (attrs : Table String Subst) (field : String) :
    Job Builder (Option Subst) :=
  match k.field attrs field with
  | none => pure none
  | some v => onContext (SubstContext.resolveLate v .text true)

def textField (k : TagKind) (attrs : Table String Subst) (field : String) :
    Job Builder (Option String) := do
  match ← resolveField k attrs field with
  | some (.text s) => pure (some s)
  | _ => pure none

/-! ## Nodes -/

def findPackage (name : String) : Job Builder (Ref .package) := do
  let b ← get
  match b.foreign.find? fun p => (b.bench.model.package p).name == name with
  | some p => pure p
  | none =>
    let (r, search) := (PackageSearch.locate b.files name).exec b.search
    set { b with search }
    let manifest := r.bind fun folder => Manifest.read b.files (Path.join folder "package.xml")
    match manifest with
    | .ok x =>
      let p ← onBench (LaunchScope.change fun m => m.addManifest x none)
      modify fun b => { b with foreign := b.foreign ++ [p] }
      pure p
    | .error .fileAccess | .error .xml | .error .noResource =>
      throw (.configuration (.noPackage name))
    | .error f => throw f

/-- The package and the program that a node tag means; a nodelet is named in its arguments. -/
def nodeTarget (pkg exe : String) (args : Option String) : Result (String × String) :=
  if exe == "nodelet" then
    match nonEmpty? args with
    | none => throw (.configuration .nodeletWithoutArgs)
    | some args =>
      match Text.words args with
      | [] => throw .outOfRange
      | word :: rest =>
        if word == "load" || word == "standalone" then
          match rest with
          | target :: _ :: _ =>
            match Text.splitOnChar '/' target with
            | [pkg, exe] => pure (pkg, exe)
            | _ => throw .unreadableValue
          | _ => throw (.configuration .nodeletTooFewArgs)
        else pure (pkg, exe)
  else pure (pkg, exe)

/-- A program that a node tag starts: one of the project, or one that is taken as it is named. -/
inductive Program where
  | known (node : Ref .node)
  | named (name : String) (package : Ref .package)

/-- The program that a node tag means. -/
def findProgram (pkg exe : String) (args : Option String) : Job Builder Program := do
  let (pkg, exe) ← Job.ofResult (nodeTarget pkg exe args)
  let b ← get
  let known := b.catalogue.nodes.get? ("node:" ++ pkg ++ "/" ++ exe)
  let package ← match b.catalogue.packages.get? pkg with
    | some p => pure p
    | none => do
      if known.isSome then throw .broken
      findPackage pkg
  match known with
  | some n => pure (.known n)
  | none => pure (.named exe package)

def Program.node : Program → Job Builder (Ref .node)
  | .known n => pure n
  | .named exe package => do
    let name ← Job.ofResult (Name.make "?")
    onBench (LaunchScope.change fun m => m.addNode (m.makeNode exe package (some name) (some exe)))

def linkNode (s : LaunchScope) (node : Ref .node) : Job Builder Unit := do
  let b ← get
  let m := b.bench.model
  let hints ← Job.ofResult
    (Hints.merge b.specs b.hints (m.node node).nodeName (s.privateSpace m))
  let s ← onBench (Hints.link s hints)
  modify fun b => { b with future := b.future ++ s.future }

/-! ## Tags -/

def counts (c : Condition) : Job Builder Bool := do
  match ← onContext (SubstContext.resolveLate c.value .text false) with
  | none => throw .unboundName
  | some (.bool b) => pure (b == c.wanted)
  | some _ => pure false

/-- The text of a parameter's value, if it has one that can be known. -/
def paramText (attrs : Table String Subst) : Job Builder (Option String) := do
  let field (name : String) : Option Subst := TagKind.field .param attrs name
  match field "value", field "textfile" with
  | some (.text s), _ => pure (some s)
  | some (.pending t), _ => pure (some t.render)
  | _, some (.text path) =>
    match (← get).files.read path with
    | .ok s => pure (some s)
    | .error _ => throw (.configuration (.unreadableFile path))
  | _, some (.pending _) => throw .wrongKind
  | _, _ => pure none

def paramTag (attrs : Table String Subst) (s : LaunchScope) : Job Builder LaunchScope := do
  let name ← textField .param attrs "name"
  let type ← textField .param attrs "type"
  let text ← paramText attrs
  match ← onBench (s.setParam (name.getD "") type text none) with
  | .ok s => pure s
  | .error (.failed .unreadableValue) => throw (.configuration (.conversion ""))
  | .error (.failed f) => throw f
  | .error .notYaml => throw (.configuration .yaml)
  | .error u => throw (.configuration (.conversion u.text))

def rosparamTag (text : String) (attrs : Table String Subst) (s : LaunchScope) :
    Job Builder LaunchScope := do
  let command ← textField .rosparam attrs "command"
  let ns ← textField .rosparam attrs "namespace"
  let file ← textField .rosparam attrs "file"
  let name ← textField .rosparam attrs "name"
  if command == some "load" then
    let document ← match nonEmpty? file with
      | some path =>
        match (← get).files.read path with
        | .ok d => pure d
        | .error _ => throw (.configuration (.unreadableFile path))
      | none => do
        let _ ← resolveField .rosparam attrs "substitute"
        pure text
    onBench (s.setDocument name ns document none)
  else if command == some "delete" then do
    match name with
    | none => throw .wrongKind
    | some name => onBench (s.deleteParam name ns none)
    pure s
  else pure s

/-- The arguments with the one that a tag declares. A default does not replace a value. -/
def argTag (attrs : Table String Subst) (args : Table String Argument) :
    Job Builder (Table String Argument) := do
  let hasValue := (TagKind.field .arg attrs "value").isSome
  let value ← textField .arg attrs (if hasValue then "value" else "default")
  let value := match value with
    | some s => Argument.text s
    | none => .unset
  match TagKind.field .arg attrs "name" with
  | some (.text name) =>
    if hasValue || (args.getD name .unset) == .unset then pure (args.put name value)
    else pure args
  | _ => pure args

/-- Carries out a tag, and notes the message if the tag cannot be used. -/
def noting {α : Type} (fallback : α) (j : Job Builder α) : Job Builder α := do
  match ← Job.attempt j with
  | .ok a => pure a
  | .error (.substitution c) => do
    modify fun b => { b with errors := b.errors ++ [c.text] }
    pure fallback
  | .error (.configuration c) => do
    modify fun b => { b with errors := b.errors ++ [c.text] }
    pure fallback
  | .error f => throw f

def passedArgs : List LaunchTree → Table String Argument → Job Builder (Table String Argument)
  | [], args => pure args
  | .error message :: ts, args => do
    modify fun b => { b with errors := b.errors ++ [message] }
    passedArgs ts args
  | .tag k _ attrs children :: ts, args => do
    let args ← noting args do
      if ← counts (Condition.of attrs) then
        if k = .arg || k = .env then
          if !children.isEmpty then throw .broken
        if k = .arg then argTag attrs args else pure args
      else pure args
    passedArgs ts args

/-- A file that a tag includes: its tree, the arguments it gets and the scope it stands in. -/
structure Included where
  file : Ref .file
  tree : LaunchTree
  arguments : Table String Argument
  scope : LaunchScope

def openInclusion (attrs : Table String Subst) (children : List LaunchTree) (s : LaunchScope) :
    Job Builder Included := do
  let path := (← textField .inclusion attrs "file").getD ""
  let ns ← textField .inclusion attrs "namespace"
  let passAll ← resolveField .inclusion attrs "pass_all_args"
  let b ← get
  let m := b.bench.model
  match b.catalogue.files.find? fun f => (m.file f).path == path with
  | none => throw (.configuration (.noLaunchFile path))
  | some file =>
    match (m.file file).tree with
    | none => throw (.configuration (.noParseTree (m.file file).id))
    | some tree =>
      let outer := b.context.arguments
      let args := if passAll.any fun v => !v.isFalsy then outer else Table.empty
      let scope ← Job.ofResult (s.child m ns none file)
      let arguments ← passedArgs children args
      pure { file, tree, arguments, scope }

def openGroup (attrs : Table String Subst) (s : LaunchScope) : Job Builder LaunchScope := do
  let ns ← textField .group attrs "namespace"
  Job.ofResult (s.child (← model) ns none s.launch)

def startNode (attrs : Table String Subst) (s : LaunchScope) :
    Job Builder (Ref .node × LaunchScope) := do
  let pkg ← textField .node attrs "package"
  let exe ← textField .node attrs "type"
  let args ← textField .node attrs "argv"
  match nonEmpty? pkg, nonEmpty? exe with
  | some pkg, some exe =>
    let program ← findProgram pkg exe args
    let name ← textField .node attrs "name"
    let ns ← textField .node attrs "namespace"
    let node ← program.node
    let argv := match args with
      | some a => Value.text a
      | none => .list []
    let inner ← onBench (s.makeNode node name ns argv none)
    Job.ofResult s.handOver
    pure (node, inner)
  | _, _ => throw (.configuration .missingPackageOrType)

def renamingOf (attrs : Table String Subst) (s : LaunchScope) : Job Builder (String × String) := do
  let source ← textField .remap attrs "origin"
  let target ← textField .remap attrs "target"
  Job.ofResult (s.fullNames (← model) (source.getD "") (target.getD ""))

def leafTag (k : TagKind) (text : String) (attrs : Table String Subst) (s : LaunchScope) :
    Job Builder LaunchScope :=
  match k with
  | .remap => do
    let (source, target) ← renamingOf attrs s
    onBench (s.rename source target)
  | .param => paramTag attrs s
  | .rosparam => rosparamTag text attrs s
  | .arg => do
    let args ← argTag attrs (← get).context.arguments
    modify fun b => { b with context := { b.context with arguments := args } }
    pure s
  | _ => pure s

/-- What happens with an included file: its tree is worked through with new arguments. -/
abbrev Inclusion := Included → Job Builder Unit

def carryOut (go : Inclusion) (work : LaunchScope → Job Builder LaunchScope) (k : TagKind)
    (text : String) (attrs : Table String Subst) (children : List LaunchTree) (s : LaunchScope) :
    Job Builder LaunchScope := do
  if !(← counts (Condition.of attrs)) then pure s
  else match k with
    | .node => do
      let (node, inner) ← startNode attrs s
      let inner ← work inner
      linkNode inner node
      pure s
    | .group => do
      let inner ← openGroup attrs s
      let _ ← work inner
      pure s
    | .inclusion => do
      go (← openInclusion attrs children s)
      pure s
    | .test => pure s
    | .launch => throw .noField
    | k => do
      if !children.isEmpty then throw .broken
      leafTag k text attrs s

mutual

def analyse (go : Inclusion) : List LaunchTree → LaunchScope → Job Builder LaunchScope
  | [], s => pure s
  | t :: ts, s => do
    let s ← analyseTag go t s
    analyse go ts s

def analyseTag (go : Inclusion) : LaunchTree → LaunchScope → Job Builder LaunchScope
  | .error message, s => do
    modify fun b => { b with errors := b.errors ++ [message] }
    pure s
  | .tag k text attrs children, s =>
    noting s (carryOut go (fun inner => analyse go children inner) k text attrs children s)

end

def tagsOf : LaunchTree → List LaunchTree
  | .error _ => []
  | .tag _ _ _ children => children

/-- The state in which an included file is worked through: its own arguments and folder. -/
def enter (x : Included) (b : Builder) : Builder :=
  { b with context :=
    { b.context with arguments := x.arguments
                     folder := some (b.bench.model.file x.file).folder
                     anonymous := Table.empty } }

def includeFile : Nat → Inclusion
  | 0, _ => throw .tooDeep
  | n + 1, x => do
    let b ← get
    set (b.enter x)
    let _ ← analyse (includeFile n) (tagsOf x.tree) x.scope
    modify fun inner => { inner with context :=
      { b.context with packageUses := inner.context.packageUses
                       environmentUses := inner.context.environmentUses } }

/-- How deep inclusions may nest. -/
def nesting : Nat := 330

def launching (f : Ref .file) (b : Builder) : Builder :=
  let m := b.bench.model
  let c := m.configuration b.configuration
  { b with
    bench := { b.bench with params := [] }
    context := { b.context with
      arguments := Table.empty, environment := c.environment, anonymous := Table.empty
      folder := some (m.file f).folder, packageUses := c.packageUses
      environmentUses := c.environmentUses } }

/-- Lists the parameters that a launch file has set, and links those that were noted. -/
def settleParams : Job Builder Unit := do
  for p in (← get).bench.params do
    let _ ← onBench (LaunchScope.change fun m => m.listParam p)
  for l in (← get).future do onBench l.make

def runLaunch (f : Ref .file) (tree : LaunchTree) : Job Builder Unit := do
  modify (launching f)
  let _ ← analyse (includeFile nesting) (tagsOf tree)
    { configuration := (← get).configuration, launch := f }
  settleParams

def enlist (f : Ref .file) (b : Builder) : Builder :=
  { b with bench := { b.bench with
      model := b.bench.model.updateConfiguration b.configuration fun c =>
        { c with launches := c.launches ++ [f] } } }

def addLaunch (f : Ref .file) : Job Builder Bool := do
  let b ← get
  let x := b.bench.model.file f
  if x.language != "launch" then throw .broken
  modify (enlist f)
  match x.tree with
  | none =>
    modify fun b => { b with errors := b.errors ++ ["missing parse tree: " ++ x.id] }
    pure false
  | some tree =>
    let r ← Job.attempt (runLaunch f tree)
    let c := (← get).context
    onBench (LaunchScope.touch fun m => m.updateConfiguration b.configuration fun k =>
      { k with packageUses := c.packageUses, environmentUses := c.environmentUses })
    let _ ← Job.ofResult r
    pure true

def catalogueOf (m : Model) (p : Ref .project) : Catalogue :=
  let packages := (m.project p).packages
  { packages := Table.ofList (packages.map fun r => ((m.package r).name, r))
    files := (Table.ofList (packages.flatMap fun r =>
      (m.package r).files.map fun f => ((m.file f).id, f))).values
    nodes := Table.ofList (packages.flatMap fun r =>
      (m.package r).nodes.map fun n => ((m.node n).id, n)) }

def Catalogue.paths (m : Model) (c : Catalogue) : Table String (Option String) :=
  c.packages.map fun r => (m.package r).path

end Builder

end RosAudit
