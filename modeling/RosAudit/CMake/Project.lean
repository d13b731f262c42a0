import RosAudit.CMake.Script
import RosAudit.Glob

/-!
# Build projects

What a build script builds: libraries and executables with their source files, and the folders and
packages that they need. `Project.parse` works through a script and the scripts of its
subfolders. Variables are substituted in the arguments of every command, and the blocks of
conditions are worked through when the condition holds, each on its own.

`Project.condition` evaluates a condition in the order in which its operators bind: tests of one
argument, tests of two, then `NOT`, and last `AND` and `OR` from the left.
-/

namespace RosAudit.CMake

open RosAudit.Text

/-- What a target is linked with: a name, or a target that the name was found to mean. -/
inductive LinkItem where
  | name (s : String)
  | target (name : String)
  deriving DecidableEq

structure Target where
  name : String
  base : String
  lead : String
  suffix : String
  files : List String
  links : List LinkItem := []
  deriving DecidableEq

namespace Target

def make (name : String) (files : List String) (isExecutable : Bool) : Target :=
  { name, base := name, lead := if isExecutable then "" else "lib"
    suffix := if isExecutable then "" else ".so", files }

def prefixedName (t : Target) : String := t.lead ++ t.base

def outputName (t : Target) : String := t.lead ++ t.base ++ t.suffix

/-- The file that a path means: itself, or the first file beside it whose name begins so. -/
def sourceFile? (t : FileTree) (path : String) : Option String :=
  if t.isFile path then some path
  else
    let folder := Path.parent path
    if !folder.isEmpty && t.isFolder folder then
      ((t.names folder).find? fun n =>
        (Path.base path).toList.isPrefixOf n.toList && t.isFile (Path.join folder n)).map
        (Path.join folder)
    else none

/-- Puts the files that paths mean in their place, from an index on; a path that means none is
taken out. -/
def settleFiles (t : FileTree) (i : Nat) (files : List String) : List String :=
  if h : i < files.length then
    match sourceFile? t files[i] with
    | some file => settleFiles t (i + 1) (files.set i file)
    | none => settleFiles t i (files.eraseIdx i)
  else files
termination_by files.length - i
decreasing_by
  · rw [List.length_set]
    omega
  · rw [List.length_eraseIdx_of_lt h]
    omega

def sourceFiles (t : FileTree) (folder : String) (args : List String) : List String :=
  settleFiles t 0 ((args.flatMap fun a => (splitOnChar ';' a).filter fun f => !f.isEmpty).map
    (Path.join folder))

def setProperty (t : Target) (key value : String) : Target :=
  match key with
  | "PREFIX" => { t with lead := value }
  | "SUFFIX" => { t with suffix := value }
  | "OUTPUT_NAME" => { t with base := value }
  | _ => t

end Target

/-- What is known of a build while its scripts are worked through. -/
structure Project where
  sourceDir : String
  binaryDir : String
  packages : List String := []
  bindings : Table String String := Table.empty
  environment : Table String String := Table.empty
  folder : String := ""
  name : Option String := none
  packageIncludes : List String := []
  includeDirs : List String := []
  dependencies : List String := []
  systemDependencies : List String := []
  libraries : Table String Target := Table.empty
  executables : Table String Target := Table.empty
  subfolders : List String := []
  deriving DecidableEq

namespace Project

def make (sourceDir binaryDir : String) (packages : List String)
    (environment bindings : Table String String) : Project :=
  { sourceDir, binaryDir, packages, environment
    bindings := bindings.put "CMAKE_BINARY_DIR" binaryDir }

def target? (p : Project) (name : String) : Option Target :=
  (p.libraries.get? name).orElse fun _ => p.executables.get? name

def modifyTarget (p : Project) (name : String) (f : Target → Target) : Project :=
  if p.libraries.contains name then { p with libraries := p.libraries.modify name f }
  else { p with executables := p.executables.modify name f }

/-! ## Variables -/

def substituteChars (p : Project) : Nat → List Char → Result (List Char)
  | 0, _ => throw .tooDeep
  | n + 1, cs => do
    let lead := cs.takeWhile (· != '$')
    let rest := cs.dropWhile (· != '$')
    let isEnv := startsWith "$ENV\x7b".toList rest
    let tail ←
      if rest.isEmpty then pure []
      else if isEnv || startsWith "$\x7b".toList rest then do
        let (name, k) ← readUntilMatch rest ['\x7b', '\x7d'] (if isEnv then 4 else 1)
        let name ← p.substituteChars n name
        let value := (if isEnv then p.environment else p.bindings).getD (String.ofList name) ""
        let more ← p.substituteChars n (rest.drop k.toNat)
        pure (value.toList ++ more)
      else do
        let more ← p.substituteChars n (rest.drop 1)
        pure ('$' :: more)
    pure ((lead ++ tail).filter (· != '"'))

def substitute (p : Project) (s : String) : Result String :=
  return String.ofList (← p.substituteChars (s.length + 2) s.toList)

/-! ## Conditions -/

/-- A part of a condition under evaluation. -/
inductive Operand where
  | text (s : String)
  | truth (b : Bool)
  deriving DecidableEq

def Operand.holds : Operand → Bool
  | .text s => !s.isEmpty
  | .truth b => b

def verdict (b : Bool) : String := if b then "TRUE" else "FALSE"

def trueWords : List String := ["1", "ON", "TRUE", "Y", "YES"]

def falseWords : List String := ["0", "OFF", "FALSE", "N", "NO", "IGNORE", "NOTFOUND", ""]

def unaryTests : List String :=
  ["DEFINED", "COMMAND", "POLICY", "TARGET", "EXISTS", "IS_DIRECTORY", "IS_SYMLINK", "IS_ABSOLUTE"]

def binaryTests : List String :=
  ["EQUAL", "LESS", "GREATER", "STREQUAL", "STRLESS", "STRGREATER", "MATCHES", "IS_NEWER_THAN",
   "VERSION_EQUAL", "VERSION_LESS", "VERSION_GREATER"]

def saysNotFound (s : String) : Bool := "-NOTFOUND".toList.reverse.isPrefixOf s.toList.reverse

def unaryTest (p : Project) (t : FileTree) (test : String) (arg : Operand) : Result String :=
  match test, arg with
  | "DEFINED", .text s => pure (verdict (p.bindings.contains s))
  | "TARGET", .text s => pure (verdict (p.target? s).isSome)
  | "EXISTS", .text s => pure (verdict (t.present s))
  | "IS_DIRECTORY", .text s => pure (verdict (t.isFolder s))
  | "IS_ABSOLUTE", .text s => pure (verdict (Path.isAbsolute s))
  | "IS_ABSOLUTE", .truth _ => throw .wrongKind
  | _, _ => pure "FALSE"

inductive VersionPart where
  | number (n : Int)
  | word (s : List Char)
  deriving DecidableEq

/-- Which kind of part a character belongs to: digits, small letters, dots, or other. -/
def versionClass (c : Char) : Nat :=
  if isDecimal c then 0 else if 'a' ≤ c ∧ c ≤ 'z' then 1 else if c == '.' then 2 else 3

def versionRuns (run : List Char) : List Char → List (List Char)
  | [] => if run.isEmpty then [] else [run.reverse]
  | c :: cs =>
    match run with
    | [] => versionRuns [c] cs
    | d :: _ =>
      if versionClass c == versionClass d && versionClass c != 2 then versionRuns (c :: run) cs
      else run.reverse :: versionRuns [c] cs

def versionParts (s : String) : Result (List VersionPart) :=
  if s.isEmpty then throw .noField
  else
    pure (((versionRuns [] s.toList).filter (· != ['.'])).map fun r =>
      match Decimal.readInt? (String.ofList r) with
      | some n => .number n
      | none => .word r)

/-- The order of two versions; a number and a word in the same place have none. -/
def compareVersions : List VersionPart → List VersionPart → Result Ordering
  | [], [] => pure .eq
  | [], _ :: _ => pure .lt
  | _ :: _, [] => pure .gt
  | a :: as, b :: bs =>
    if a = b then compareVersions as bs
    else match a, b with
      | .number m, .number n => pure (if m < n then .lt else .gt)
      | .word s, .word r => pure (if String.ofList s < String.ofList r then .lt else .gt)
      | _, _ => throw .wrongKind

def Operand.int? : Operand → Option Int
  | .text s => Decimal.readInt? s
  | .truth b => some (if b then 1 else 0)

def value (p : Project) : Operand → Operand
  | .text s => .text (p.bindings.getD s s)
  | .truth b => .truth b

/-- Is a file at least as new as another? One that does not exist is. -/
def isNewer (t : FileTree) (a b : Operand) : Bool :=
  match a, b with
  | .text a, .text b =>
    match t.modified a, t.modified b with
    | .ok x, .ok y => x - y ≥ 0.0
    | _, _ => true
  | _, _ => true

def binaryTest (p : Project) (t : FileTree) (test : String) (a b : Operand) : Result String := do
  if !a.holds || !b.holds then return "FALSE"
  if test == "IS_NEWER_THAN" then return verdict (isNewer t a b)
  if test == "MATCHES" then return "FALSE"
  let a := p.value a
  let b := p.value b
  let texts (f : String → String → Result Bool) : Result String :=
    match a, b with
    | .text a, .text b => return verdict (← f a b)
    | _, _ => throw .wrongKind
  let versions (f : Ordering → Bool) : Result String :=
    texts fun a b => return f (← compareVersions (← versionParts a) (← versionParts b))
  let numbers (f : Int → Int → Bool) : Result String :=
    match a.int?, b.int? with
    | some m, some n => pure (verdict (f m n))
    | _, _ => pure "FALSE"
  match test with
  | "STRLESS" => texts fun a b => pure (a < b)
  | "STRGREATER" => texts fun a b => pure (b < a)
  | "STREQUAL" => return verdict (a == b)
  | "VERSION_LESS" => versions (· == .lt)
  | "VERSION_GREATER" => versions (· == .gt)
  | "VERSION_EQUAL" => versions (· == .eq)
  | "LESS" => numbers (· < ·)
  | "GREATER" => numbers (· > ·)
  | _ => numbers (· == ·)

def runUnary (p : Project) (t : FileTree) : List Operand → Result (List Operand)
  | [] => pure []
  | [.text s] => if unaryTests.contains s then throw .outOfRange else pure [.text s]
  | .text s :: a :: rest =>
    if unaryTests.contains s then do
      let r ← p.unaryTest t s a
      return .text r :: (← p.runUnary t rest)
    else return .text s :: (← p.runUnary t (a :: rest))
  | x :: rest => return x :: (← p.runUnary t rest)

/-- Carries out the tests of two arguments. `last` is the operand before the rest, and `done` what
has been evaluated, reversed. -/
def runBinary (p : Project) (t : FileTree) (last : Operand) (done : List Operand) :
    List Operand → Result (List Operand)
  | [] => pure done.reverse
  | [x] =>
    match x with
    | .text s => if binaryTests.contains s then throw .outOfRange else pure (x :: done).reverse
    | _ => pure (x :: done).reverse
  | x :: y :: rest =>
    let isTest := match x with
      | .text s => binaryTests.contains s
      | _ => false
    if isTest then
      match x, done with
      | .text s, _ :: done => do
        let r ← p.binaryTest t s last y
        p.runBinary t y (.text r :: done) rest
      | _, _ => throw .outOfRange
    else p.runBinary t x (x :: done) (y :: rest)

def truthOf (p : Project) : Operand → Result Operand
  | .truth _ => throw .noField
  | .text s =>
    let u := upper s
    if trueWords.contains u then pure (.truth true)
    else if falseWords.contains u || saysNotFound u then pure (.truth false)
    else if s == "NOT" || s == "AND" || s == "OR" then pure (.text s)
    else
      let v := p.bindings.getD s "FALSE"
      pure (.truth (!falseWords.contains v && !saysNotFound v))

/-- Carries out the negations. -/
def runNot : List Operand → Result (List Operand)
  | [] => pure []
  | .text "NOT" :: .truth b :: rest => return .truth (!b) :: (← runNot rest)
  | .text "NOT" :: .text _ :: _ => throw .broken
  | [.text "NOT"] => throw .outOfRange
  | x :: rest => return x :: (← runNot rest)

/-- Carries out conjunctions and disjunctions from the left. Each takes the operands that stand
beside it, as they were before; the right one is only asked for if the left one does not decide. -/
def runJunctions (last : Operand) (done : List Operand) : List Operand → Result (List Operand)
  | [] => pure done.reverse
  | [.text s] =>
    if s == "AND" || s == "OR" then
      match done with
      | [] => throw .outOfRange
      | _ :: done =>
        if (s == "AND") == last.holds then throw .outOfRange else pure (last :: done).reverse
    else pure (.text s :: done).reverse
  | .text s :: y :: rest =>
    if s == "AND" || s == "OR" then
      match done with
      | [] => throw .outOfRange
      | _ :: done =>
        let r := if (s == "AND") == last.holds then y else last
        runJunctions y (r :: done) rest
    else runJunctions (.text s) (.text s :: done) (y :: rest)
  | x :: rest => runJunctions x (x :: done) rest

def evaluate (p : Project) (t : FileTree) (args : List Operand) : Result Operand := do
  let args ← p.runUnary t args
  let args ← p.runBinary t (.text "") [] args
  let args ← args.mapM p.truthOf
  let args ← runNot args
  match ← runJunctions (.text "") [] args with
  | [] => throw .outOfRange
  | x :: _ => pure x

mutual

/-- An argument of a condition: substituted, or evaluated if it is a bracketed group. -/
def operand (p : Project) (t : FileTree) : Argument → Result Operand
  | .word s => return .text (← p.substitute s)
  | .group xs => do p.evaluate t (← p.operands t xs)

def operands (p : Project) (t : FileTree) : List Argument → Result (List Operand)
  | [] => pure []
  | x :: xs => do
    let a ← p.operand t x
    let as ← p.operands t xs
    pure (a :: as)

end

def condition (p : Project) (t : FileTree) (args : List Argument) : Result Operand := do
  p.evaluate t (← p.operands t args)

/-! ## Commands -/

def includeDirectories : List String → Job Project Unit
  | [] => pure ()
  | "AFTER" :: rest => add rest
  | "BEFORE" :: rest => add rest
  | args => add args
where
  /-- Adds the folders of the arguments; one after a mark for system folders is left out. -/
  add : List String → Job Project Unit
    | [] => pure ()
    | "SYSTEM" :: rest => add (rest.drop 1)
    | a :: rest => do
      if !a.isEmpty then
        modify fun p => { p with includeDirs := p.includeDirs ++ [Path.join p.folder a] }
      add rest
  termination_by args => args.length

def newLibrary (t : FileTree) (folder : String) : List String → Result (Option Target)
  | name :: first :: more =>
    let flags := ["STATIC", "SHARED", "MODULE", "UNKNOWN", "EXCLUDE_FROM_ALL"]
    match (first :: more).dropWhile flags.contains with
    | [] => pure none
    | a :: rest =>
      if ["IMPORTED", "ALIAS", "OBJECT", "INTERFACE"].contains a then pure none
      else pure (some (Target.make name (Target.sourceFiles t folder (a :: rest)) false))
  | _ => throw .broken

def newExecutable (t : FileTree) (folder : String) : List String → Result (Option Target)
  | name :: first :: more =>
    if first == "IMPORTED" || first == "ALIAS" then pure none
    else
      let flags := ["WIN32", "MACOSX_BUNDLE", "EXCLUDE_FROM_ALL"]
      match (first :: more).dropWhile flags.contains with
      | [] => throw .outOfRange
      | rest => pure (some (Target.make name (Target.sourceFiles t folder rest) true))
  | _ => throw .broken

def newTarget (t : FileTree) (isExecutable : Bool) (folder : String) (args : List String) :
    Result (Option Target) :=
  if isExecutable then newExecutable t folder args else newLibrary t folder args

def putTarget (p : Project) (isExecutable : Bool) (target : Target) : Project :=
  if isExecutable then { p with executables := p.executables.put target.name target }
  else { p with libraries := p.libraries.put target.name target }

def addTarget (t : FileTree) (isExecutable : Bool) (args : List String) : Job Project Unit := do
  let p ← get
  match ← Job.ofResult (newTarget t isExecutable p.folder args) with
  | none => pure ()
  | some target => set (p.putTarget isExecutable target)

def setProperties (targets : List String) : List String → Job Project Unit
  | [] => pure ()
  | [_] => throw .outOfRange
  | key :: value :: rest => do
    modify fun p => targets.foldl (fun p n => p.modifyTarget n fun t => t.setProperty key value) p
    setProperties targets rest

def setTargetProperties (args : List String) : Job Project Unit := do
  if args.length < 4 then throw .broken
  match args.idxOf? "PROPERTIES" with
  | none => throw .unreadableValue
  | some i =>
    let p ← get
    setProperties ((args.take i).filter fun n => (p.target? n).isSome) (args.drop (i + 1))

def linkLibraries : List String → Job Project Unit
  | [] => throw .broken
  | name :: libs => modify fun p =>
    p.modifyTarget name fun t => { t with links := t.links ++ libs.map .name }

def environmentName? (s : String) : Option String :=
  if startsWith "ENV\x7b".toList s.toList then
    some (String.ofList (between s.toList 4 (-1)))
  else none

def setVariable : List String → Job Project Unit
  | [] => throw .broken
  | name :: values => modify fun p =>
    let update (key : String) (t : Table String String) : Table String String :=
      if values.isEmpty then t.erase key
      else t.put key (";".intercalate
        (values.takeWhile fun v => v != "CACHE" && v != "PARENT_SCOPE"))
    match environmentName? name with
    | some key => { p with environment := update key p.environment }
    | none => { p with bindings := update name p.bindings }

def unsetVariable : List String → Job Project Unit
  | [] => throw .broken
  | name :: _ => do
    let p ← get
    match environmentName? name with
    | some key =>
      if !p.environment.contains key then throw .noKey
      set { p with environment := p.environment.erase key }
    | none =>
      if !p.bindings.contains name then throw .noKey
      set { p with bindings := p.bindings.erase name }

def findPackage : List String → Job Project Unit
  | [] => throw .outOfRange
  | "catkin" :: args =>
    let names := (args.dropWhile (· != "COMPONENTS")).takeWhile fun a =>
      a != "OPTIONAL_COMPONENTS" && a != "NO_POLICY_SCOPE"
    modify fun p => names.foldl (fun p n =>
      { p with bindings :=
          if p.packages.contains n then p.bindings.put (n ++ "_FOUND") "TRUE"
          else (p.bindings.put (n ++ "_FOUND") "FALSE").put (n ++ "-NOTFOUND") "TRUE" }) p
  | _ => pure ()

/-- What the arguments of a package description are about. -/
inductive Section where
  | includes
  | needs
  | systemNeeds
  | other

def Section.ofWord? : String → Option Section
  | "INCLUDE_DIRS" => some .includes
  | "CATKIN_DEPENDS" => some .needs
  | "DEPENDS" => some .systemNeeds
  | "LIBRARIES" => some .other
  | "CFG_EXTRAS" => some .other
  | _ => none

def describePackage : Option Section → List String → Job Project Unit
  | _, [] => pure ()
  | current, a :: rest => do
    match Section.ofWord? a with
    | some s => describePackage (some s) rest
    | none =>
      match current with
      | none => throw .noField
      | some .includes => modify fun p => { p with packageIncludes := p.packageIncludes ++ [a] }
      | some .needs => modify fun p => { p with dependencies := p.dependencies ++ [a] }
      | some .systemNeeds =>
        modify fun p => { p with systemDependencies := p.systemDependencies ++ [a] }
      | some .other => pure ()
      describePackage current rest

def fileCommand (t : FileTree) : List String → Job Project Unit
  | [] => throw .outOfRange
  | "GLOB" :: name :: a :: rest => modify fun p =>
    let patterns := if a == "RELATIVE" then rest.drop 1 else a :: rest
    let found := patterns.flatMap fun x => t.glob (p.folder ++ "/" ++ x)
    { p with bindings := p.bindings.put name (";".intercalate found) }
  | "GLOB" :: _ => throw .outOfRange
  | _ => pure ()

def command (t : FileTree) (name : String) (args : List String) : Job Project Unit := do
  let args ← args.mapM fun a => do Job.ofResult ((← get).substitute a)
  let first (f : String → Job Project Unit) : Job Project Unit :=
    match args with
    | [] => throw .outOfRange
    | a :: _ => if a.isEmpty then pure () else f a
  match name with
  | "project" => first fun a => modify fun p =>
      { p with name := some a, bindings := p.bindings.put "PROJECT_NAME" a }
  | "add_subdirectory" =>
    first fun a => modify fun p => { p with subfolders := p.subfolders ++ [a] }
  | "include_directories" => includeDirectories args
  | "add_library" => addTarget t false args
  | "add_executable" => addTarget t true args
  | "set" => setVariable args
  | "unset" => unsetVariable args
  | "find_package" => findPackage args
  | "catkin_package" => do
    describePackage none args
    modify fun p => { p with packageIncludes := p.packageIncludes.map (Path.join p.folder) }
  | "file" => fileCommand t args
  | "set_target_properties" => setTargetProperties args
  | "target_link_libraries" => linkLibraries args
  | _ => pure ()

def link? (p : Project) : LinkItem → Option LinkItem
  | .name n => (p.target? n).map fun d => .target d.name
  | .target _ => none

def link (p : Project) (t : Target) : Target := { t with links := t.links.filterMap p.link? }

def linkTargets (p : Project) : Project :=
  { p with libraries := p.libraries.map p.link, executables := p.executables.map p.link }

/-! ## Scripts -/

/-- The commands whose blocks depend on a condition. -/
def controlWords : List String := ["if", "else", "elseif", "foreach", "while"]

mutual

def runAll (t : FileTree) : List Statement → Job Project Unit
  | [] => pure ()
  | s :: ss => do
    run t s
    runAll t ss

def run (t : FileTree) : Statement → Job Project Unit
  | .mk line body => do
    let name := lower line.command
    let args := splitArguments (line.arguments.getD "")
    match body with
    | some (s :: ss) =>
      if controlWords.contains name then
        let holds ←
          if name == "else" then pure true
          else do
            let r ← Job.ofResult ((← get).condition t (args.map .word))
            pure r.holds
        if holds then
          run t s
          runAll t ss
      else command t name args
    | _ => command t name args

end

/-- Where a script stands, as variables. -/
def placeVariables (p : Project) (path folder : String) (top : Bool) : Table String String :=
  let v := if top then p.bindings.put "CMAKE_SOURCE_DIR" folder else p.bindings
  let below := String.ofList (folder.toList.drop p.sourceDir.length)
  v.putAll [("CMAKE_CURRENT_SOURCE_DIR", folder), ("CMAKE_CURRENT_LIST_FILE", path),
    ("CMAKE_CURRENT_LIST_DIR", folder), ("CMAKE_CURRENT_BINARY_DIR", p.binaryDir ++ below)]

/-- Works through the script of a subfolder on a project of its own, and takes over what it
builds. The environment is one for all. -/
def inSubfolder (sub : Job Project Unit) : Job Project Unit := do
  let p ← get
  let (r, q) := sub.exec (make p.sourceDir p.binaryDir p.packages p.environment p.bindings)
  set { p with environment := q.environment }
  Job.ofResult r
  modify fun p => { p with
    includeDirs := p.includeDirs ++ q.includeDirs
    libraries := p.libraries.merge q.libraries
    executables := p.executables.merge q.executables }

def parseFile (t : FileTree) : Nat → Bool → String → Job Project Unit
  | 0, _, _ => throw .tooDeep
  | n + 1, top, path => do
    let folder := if top then t.absolute (Path.parent path) else Path.parent path
    modify fun p => { p with folder, bindings := p.placeVariables path folder top }
    let statements ← Job.ofResult ((t.read path).bind Statement.ofScript)
    runAll t statements
    for sub in (← get).subfolders do
      let script := Path.join (Path.join folder sub) "CMakeLists.txt"
      if t.isFile script then inSubfolder (parseFile t n false script)
    if top then modify linkTargets

/-- How deep subfolders may nest. -/
def nesting : Nat := 400

def parse (t : FileTree) (path : String) : Job Project Unit := parseFile t nesting true path

end Project

end RosAudit.CMake
