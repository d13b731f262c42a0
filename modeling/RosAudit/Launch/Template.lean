import RosAudit.Fault

/-!
# Substitution templates

Attribute values of launch files may hold commands such as `$(find pkg)` or `$(arg name)`.
`Template.scan` cuts a value into literal text and commands; `substitute` carries the commands
out in order. A command whose answer is not known yet (an argument without a value, a variable
that is not set) stays in the outcome, which is then a `Template` with open commands;
`resolveLate` takes it up again in a richer context.

A command may not hold another one: a `$` inside brackets is refused before anything is carried
out. A value that is one `$(eval …)` from end to end is kept open as it is.
-/

namespace RosAudit

open RosAudit.Text

/-- A part of a template: literal text, or the words of a command. -/
inductive Piece where
  | text (s : String)
  | command (words : List String)
  deriving DecidableEq, Repr

structure Template where
  pieces : List Piece
  deriving DecidableEq, Repr

namespace Piece

def render : Piece → String
  | text s => s
  | command ws => "$(" ++ " ".intercalate ws ++ ")"

def text? : Piece → Option String
  | text s => some s
  | command _ => none

end Piece

namespace Template

def render (t : Template) : String := "".intercalate (t.pieces.map Piece.render)

def closedText? (t : Template) : Option String :=
  (t.pieces.mapM Piece.text?).map "".intercalate

def isInner (c : Char) : Bool := c != '$' && c != '(' && c != ')'

/-- The inside of a command that starts here, and the rest after its bracket. -/
def commandAt? : List Char → Option (List Char × List Char)
  | '$' :: '(' :: cs =>
    match cs.takeWhile isInner, cs.dropWhile isInner with
    | c :: body, ')' :: rest => some (c :: body, rest)
    | _, _ => none
  | _ => none

def nestedAt : List Char → Bool
  | '$' :: '(' :: cs =>
    match cs.dropWhile isInner with
    | '$' :: rest => (rest.dropWhile isInner).head? == some ')'
    | _ => false
  | _ => false

def hasNested : List Char → Bool
  | [] => false
  | c :: cs => nestedAt (c :: cs) || hasNested cs

def textPiece (cs : List Char) : List Piece :=
  if cs.isEmpty then [] else [.text (String.ofList cs)]

/-- Cuts a value into pieces. `skip` counts the characters of a command that were taken already,
and `lit` is the literal text under way, reversed. -/
def scanFrom (skip : Nat) (lit : List Char) : List Char → List Piece
  | [] => textPiece lit.reverse
  | c :: cs =>
    match skip with
    | k + 1 => scanFrom k lit cs
    | 0 =>
      match commandAt? (c :: cs) with
      | some (body, _) =>
        textPiece lit.reverse ++
          .command (words (String.ofList body)) :: scanFrom (body.length + 2) [] cs
      | none => scanFrom 0 (c :: lit) cs

def scan (value : String) : List Piece := scanFrom 0 [] value.toList

def wholeEval? (value : String) : Option String :=
  let cs := value.toList
  let lead := "$(eval ".toList
  if lead.isPrefixOf cs && cs.getLast? == some ')' then
    some (String.ofList ((cs.drop lead.length).dropLast))
  else none

end Template

/-! ## Outcomes -/

/-- The kinds of value that an attribute can have. -/
inductive Kind where
  | text
  | bool
  | int
  | float
  deriving DecidableEq, Repr

/-- The outcome of a substitution: a value, or a template with open commands. -/
inductive Subst where
  | text (s : String)
  | bool (b : Bool)
  | int (n : Int)
  | float (x : Float)
  | pending (t : Template)
  deriving DecidableEq

namespace Subst

def isFalsy : Subst → Bool
  | text s => s.isEmpty
  | bool b => !b
  | int n => n == 0
  | float x => x == 0.0
  | pending _ => false

def isPending : Subst → Bool
  | pending _ => true
  | _ => false

end Subst

def Kind.convert (k : Kind) (s : String) : Result Subst :=
  match k with
  | .text => pure (.text s)
  | .bool =>
    if s == "1" || lower s == "true" then pure (.bool true)
    else if s == "0" || lower s == "false" then pure (.bool false)
    else throw (.substitution (.notBoolean s))
  | .int =>
    match Decimal.readInt? s with
    | some n => pure (.int n)
    | none => throw (.substitution (.notInteger s))
  | .float =>
    match Decimal.readFloat? s with
    | some x => pure (.float x)
    | none => throw (.substitution (.notNumber s))

def Kind.close (k : Kind) (t : Template) : Result Subst :=
  match t.closedText? with
  | some s => k.convert s
  | none => pure (.pending t)

/-! ## Carrying commands out -/

/-- The value of a launch argument: declared only, known, or known up to open commands. -/
inductive Argument where
  | unset
  | text (s : String)
  | pending (t : Template)
  deriving DecidableEq, Repr

/-- What anonymous names are made from: the machine, the process and a number. -/
structure Origin where
  host : String := "localhost"
  process : Nat := 0
  number : Nat := 0
  deriving DecidableEq, Repr

def Origin.anonymous (o : Origin) (name : String) : String :=
  let s := name ++ "_" ++ o.host ++ "_" ++ toString o.process ++ "_" ++ toString o.number
  String.ofList (s.toList.map fun c => if c == '.' || c == '-' || c == ':' then '_' else c)

def insertText (s : String) (ss : List String) : List String :=
  if ss.contains s then ss else ss ++ [s]

/-- What commands are answered from, and what they leave behind: the packages and variables
that were asked for, and the anonymous names given out. Packages are known by name, with their
path where it is known. -/
structure SubstContext where
  arguments : Table String Argument := Table.empty
  environment : Table String String := Table.empty
  packages : Table String (Option String) := Table.empty
  anonymous : Table String String := Table.empty
  folder : Option String := none
  packageUses : List String := []
  environmentUses : List String := []
  origin : Origin := {}
  deriving DecidableEq, Inhabited

/-- The answer to a command: its text, or the words of what stays open. -/
inductive Answer where
  | known (s : String)
  | still (words : List String)
  deriving DecidableEq, Repr

namespace SubstContext

def find : List String → Job SubstContext Answer
  | [_, name] => do
    modify fun c => { c with packageUses := insertText name c.packageUses }
    match (← get).packages.get? name with
    | none => throw (.substitution (.unknownPackage name))
    | some none => pure (.still ["find", name])
    | some (some path) => pure (if path.isEmpty then .still ["find", name] else .known path)
  | _ => throw (.substitution (.oneArgument "find"))

def arg : List String → Job SubstContext Answer
  | [_, name] => do
    match (← get).arguments.get? name with
    | none => throw (.substitution (.undeclaredArg name))
    | some (.text s) => pure (.known s)
    | some _ => pure (.still ["arg", name])
  | _ => throw (.substitution (.oneArgument "arg"))

/-- `$(anon name)`: one anonymous name for each name. -/
def anon : List String → Job SubstContext Answer
  | [_, name] => do
    let c ← get
    match c.anonymous.get? name with
    | some s => pure (.known s)
    | none =>
      let s := c.origin.anonymous name
      set { c with anonymous := c.anonymous.put name s }
      pure (.known s)
  | _ => throw (.substitution (.oneArgument "anon"))

/-- A variable of the environment, or the command itself if it is not set. -/
def environmentValue (ws : List String) (name : String) : Job SubstContext Answer := do
  modify fun c => { c with environmentUses := insertText name c.environmentUses }
  match (← get).environment.get? name with
  | some s => pure (.known s)
  | none => pure (.still ws)

def answer (ws : List String) : Job SubstContext Answer :=
  match ws with
  | [] => throw .outOfRange
  | "find" :: _ => find ws
  | "arg" :: _ => arg ws
  | "anon" :: _ => anon ws
  | "env" :: rest =>
    match rest with
    | [name] => environmentValue ws name
    | _ => throw (.substitution (.oneArgument "env"))
  | "optenv" :: rest =>
    match rest with
    | [name] => environmentValue ws name
    | [name, _] => environmentValue ws name
    | _ => throw (.substitution (.oneOrTwoArguments "optenv"))
  | "dirname" :: rest =>
    if rest.isEmpty then do
      match (← get).folder with
      | some d => pure (.known d)
      | none => pure (.still ["dirname"])
    else throw (.substitution (.noArguments "dirname"))
  | "eval" :: _ => throw (.substitution .lateEval)
  | _ => throw .noField

def commands : List String := ["find", "env", "optenv", "dirname", "anon", "arg", "eval"]

def answerPiece : Piece → Job SubstContext Piece
  | .text s => pure (.text s)
  | .command [] => throw .outOfRange
  | .command (w :: ws) => do
    if !commands.contains w then throw (.substitution (.invalidCommand w))
    match ← answer (w :: ws) with
    | .known s => pure (.text s)
    | .still ws => pure (.command ws)

def substitute (value : String) (k : Kind) : Job SubstContext Subst := do
  match Template.wholeEval? value with
  | some body => pure (.pending ⟨[.command ["eval", body]]⟩)
  | none =>
    if Template.hasNested value.toList then throw (.substitution .nested)
    let pieces ← (Template.scan value).mapM answerPiece
    Job.ofResult (k.close ⟨pieces⟩)

/-- Carries the open commands of a template out again: its text, or the words of the first that
stays open. -/
def complete : List Piece → Job SubstContext (Except (List String) (List String))
  | [] => pure (.ok [])
  | .text s :: rest => do
    match ← complete rest with
    | .ok ss => pure (.ok (s :: ss))
    | .error ws => pure (.error ws)
  | .command ws :: rest => do
    match ← answer ws with
    | .still ws => pure (.error ws)
    | .known s =>
      match ← complete rest with
      | .ok ss => pure (.ok (s :: ss))
      | .error ws => pure (.error ws)

def resolveLate (v : Subst) (k : Kind) (strict : Bool) : Job SubstContext (Option Subst) := do
  match v with
  | .pending t =>
    match ← complete t.pieces with
    | .ok ss => return some (← Job.ofResult (k.convert ("".intercalate ss)))
    | .error ws => if strict then throw (.substitution (.unresolved ws)) else pure none
  | v => pure (some v)

end SubstContext

end RosAudit
