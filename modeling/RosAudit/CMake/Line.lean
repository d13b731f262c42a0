import RosAudit.Fault
import RosAudit.Text.Position

/-!
# Build script lines

A line of a build script has a command with its arguments in brackets and a comment, each of which
may be missing. `Line.parse` reads one; a statement may need several lines of the script, joined by
line feeds, before it is complete.

The arguments reach to the last closing bracket after which only a comment or the end of a line
follows. `splitArguments` cuts them into words, quoted texts and brackets.
-/

namespace RosAudit.CMake

open RosAudit.Text

/-! ## Arguments -/

def isBare (c : Char) : Bool :=
  !(c == '"' || c == '\x27' || c == '(' || c == ')' || isBlank c)

/-- The bare word at the front, and its length. A backslash takes the next character along, unless
that ends the line. -/
def bareWord : List Char → List Char
  | '\\' :: c :: cs => if c == '\n' then ['\\'] else '\\' :: c :: bareWord cs
  | c :: cs => if isBare c then c :: bareWord cs else []
  | [] => []

def quotedRest (q : Char) : List Char → Option (List Char)
  | [] => none
  | '\\' :: c :: cs => if c == '\n' then none else (quotedRest q cs).map fun r => '\\' :: c :: r
  | c :: cs =>
    if c == q then some [c] else if c == '\\' then none else (quotedRest q cs).map (c :: ·)

/-- The argument at the front: a bracket, a bare word or a quoted text. -/
def argumentAt? : List Char → Option (List Char)
  | [] => none
  | c :: cs =>
    if c == '(' || c == ')' then some [c]
    else if c == '"' || c == '\x27' then (quotedRest c cs).map (c :: ·)
    else
      let w := bareWord (c :: cs)
      if w.isEmpty then none else some w

def commentText (cs : List Char) : List Char := trimRight (cs.takeWhile (· != '\n'))

def scanWith (at? : Option Char → List Char → Option (List Char)) :
    Nat → Option Char → List Char → List (List Char)
  | _, _, [] => []
  | skip + 1, _, c :: cs => scanWith at? skip (some c) cs
  | 0, prev, c :: cs =>
    match at? prev (c :: cs) with
    | some found => found :: scanWith at? (found.length - 1) (some c) cs
    | none => scanWith at? 0 (some c) cs

def splitArguments (s : String) : List String :=
  (scanWith (fun _ cs => argumentAt? cs) 0 none s.toList).map String.ofList

def splitChunks (cs : List Char) : List (List Char) :=
  scanWith (fun prev cs =>
    if cs.head? == some '#' && prev != some '\\' then some (commentText cs) else argumentAt? cs)
    0 none cs

/-! ## Lines -/

/-- The parts of a line; a line without a command has an empty one. -/
structure Line where
  command : String := ""
  arguments : Option String := none
  comment : Option String := none
  deriving DecidableEq

namespace Line

/-- What may follow a command: nothing, a comment, or the end of a line. -/
def tail? (cs : List Char) : Option (Option (List Char)) :=
  let rest := cs.dropWhile isBlank
  match rest with
  | [] => some none
  | '#' :: _ => some (some (commentText rest))
  | _ => if (cs.takeWhile isBlank).contains '\n' then some none else none

/-- The arguments before the last closing bracket that may end a command. `before` are the
characters up to here, reversed. -/
def closing? (before : List Char) : List Char → Option (List Char × Option (List Char))
  | [] => none
  | c :: cs =>
    match closing? (c :: before) cs with
    | some found => some found
    | none =>
      if c == ')' && !before.isEmpty then
        (tail? cs).map fun comment => (trimRight before.reverse, comment)
      else none

def command? (cs : List Char) : Option (List Char × Option (List Char) × Option (List Char)) :=
  let name := cs.takeWhile isWord
  match (cs.dropWhile isWord).dropWhile isBlank with
  | '(' :: rest =>
    if name.isEmpty then none
    else
      let inner := rest.dropWhile isBlank
      match closing? [] inner, inner with
      | some (args, comment), _ => some (name, some args, comment)
      | none, ')' :: after => (tail? after).map fun comment => (name, none, comment)
      | none, _ => none
  | _ => none

/-- Gathers arguments that go over several lines: the comments between them are moved behind. -/
def gather (args : List Char) (comment : Option (List Char)) : String × Option String :=
  let chunks := splitChunks args
  let isComment (c : List Char) : Bool := c.head? == some '#'
  let comments := chunks.filter isComment ++ comment.toList
  (" ".intercalate ((chunks.filter fun c => !isComment c).map String.ofList),
    if comments.isEmpty then none else some ("\n".intercalate (comments.map String.ofList)))

def parse (s : String) : Result Line :=
  let cs := s.toList
  let lead := cs.takeWhile isBlank
  let body := cs.dropWhile isBlank
  match command? body with
  | some (name, some args, comment) =>
    if args.contains '\n' then
      let (args, comment) := gather args comment
      pure { command := String.ofList name, arguments := some args, comment }
    else
      pure { command := String.ofList name, arguments := some (String.ofList args)
             comment := comment.map String.ofList }
  | some (name, none, comment) =>
    pure { command := String.ofList name, comment := comment.map String.ofList }
  | none =>
    match tail? body with
    | some comment => pure { comment := comment.map String.ofList }
    | none => if lead.contains '\n' then pure {} else throw (.incompleteStatement s)

end Line

/-! ## Brackets -/

def matchEnd (text : List Char) (left right : Char) : Nat → Int → Nat → Result Int
  | _, i, 0 => pure i
  | 0, _, _ => throw .outOfRange
  | fuel + 1, i, depth + 1 =>
    match at? text i with
    | none => throw .outOfRange
    | some c =>
      if c == left then matchEnd text left right fuel (i + 1) (depth + 2)
      else if c == right then matchEnd text left right fuel (i + 1) depth
      else matchEnd text left right fuel (i + 1) (depth + 1)

def readUntilMatch (text : List Char) (brackets : List Char) (start : Int) :
    Result (List Char × Int) := do
  match brackets with
  | left :: right :: _ =>
    match at? text start with
    | none => throw .outOfRange
    | some c =>
      if c != left then throw .broken
      let i ← matchEnd text left right (2 * text.length + 2) (start + 1) 1
      pure (between text (start + 1) (i - 1), i)
  | _ => throw .outOfRange

/-- Arguments with their brackets as nested lists. -/
inductive Argument where
  | word (s : String)
  | group (xs : List Argument)
  deriving Inhabited

def unwrap : Nat → List Argument → List Argument
  | n + 1, [.group xs] => unwrap n xs
  | _, xs => xs

def splitNested : Nat → List Char → Result (List Argument)
  | 0, _ => throw .tooDeep
  | n + 1, text => do
    let words (cs : List Char) : List Argument :=
      (splitArguments (String.ofList cs)).map .word
    let before := text.takeWhile (· != '(')
    if before.length == text.length then pure (words text)
    else
      let (inner, k) ← readUntilMatch text ['(', ')'] before.length
      let group ← splitNested n inner
      let rest ← splitNested n (text.drop (k.toNat + 1))
      let args := words before ++ .group group :: rest
      pure (unwrap text.length args)

end RosAudit.CMake
