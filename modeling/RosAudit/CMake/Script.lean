import RosAudit.CMake.Line

/-!
# Build scripts

`Statement.ofScript` reads a script into its statements. A statement that opens a block has the
statements of the block inside it; the statement that ends the block stands after it.

`LineSource` gives out the lines of a script one at a time. A line is given out again until it is
accepted, and can be joined with the next one while it is the current line.
-/

namespace RosAudit.CMake

open RosAudit.Text

/-- The lines of a script that are still to be read. After the last line comes one mark for the
end, which is given out like a line. -/
structure LineSource where
  rest : List String
  ended : Bool := false
  allDone : Bool := false
  gotLine : Bool := false
  alreadySeen : Bool := false

namespace LineSource

def ofText (s : String) : LineSource := { rest := lines s }

def next : Job LineSource (Option String) := do
  let s ← get
  if s.ended then
    set { s with allDone := true }
    throw .endOfInput
  else
    set { s with alreadySeen := s.gotLine, gotLine := true }
    pure s.rest.head?

def accept : Job LineSource Unit := do
  let s ← get
  if !s.gotLine then throw .broken
  match s.rest with
  | [] => set { s with ended := true, gotLine := false }
  | _ :: rest => set { s with rest, gotLine := false }

def merge : Job LineSource String := do
  let s ← get
  if !s.gotLine then throw .broken
  match s.rest with
  | a :: b :: rest =>
    let joined := a ++ "\n" ++ b
    set { s with rest := joined :: rest }
    pure joined
  | _ => throw .inputExhausted

end LineSource

/-- A statement, with the block that it opens. -/
inductive Statement where
  | mk (line : Line) (body : Option (List Statement))

namespace Statement

def line : Statement → Line
  | mk l _ => l

def body : Statement → Option (List Statement)
  | mk _ b => b

def blockEnds : List (String × List String) :=
  [("foreach", ["endforeach"]), ("function", ["endfunction"]),
   ("if", ["elseif", "else", "endif"]), ("elseif", ["elseif", "else", "endif"]),
   ("else", ["endif"]), ("macro", ["endmacro"]), ("while", ["endwhile"])]

def foldChar (c : Char) : Char :=
  match c.toNat with
  | 0x17f => 's'
  | 0x130 => 'i'
  | 0x131 => 'i'
  | _ => lowerChar c

def fold (s : String) : List Char := s.toList.map foldChar

/-- What ends the block that a command opens, if it opens one. A command that only begins like
one that does is not understood. -/
def endsOf (command : String) : Result (Option (List String)) :=
  if blockEnds.any fun e => e.1.toList.isPrefixOf (fold command) then
    match blockEnds.lookup (lower command) with
    | some ends => pure (some ends)
    | none => throw .noKey
  else pure none

def complete : Nat → Option String → Job LineSource (Option Line)
  | _, none => pure none
  | 0, some _ => throw .tooDeep
  | n + 1, some s =>
    match Line.parse s with
    | .ok l => pure (some l)
    | .error _ => do
      match ← Job.attempt LineSource.merge with
      | .ok joined => complete n (some joined)
      | .error .inputExhausted => throw (.incompleteStatement s)
      | .error f => throw f

mutual

def block : Nat → Option (List String) → Job LineSource (List Statement)
  | 0, _ => throw .tooDeep
  | n + 1, ends => do
    match ← Job.attempt LineSource.next with
    | .error .endOfInput => throw .unclosedBlock
    | .error f => throw f
    | .ok text =>
      match ← complete ((← get).rest.length + 1) text with
      | none =>
        if ends.isNone then pure []
        else do
          LineSource.accept
          throw .unclosedBlock
      | some l =>
        let isEnd := (ends.getD []).any fun e => e.toList == fold l.command
        if isEnd && !(← get).alreadySeen then pure []
        else
          LineSource.accept
          let body ← opened n l.command
          let more ← block n ends
          pure (.mk l body :: more)

def opened : Nat → String → Job LineSource (Option (List Statement))
  | 0, _ => throw .tooDeep
  | n + 1, command => do
    match ← Job.ofResult (endsOf command) with
    | none => pure none
    | some ends => return some (← block n (some ends))

end

def ofScript (s : String) : Result (List Statement) :=
  let source := LineSource.ofText s
  ((block (2 * source.rest.length + 4) none).exec source).1

end Statement

end RosAudit.CMake
