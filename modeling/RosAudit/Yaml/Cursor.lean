import RosAudit.Fault

/-!
# Positions in a data document

A `Cursor` is the rest of a document with the line and the column at which it starts. A line ends
at a line feed, a carriage return, both together, or one of three Unicode separators; the end of
the document reads as the null character, which no document holds.
-/

namespace RosAudit.Yaml

/-- The rest of a document and where it starts. -/
structure Cursor where
  rest : List Char
  index : Nat := 0
  line : Nat := 0
  column : Nat := 0
  deriving Inhabited

def endMark : Char := Char.ofNat 0

def isBreak (c : Char) : Bool :=
  c == '\n' || c == '\r' || c.toNat == 0x85 || c.toNat == 0x2028 || c.toNat == 0x2029

def isLineEnd (c : Char) : Bool := c == endMark || isBreak c

def isEndOrSpace (c : Char) : Bool := c == ' ' || isLineEnd c

def isGap (c : Char) : Bool := c == '\t' || isEndOrSpace c

def isAllowed (c : Char) : Bool :=
  let n := c.toNat
  n == 9 || n == 10 || n == 13 || (0x20 ≤ n && n ≤ 0x7e) || n == 0x85 ||
    (0xa0 ≤ n && n ≤ 0xd7ff) || (0xe000 ≤ n && n ≤ 0xfffd) || 0x10000 ≤ n

def isNameChar (c : Char) : Bool := c.isAlphanum || c == '-' || c == '_'

namespace Cursor

def peek (c : Cursor) (n : Nat := 0) : Char := c.rest.getD n endMark

def step (c : Cursor) : Cursor :=
  match c.rest with
  | [] => c
  | x :: xs =>
    if isBreak x && !(x == '\r' && xs.head? == some '\n') then
      { rest := xs, index := c.index + 1, line := c.line + 1, column := 0 }
    else
      { c with rest := xs, index := c.index + 1
               column := if x.toNat == 0xfeff then c.column else c.column + 1 }

def skip (c : Cursor) : Nat → Cursor
  | 0 => c
  | n + 1 => c.step.skip n

def skipWhile (c : Cursor) (test : Char → Bool) : Cursor := c.skip (c.rest.takeWhile test).length

def run (c : Cursor) (test : Char → Bool) : List Char × Cursor :=
  let cs := c.rest.takeWhile test
  (cs, c.skip cs.length)

def lineBreak (c : Cursor) : List Char × Cursor :=
  match c.rest with
  | '\r' :: '\n' :: _ => (['\n'], c.skip 2)
  | x :: _ =>
    if isBreak x then
      (if x.toNat == 0x2028 || x.toNat == 0x2029 then [x] else ['\n'], c.step)
    else ([], c)
  | [] => ([], c)

def atMarker (c : Cursor) : Bool :=
  let lead := c.rest.take 3
  (lead == ['-', '-', '-'] || lead == ['.', '.', '.']) && isGap (c.peek 3)

end Cursor

def refuse {α : Type} : Result α := throw (.yaml .scanning)

end RosAudit.Yaml
