import RosAudit.Value

/-!
# Writing JSON

`Json.render` writes a `Value` on one line, with a space after each comma and colon and every
character outside ASCII as an escape. Keys that are not texts are written as the text of their
constant. A value with no JSON form (a date, a set, a record inside a key) has no rendering.
-/

namespace RosAudit.Json

open RosAudit.Text

def unitEscape (n : Nat) : List Char := '\\' :: 'u' :: hexDigits 4 n

def escape (c : Char) : List Char :=
  let n := c.toNat
  if c == '"' then ['\\', '"']
  else if c == '\\' then ['\\', '\\']
  else if c == '\n' then ['\\', 'n']
  else if c == '\r' then ['\\', 'r']
  else if c == '\t' then ['\\', 't']
  else if n == 8 then ['\\', 'b']
  else if n == 12 then ['\\', 'f']
  else if 32 ≤ n && n < 127 then [c]
  else if n < 0x10000 then unitEscape n
  else unitEscape (0xd800 + (n - 0x10000) / 1024) ++ unitEscape (0xdc00 + (n - 0x10000) % 1024)

def quoted (s : String) : String := String.ofList ('"' :: s.toList.flatMap escape ++ ['"'])

def floatWord (x : Float) : String :=
  if x.isNaN then "NaN"
  else if x.isInf then (if x < 0.0 then "-Infinity" else "Infinity")
  else Decimal.floatText x

def keyText : Value → Option String
  | .text s => some s
  | .null => some "null"
  | .bool true => some "true"
  | .bool false => some "false"
  | .int n => some (toString n)
  | .float x => some (floatWord x)
  | _ => none

mutual

def render : Value → Option String
  | .null => some "null"
  | .bool true => some "true"
  | .bool false => some "false"
  | .int n => some (toString n)
  | .float x => some (floatWord x)
  | .text s => some (quoted s)
  | .list xs => (renderItems xs).map fun ss => "[" ++ ", ".intercalate ss ++ "]"
  | .record es => (renderEntries es).map fun ss => "\x7b" ++ ", ".intercalate ss ++ "\x7d"
  | .stamp _ => none
  | .member _ => none

def renderItems : List Value → Option (List String)
  | [] => some []
  | x :: xs => do
    let s ← render x
    let ss ← renderItems xs
    some (s :: ss)

def renderEntries : List (Value × Value) → Option (List String)
  | [] => some []
  | (k, v) :: es => do
    let k ← keyText k
    let s ← render v
    let ss ← renderEntries es
    some ((quoted k ++ ": " ++ s) :: ss)

end

end RosAudit.Json
