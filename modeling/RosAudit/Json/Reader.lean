import RosAudit.Value

/-!
# Reading JSON

`Json.parse` reads a JSON document into a `Value`. A numeral without fraction and exponent is an
integer, any other a double, and the words `NaN` and `Infinity` are doubles too. Of two entries
with the same key the later value stays.
-/

namespace RosAudit.Json

open RosAudit.Decimal

def isSpace (c : Char) : Bool := c == ' ' || c == '\t' || c == '\n' || c == '\r'

def skipSpace (cs : List Char) : List Char := cs.dropWhile isSpace

def hexValue? (c : Char) : Option Nat :=
  if c.isDigit then some (c.toNat - 48)
  else if 'a' ≤ c && c ≤ 'f' then some (c.toNat - 87)
  else if 'A' ≤ c && c ≤ 'F' then some (c.toNat - 55)
  else none

def readUnit : List Char → Option (Nat × List Char)
  | a :: b :: c :: d :: rest => do
    let a ← hexValue? a
    let b ← hexValue? b
    let c ← hexValue? c
    let d ← hexValue? d
    some (4096 * a + 256 * b + 16 * c + d, rest)
  | _ => none

def readEscapedUnit (cs : List Char) : Option (Char × List Char) := do
  let (hi, rest) ← readUnit cs
  if 0xd800 ≤ hi && hi < 0xdc00 then
    match rest with
    | '\\' :: 'u' :: rest' =>
      let (lo, after) ← readUnit rest'
      if 0xdc00 ≤ lo && lo < 0xe000 then
        some (Char.ofNat (0x10000 + (hi - 0xd800) * 1024 + (lo - 0xdc00)), after)
      else some (Char.ofNat 0xfffd, rest)
    | _ => some (Char.ofNat 0xfffd, rest)
  else if 0xdc00 ≤ hi && hi < 0xe000 then some (Char.ofNat 0xfffd, rest)
  else some (Char.ofNat hi, rest)

def readText : Nat → List Char → List Char → Option (String × List Char)
  | 0, _, _ => none
  | _ + 1, _, [] => none
  | _ + 1, acc, '"' :: cs => some (String.ofList acc.reverse, cs)
  | fuel + 1, acc, '\\' :: c :: cs =>
    match c with
    | '"' => readText fuel ('"' :: acc) cs
    | '\\' => readText fuel ('\\' :: acc) cs
    | '/' => readText fuel ('/' :: acc) cs
    | 'b' => readText fuel ('\x08' :: acc) cs
    | 'f' => readText fuel ('\x0c' :: acc) cs
    | 'n' => readText fuel ('\n' :: acc) cs
    | 'r' => readText fuel ('\r' :: acc) cs
    | 't' => readText fuel ('\t' :: acc) cs
    | 'u' =>
      match readEscapedUnit cs with
      | some (d, rest) => readText fuel (d :: acc) rest
      | none => none
    | _ => none
  | fuel + 1, acc, c :: cs => if c.toNat < 32 then none else readText fuel (c :: acc) cs

def readMagnitude (neg : Bool) (cs : List Char) : Option (Value × List Char) :=
  let whole := cs.takeWhile Char.isDigit
  let rest := cs.dropWhile Char.isDigit
  let whole' := if whole.head? == some '0' then ['0'] else whole
  if whole.isEmpty then none
  else
    let rest := if whole'.length < whole.length then whole.drop 1 ++ rest else rest
    let (frac, rest) := match rest with
      | '.' :: r => if (r.takeWhile Char.isDigit).isEmpty then ([], rest)
        else (r.takeWhile Char.isDigit, r.dropWhile Char.isDigit)
      | _ => ([], rest)
    let (exp, rest) := match readExponent rest with
      | some (e, r) => if r.length < rest.length then (some e, r) else (none, rest)
      | none => (none, rest)
    if frac.isEmpty && exp.isNone then
      let n : Int := natOfDigits whole'
      some (.int (if neg then -n else n), rest)
    else
      let x := nearest (natOfDigits (whole' ++ frac)) (exp.getD 0 - frac.length)
      some (.float (if neg then -x else x), rest)

mutual

def readValue : Nat → List Char → Option (Value × List Char)
  | 0, _ => none
  | fuel + 1, cs =>
    match skipSpace cs with
    | 'n' :: 'u' :: 'l' :: 'l' :: rest => some (.null, rest)
    | 't' :: 'r' :: 'u' :: 'e' :: rest => some (.bool true, rest)
    | 'f' :: 'a' :: 'l' :: 's' :: 'e' :: rest => some (.bool false, rest)
    | 'N' :: 'a' :: 'N' :: rest => some (.float (0.0 / 0.0), rest)
    | 'I' :: 'n' :: 'f' :: 'i' :: 'n' :: 'i' :: 't' :: 'y' :: rest =>
      some (.float (1.0 / 0.0), rest)
    | '-' :: 'I' :: 'n' :: 'f' :: 'i' :: 'n' :: 'i' :: 't' :: 'y' :: rest =>
      some (.float (-1.0 / 0.0), rest)
    | '"' :: rest => (readText (rest.length + 1) [] rest).map fun (s, r) => (.text s, r)
    | '[' :: rest =>
      match skipSpace rest with
      | ']' :: rest => some (.list [], rest)
      | rest => (readItems fuel rest).map fun (xs, r) => (.list xs, r)
    | '\x7b' :: rest =>
      match skipSpace rest with
      | '\x7d' :: rest => some (.record [], rest)
      | rest => (readEntries fuel rest).map fun (es, r) => (.recordOf es, r)
    | '-' :: rest => readMagnitude true rest
    | rest => readMagnitude false rest

def readItems : Nat → List Char → Option (List Value × List Char)
  | 0, _ => none
  | fuel + 1, cs => do
    let (v, rest) ← readValue fuel cs
    match skipSpace rest with
    | ',' :: rest =>
      let (vs, rest) ← readItems fuel rest
      some (v :: vs, rest)
    | ']' :: rest => some ([v], rest)
    | _ => none

def readEntries : Nat → List Char → Option (List (Value × Value) × List Char)
  | 0, _ => none
  | fuel + 1, cs =>
    match skipSpace cs with
    | '"' :: rest => do
      let (k, rest) ← readText (rest.length + 1) [] rest
      match skipSpace rest with
      | ':' :: rest =>
        let (v, rest) ← readValue fuel rest
        match skipSpace rest with
        | ',' :: rest =>
          let (es, rest) ← readEntries fuel rest
          some ((.text k, v) :: es, rest)
        | '\x7d' :: rest => some ([(.text k, v)], rest)
        | _ => none
      | _ => none
    | _ => none

end

def parse (document : String) : Option Value :=
  let cs := document.toList
  match readValue (cs.length + 1) cs with
  | some (v, rest) => if (skipSpace rest).isEmpty then some v else none
  | none => none

end RosAudit.Json
