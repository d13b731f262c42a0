import RosAudit.Text.Blank
import RosAudit.Text.Letter

/-!
# Reading numerals

`readInt?` and `readFloat?` accept a numeral between blanks, with a sign, digits of any script
and single underscores between digits. A floating-point numeral may have a fraction, an exponent,
or be one of the words for infinity and not-a-number. The value is the double nearest to the
decimal.
-/

namespace RosAudit.Decimal

open RosAudit.Text

def asciiDigit (c : Char) : Char :=
  match digitValue? c with
  | some d => Char.ofNat (48 + d)
  | none => c

def digitTail : List Char → List Char × List Char
  | [] => ([], [])
  | '_' :: cs =>
    match cs with
    | d :: _ => if d.isDigit then digitTail cs else ([], '_' :: cs)
    | [] => ([], ['_'])
  | c :: cs =>
    if c.isDigit then
      let (ds, rest) := digitTail cs
      (c :: ds, rest)
    else ([], c :: cs)

/-- A run of ASCII digits with single underscores between them, and what follows it; `none` if
the text does not start with a digit. -/
def digitRun : List Char → Option (List Char × List Char)
  | [] => none
  | c :: cs => if c.isDigit then some (digitTail (c :: cs)) else none

def natOfDigits (ds : List Char) : Nat := ds.foldl (fun n d => 10 * n + (d.toNat - 48)) 0

def readSign : List Char → Bool × List Char
  | '-' :: cs => (true, cs)
  | '+' :: cs => (false, cs)
  | cs => (false, cs)

def readInt? (s : String) : Option Int :=
  let (neg, cs) := readSign ((trimChars s.toList).map asciiDigit)
  match digitRun cs with
  | some (ds, []) => some (if neg then -(natOfDigits ds : Int) else natOfDigits ds)
  | _ => none

def nearest (m : Nat) (e : Int) : Float :=
  if m = 0 then 0.0
  else
    let width : Int := (Nat.toDigits 10 m).length
    if width + e > 320 then 1.0 / 0.0
    else if width + e < -340 then 0.0
    else if e < 0 then Float.ofScientific m true e.natAbs
    else Float.ofScientific m false e.natAbs

def readExponent (cs : List Char) : Option (Int × List Char) :=
  match cs with
  | c :: rest =>
    if c == 'e' || c == 'E' then
      let (neg, ds) := readSign rest
      match digitRun ds with
      | some (ds, rest') =>
        some (if neg then -(natOfDigits ds : Int) else natOfDigits ds, rest')
      | none => none
    else some (0, cs)
  | [] => some (0, [])

def readDecimal? (cs : List Char) : Option Float :=
  let (whole, rest) := (digitRun cs).getD ([], cs)
  let (frac, rest) := match rest with
    | '.' :: r => (digitRun r).getD ([], r)
    | r => ([], r)
  if whole.isEmpty && frac.isEmpty then none
  else
    match readExponent rest with
    | some (e, []) => some (nearest (natOfDigits (whole ++ frac)) (e - frac.length))
    | _ => none

def readFloat? (s : String) : Option Float :=
  let (neg, cs) := readSign ((trimChars s.toList).map asciiDigit)
  let word := String.ofList (cs.map Char.toLower)
  let magnitude :=
    if word == "inf" || word == "infinity" then some (1.0 / 0.0)
    else if word == "nan" then some (0.0 / 0.0)
    else readDecimal? cs
  magnitude.map fun x => if neg then -x else x

end RosAudit.Decimal
