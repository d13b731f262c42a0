import RosAudit.Fault

/-!
# Numbers

Arithmetic on data: integers stay integers under addition, subtraction, multiplication and
remainder, and any double makes the outcome a double. Division always gives a double. A truth
value counts as one or zero.
-/

namespace RosAudit.Number

def integer? : Value → Option Int
  | .int n => some n
  | .bool b => some (if b then 1 else 0)
  | _ => none

def double? : Value → Option Float
  | .float x => some x
  | v => (integer? v).map Float.ofInt

def sizeMod (x y : Float) : Float :=
  let (m, e) := Decimal.decode x.toBits
  let (n, f) := Decimal.decode y.toBits
  let low := min e f
  let r := (m * Nat.pow 2 (e - low).toNat) % (n * Nat.pow 2 (f - low).toNat)
  Float.scaleB (Float.ofNat r) low

def floatMod (x y : Float) : Float :=
  if x.isNaN || x.isInf || y.isNaN then 0.0 / 0.0
  else
    let r := if y.isInf then x.abs else sizeMod x.abs y.abs
    let r := if x < 0.0 then -r else r
    if r == 0.0 then (if y < 0.0 then -0.0 else 0.0)
    else if (y < 0.0) != (r < 0.0) then r + y
    else r

/-- The double that is closest to a quotient of integers. Enough binary places are computed, and a
remainder is noted in the last one. -/
def quotient (a b : Int) : Float :=
  let n := a.natAbs
  let d := b.natAbs
  let places := 66 + d.log2 - n.log2
  let q := n * Nat.pow 2 places / d
  let q := if n * Nat.pow 2 places % d = 0 then q else 2 * (q / 2) + 1
  let x := Float.scaleB (Float.ofNat q) (-places)
  if (a < 0) != (b < 0) then -x else x

def arithmetic (token : String) (a b : Value) : Result Value :=
  match token, integer? a, integer? b with
  | "+", some m, some n => pure (.int (m + n))
  | "-", some m, some n => pure (.int (m - n))
  | "*", some m, some n => pure (.int (m * n))
  | "/", some m, some n => if n = 0 then throw .divisionByZero else pure (.float (quotient m n))
  | "%", some m, some n => if n = 0 then throw .divisionByZero else pure (.int (Int.fmod m n))
  | _, _, _ =>
    match double? a, double? b with
    | some x, some y =>
      match token with
      | "+" => pure (.float (x + y))
      | "-" => pure (.float (x - y))
      | "*" => pure (.float (x * y))
      | "/" => if y == 0.0 then throw .divisionByZero else pure (.float (x / y))
      | _ => if y == 0.0 then throw .divisionByZero else pure (.float (floatMod x y))
    | _, _ => throw .wrongKind

def add (a b : Value) : Result Value := arithmetic "+" a b

def sub (a b : Value) : Result Value := arithmetic "-" a b

def div (a b : Value) : Result Value := arithmetic "/" a b

def sum (xs : List Value) : Result Value := xs.foldlM add (.int 0)

def mean (xs : List Value) : Result Value :=
  if xs.isEmpty then pure (.int 0) else do div (← sum xs) (.nat xs.length)

def floatMean (xs : List Value) : Result Value :=
  if xs.isEmpty then pure (.float 0.0) else do div (← sum xs) (.float (Float.ofNat xs.length))

def toDouble (v : Value) : Result Float :=
  match v with
  | .text s =>
    match Decimal.readFloat? s with
    | some x => pure x
    | none => throw .unreadableValue
  | v =>
    match double? v with
    | some x => pure x
    | none => throw .wrongKind

end RosAudit.Number
