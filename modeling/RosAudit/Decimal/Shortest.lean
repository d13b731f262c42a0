/-!
# Writing doubles

`shortest` finds the fewest decimal digits that read back as a given double, and of those the
ones nearest to it. It works on the double as an exact fraction: for one, two, … digits it looks
at the two neighbours of the value on that decimal grid, and takes the first grid on which one of
them lies in the interval of reals that round to the double.

`floatText` lays the digits out: positionally while the decimal point falls within sixteen
places, with an exponent of at least two digits beyond. `fixedTwo` writes two decimal places, a
half going to the even neighbour.
-/

namespace RosAudit.Decimal

def decode (bits : UInt64) : Nat × Int :=
  let n := bits.toNat
  let biased : Nat := n / Nat.pow 2 52 % Nat.pow 2 11
  let frac : Nat := n % Nat.pow 2 52
  if biased = 0 then (frac, -1074) else (frac + Nat.pow 2 52, (biased : Int) - 1075)

def fraction (m : Nat) (e : Int) : Nat × Nat :=
  if e < 0 then (m, Nat.pow 2 e.natAbs) else (m * Nat.pow 2 e.natAbs, 1)

def pointPlace (num den : Nat) : Int :=
  let d : Int := (Nat.toDigits 10 num).length - (Nat.toDigits 10 den).length
  let power := Nat.pow 10 d.natAbs
  let atLeast := if d < 0 then num * power ≥ den else num ≥ den * power
  if atLeast then d + 1 else d

def searchGrid (num lo hi den : Nat) (closed : Bool) (place : Int) : Nat → Nat → Nat × Int
  | 0, n => (num, place - n)
  | tries + 1, n =>
    let step := place - n
    let (up, down) := if step < 0 then (Nat.pow 10 step.natAbs, 1) else (1, Nat.pow 10 step.natAbs)
    let x := num * up / (den * down)
    let inside (c : Nat) : Bool :=
      let v := c * den * down
      if closed then lo * up ≤ v && v ≤ hi * up else lo * up < v && v < hi * up
    let below := num * up - x * den * down
    let above := (x + 1) * den * down - num * up
    match inside x && x != 0, inside (x + 1) with
    | true, true =>
      if below < above then (x, step)
      else if above < below then (x + 1, step)
      else if x % 2 = 0 then (x, step) else (x + 1, step)
    | true, false => (x, step)
    | false, true => (x + 1, step)
    | false, false => searchGrid num lo hi den closed place tries (n + 1)

def shortest (x : Float) : List Char × Int :=
  let (m, e) := decode x.toBits
  let low := if m = Nat.pow 2 52 && e > -1074 then 4 * m - 1 else 4 * m - 2
  let (num, den) := fraction (4 * m) (e - 2)
  let (lo, _) := fraction low (e - 2)
  let (hi, _) := fraction (4 * m + 2) (e - 2)
  let place := pointPlace num den
  let (steps, step) := searchGrid num lo hi den (m % 2 = 0) place 17 1
  let ds := Nat.toDigits 10 steps
  let point := step + ds.length
  ((ds.reverse.dropWhile (· == '0')).reverse, point)

def exponentText (e : Int) : List Char :=
  let ds := Nat.toDigits 10 e.natAbs
  (if e < 0 then '-' else '+') :: (if ds.length < 2 then '0' :: ds else ds)

def layout (ds : List Char) (point : Int) : List Char :=
  if point ≤ -4 || point > 16 then
    let mantissa := match ds with
      | [] => ['0']
      | [d] => [d]
      | d :: rest => d :: '.' :: rest
    mantissa ++ 'e' :: exponentText (point - 1)
  else if point ≤ 0 then '0' :: '.' :: (List.replicate point.natAbs '0' ++ ds)
  else
    let whole := ds.take point.natAbs
    let whole := whole ++ List.replicate (point.natAbs - whole.length) '0'
    let frac := ds.drop point.natAbs
    whole ++ '.' :: (if frac.isEmpty then ['0'] else frac)

def floatText (x : Float) : String :=
  if x.isNaN then "nan"
  else
    let neg := x.toBits.toNat ≥ Nat.pow 2 63
    let sign := if neg then "-" else ""
    if x.isInf then sign ++ "inf"
    else if x == 0.0 then sign ++ "0.0"
    else
      let (ds, point) := shortest x.abs
      sign ++ String.ofList (layout ds point)

def roundDiv (num den : Nat) : Nat :=
  let q := num / den
  let r := num % den
  if 2 * r < den then q else if 2 * r > den then q + 1 else if q % 2 = 0 then q else q + 1

def fixedTwo (x : Float) : String :=
  if x.isNaN then "nan"
  else
    let neg := x.toBits.toNat ≥ Nat.pow 2 63
    let sign := if neg then "-" else ""
    if x.isInf then sign ++ "inf"
    else
      let (m, e) := decode x.abs.toBits
      let (num, den) := fraction m e
      let ds := Nat.toDigits 10 (roundDiv (num * 100) den)
      let ds := List.replicate (3 - ds.length) '0' ++ ds
      let k := ds.length - 2
      sign ++ String.ofList (ds.take k ++ '.' :: ds.drop k)

end RosAudit.Decimal
