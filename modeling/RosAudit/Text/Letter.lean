/-!
# Letters, digits and case

The classes that names, identifiers and numerals are made of. Outside ASCII they follow the
Unicode character database: `kindRuns` tells letters and numbers from what cannot be shown
(controls, formats, surrogates, private and unassigned code points, and every separator), and
`digitZeros` lists the zero of each run of ten decimal digits.

The case maps `lower` and `upper` serve comparisons with ASCII keywords only. Such a comparison
sees the characters whose image is ASCII; every other character can be kept as it is.
-/

namespace RosAudit.Text

/-- The kinds of characters, run by run from the first character on. A number is three times the
length of a run, plus 1 for letters and numbers and 2 for what cannot be shown. -/
def kindRuns : List Nat := [
  384,101,27,4,6,5,12,7,3,4,9,7,3,10,3,70,3,94,3,1375,12,37,42,16,21,4,3,4,387,16,3,7,8,13,3,4,14,6,
  4,3,10,5,4,5,61,5,250,3,418,24,499,5,115,8,4,18,124,6,8,9,5,165,26,82,14,13,6,53,66,5,9,130,63,31,
  12,7,3,298,3,4,21,5,21,7,21,46,6,4,42,8,4,3,91,81,8,268,33,4,44,130,27,7,12,4,8,9,67,12,4,27,4,9,
  4,15,8,45,5,76,9,8,3,5,34,17,73,3,19,29,24,127,72,5,99,163,9,4,54,4,21,31,12,31,3,49,9,5,25,8,7,8,
  67,5,22,5,4,11,13,8,3,4,21,8,6,8,9,4,26,3,14,7,5,10,6,8,37,6,19,6,4,6,8,9,5,19,14,7,8,67,5,22,5,7,
  5,7,5,7,8,3,5,15,14,6,8,9,11,3,23,13,5,4,23,31,6,10,6,32,9,5,28,5,10,5,67,5,22,5,7,5,16,8,3,4,24,
  5,9,5,9,8,4,47,7,6,8,31,6,23,4,18,5,9,5,25,8,7,8,67,5,22,5,7,5,16,8,3,4,21,8,6,8,9,23,9,14,7,5,10,
  6,8,31,3,22,32,3,4,5,19,11,10,5,13,11,7,5,4,5,7,11,7,11,10,11,37,14,15,11,9,5,12,8,4,20,3,44,40,
  24,17,15,25,5,10,5,70,5,49,8,3,4,21,5,9,5,12,23,6,5,10,8,4,8,7,6,8,31,23,3,22,3,4,12,25,5,10,5,70,
  5,31,5,16,8,3,4,21,5,9,5,12,23,6,20,7,5,7,6,8,31,5,7,41,12,28,5,10,5,124,6,4,21,5,9,5,12,4,3,14,
  10,3,31,6,8,58,3,19,5,9,5,55,11,73,5,28,5,4,8,22,11,3,14,18,5,3,5,24,20,31,8,9,38,145,3,7,21,14,3,
  22,27,31,6,113,7,5,4,5,16,5,73,5,4,5,31,3,7,27,4,8,16,5,4,5,18,8,31,8,13,98,4,93,61,36,25,5,109,
  14,69,16,33,5,108,5,45,5,39,113,130,60,34,18,19,12,13,9,4,9,7,21,10,12,40,36,4,3,31,18,115,5,4,17,
  4,8,130,3,1000,5,13,8,22,5,4,5,13,8,124,5,13,8,100,5,13,8,22,5,4,5,13,8,46,5,172,5,13,8,202,8,36,
  61,11,49,30,20,259,8,19,8,3,1861,6,52,5,79,6,11,226,9,34,23,55,12,29,58,15,29,55,6,38,40,5,10,5,6,
  38,157,105,4,12,4,3,8,31,20,31,20,42,5,3,31,20,268,23,16,6,103,3,4,17,211,32,94,5,36,14,36,14,3,
  11,6,121,8,16,35,133,14,79,20,34,11,102,70,15,8,6,160,30,5,87,8,3,31,20,31,20,21,4,18,8,93,149,15,
  142,51,25,11,31,111,5,9,91,39,169,42,26,12,109,60,11,15,31,11,148,6,28,23,130,8,10,24,26,75,13,3,
  19,3,7,9,4,17,577,192,835,8,19,8,115,8,19,8,25,5,4,5,4,5,4,5,94,8,160,5,22,3,4,9,10,5,22,9,13,8,
  19,5,9,40,9,8,10,5,22,6,53,72,26,141,53,7,8,19,15,34,15,5,40,11,99,47,99,47,6,4,12,4,6,31,3,4,9,
  16,18,4,3,4,3,4,3,13,3,34,6,13,15,16,12,4,3,175,6,14,1989,77,33,65,181,234,67,1890,91,2976,8,96,5,
  315,688,18,13,9,7,17,12,4,6,115,5,4,17,4,8,169,23,4,3,44,3,70,29,22,5,22,5,22,5,22,5,22,5,22,5,22,
  5,22,5,237,4,138,104,78,5,267,38,642,80,36,17,12,10,75,28,21,16,6,16,9,5,259,8,12,10,3,271,3,13,
  17,130,5,283,5,6,13,30,97,108,38,49,93,5,31,90,25,3,46,96,31,117,46,960,19777,192,66472,11,165,29,
  139,6,808,9,85,62,142,48,94,6,241,24,26,69,28,6,310,6,193,17,7,5,4,5,16,74,49,3,10,3,13,3,70,30,
  11,19,12,20,157,12,26,6,151,54,26,6,31,20,54,19,9,4,3,7,3,115,30,70,39,35,3,88,11,12,142,81,5,34,
  14,6,16,3,76,5,124,42,29,10,3,25,6,8,31,8,12,70,9,4,9,151,3,4,9,7,6,16,6,4,3,4,74,10,6,34,21,10,6,
  32,19,8,19,8,19,29,22,5,22,5,130,3,43,6,14,346,33,8,31,20,33517,38,70,14,148,14,6144,19202,1099,8,
  319,116,22,38,16,17,4,3,31,3,40,5,16,5,4,5,7,5,7,5,325,51,50,1090,54,193,8,163,23,3,98,37,90,20,
  153,5,57,5,12,14,16,5,406,14,45,31,21,79,18,79,33,268,11,19,8,19,8,19,8,10,11,21,5,21,41,6,8,37,5,
  79,5,58,5,7,5,46,8,43,104,370,17,9,14,136,11,27,172,51,7,9,5,39,11,3,143,138,392,88,11,148,47,3,
  82,14,109,29,91,17,115,15,17,91,5,3,109,14,25,3,16,128,475,8,31,20,109,14,109,14,121,26,157,35,3,
  34,5,46,5,22,5,7,5,34,5,46,5,22,5,7,203,934,29,67,32,25,74,19,5,127,5,28,209,19,8,4,5,133,5,7,11,
  4,8,70,5,3,94,6,115,26,28,146,58,5,7,17,100,11,3,79,17,3,194,169,14,61,8,142,9,5,6,17,12,13,5,10,
  5,88,8,9,14,3,28,23,27,23,94,3,97,98,25,3,85,6,14,16,21,29,163,11,21,67,8,82,17,79,23,12,38,22,
  242,220,167,154,41,154,23,127,12,26,31,884,94,5,127,5,9,8,7,236,121,26,67,33,13,15,68,55,24,116,
  85,62,70,29,9,160,66,14,91,3,7,6,4,29,12,136,39,5,15,41,76,23,31,20,9,109,42,5,31,12,4,6,4,26,106,
  9,4,29,9,145,42,13,33,34,3,4,9,5,61,35,55,5,76,57,197,22,5,4,5,13,5,46,5,31,3,20,142,36,17,31,20,
  12,5,25,8,7,8,67,5,22,5,7,5,16,5,6,4,21,8,6,8,9,8,4,20,3,17,16,6,8,21,11,15,419,160,54,13,15,31,6,
  5,6,10,92,145,60,7,3,4,26,31,500,142,21,8,96,13,6,104,145,60,4,35,31,20,39,59,130,39,4,3,20,31,
  164,82,8,45,14,37,12,22,557,133,48,302,250,38,25,8,4,8,25,5,7,5,73,18,5,6,8,12,4,3,4,15,29,31,212,
  25,8,118,21,8,21,4,3,4,3,83,4,30,121,21,4,39,26,4,33,139,57,4,15,41,220,791,28,5,112,24,5,24,4,15,
  32,88,11,6,91,8,66,5,42,221,22,5,7,5,115,18,11,3,5,6,5,21,4,3,26,31,20,19,5,7,5,97,15,5,6,5,15,4,
  23,31,932,58,18,551,4,47,64,87,41,3,2767,308,334,5,15,35,589,7910,292,6,41,3214,12149,1750,25901,
  1708,23,94,5,31,14,6,238,5,31,20,91,8,18,32,145,48,13,6,32,31,5,22,5,64,17,58,2066,262,12,305,226,
  14,3,4,165,23,12,40,194,7,3,4,3,35,6,44,18409,26,3715,128,28,26807,13,5,22,5,7,5,874,137,10,53,13,
  26,1189,6926,322,17,40,11,28,23,31,8,12,14114,138,8,69,29,348,182,738,32,117,8,222,26,336,65,210,
  464,61,38,261,29,76,407,256,5,214,5,7,8,4,8,7,8,13,5,37,5,4,5,22,5,196,5,13,8,25,5,22,5,85,5,13,5,
  16,5,4,11,22,5,1021,8,76,3,76,3,94,3,76,3,94,3,76,3,94,3,76,3,94,3,76,3,25,8,151,1956,47,15,5,45,
  3314,94,677,21,5,51,8,21,5,6,5,15,641,136,11,21,22,8,31,14,4,3,962,91,3,53,133,12,31,17,3,3746,22,
  5,13,5,7,5,46,5,592,8,28,21,125,205,21,4,14,31,14,6,2357,178,3,10,3,13,230,136,3,46,584,13,5,82,5,
  7,5,4,8,4,5,31,5,13,5,4,5,4,20,4,14,4,5,4,5,4,5,10,5,7,5,4,8,4,5,4,5,4,5,4,5,4,5,7,5,4,8,13,5,22,
  5,13,5,13,5,4,5,31,5,52,17,10,5,16,5,52,158,6,812,132,14,300,38,45,8,45,5,45,5,111,32,40,483,170,
  87,41,132,14,27,23,6,44,18,464,2952,17,48,11,39,11,348,38,267,23,36,14,3,47,36,14,168,26,30,20,
  120,26,90,8,6,236,1020,38,42,8,15,11,15,11,21,29,87,11,33,17,18,32,30,20,24,26,21,29,441,5,165,
  113,31,3092,128161,98,12460,23,667,8,17287,44,22420,9311,1627,4520,14818,2148641,720]

def kindIn : List Nat → Nat → Nat
  | [], _ => 2
  | run :: runs, n => if n < run / 3 then run % 3 else kindIn runs (n - run / 3)

def digitZeros : Array Nat := #[
  0x660, 0x6f0, 0x7c0, 0x966, 0x9e6, 0xa66, 0xae6, 0xb66, 0xbe6,
  0xc66, 0xce6, 0xd66, 0xde6, 0xe50, 0xed0, 0xf20, 0x1040, 0x1090,
  0x17e0, 0x1810, 0x1946, 0x19d0, 0x1a80, 0x1a90, 0x1b50, 0x1bb0, 0x1c40,
  0x1c50, 0xa620, 0xa8d0, 0xa900, 0xa9d0, 0xa9f0, 0xaa50, 0xabf0, 0xff10,
  0x104a0, 0x10d30, 0x11066, 0x110f0, 0x11136, 0x111d0, 0x112f0, 0x11450, 0x114d0,
  0x11650, 0x116c0, 0x11730, 0x118e0, 0x11950, 0x11c50, 0x11d50, 0x11da0, 0x16a60,
  0x16ac0, 0x16b50, 0x1d7ce, 0x1d7d8, 0x1d7e2, 0x1d7ec, 0x1d7f6, 0x1e140, 0x1e2f0,
  0x1e950, 0x1fbf0]

def isWord (c : Char) : Bool :=
  c.isAlphanum || c == '_' || (127 < c.toNat && kindIn kindRuns c.toNat == 1)

def digitValue? (c : Char) : Option Nat :=
  if c.isDigit then some (c.toNat - 48)
  else if c.toNat ≤ 127 then none
  else (digitZeros.find? fun z => z ≤ c.toNat && c.toNat < z + 10).map fun z => c.toNat - z

def isDecimal (c : Char) : Bool := (digitValue? c).isSome

/-- Lower case, for comparison with ASCII keywords. -/
def lowerChar (c : Char) : Char := if c.toNat == 0x212a then 'k' else c.toLower

/-- Upper case, for comparison with ASCII keywords. -/
def upperChar (c : Char) : List Char :=
  match c.toNat with
  | 0xdf => ['S', 'S']
  | 0x131 => ['I']
  | 0x17f => ['S']
  | 0xfb00 => ['F', 'F']
  | 0xfb01 => ['F', 'I']
  | 0xfb02 => ['F', 'L']
  | 0xfb03 => ['F', 'F', 'I']
  | 0xfb04 => ['F', 'F', 'L']
  | 0xfb05 => ['S', 'T']
  | 0xfb06 => ['S', 'T']
  | _ => [c.toUpper]

def lower (s : String) : String := String.ofList (s.toList.map lowerChar)

def upper (s : String) : String := String.ofList (s.toList.flatMap upperChar)

end RosAudit.Text
