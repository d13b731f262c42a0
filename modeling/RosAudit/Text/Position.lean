/-!
# Positions

A position in a list is an integer: from zero on it counts from the front, and a negative one
counts back from the end. `at?` gives the item there, and `between` the items from one position up
to, but without, another; positions outside the list are moved to its ends.
-/

namespace RosAudit.Text

variable {α : Type}

def at? (xs : List α) (i : Int) : Option α :=
  if 0 ≤ i then xs[i.toNat]?
  else if i.natAbs ≤ xs.length then xs[xs.length - i.natAbs]?
  else none

/-- A position as a count from the front, moved to an end of the list if it is outside. -/
def clamp (n : Nat) (i : Int) : Nat :=
  if 0 ≤ i then min i.toNat n else n - i.natAbs

def between (xs : List α) (i j : Int) : List α :=
  let a := clamp xs.length i
  (xs.drop a).take (clamp xs.length j - a)

end RosAudit.Text
