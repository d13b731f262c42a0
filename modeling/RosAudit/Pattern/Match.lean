import RosAudit.Pattern.Syntax

/-!
# Matching

`Pattern.ends` lists the positions at which a match that starts at a given position can end, by
recursion on the expression. A repetition collects the positions reachable in its number of
rounds; after as many rounds as there are characters left nothing new can be reached, so the
number of rounds is cut off there.

`Pattern.matchesStart` asks whether an expression matches some beginning of a text.
-/

namespace RosAudit

open RosAudit.Text

/-- A position in a text: the character before it, and what follows. -/
structure Position where
  prev : Option Char
  rest : List Char
  deriving DecidableEq, Repr

namespace Pattern

def ClassItem.holds (i : ClassItem) (c : Char) : Bool :=
  match i with
  | .range lo hi => lo ≤ c && c ≤ hi
  | .digit p => isDecimal c == p
  | .word p => isWord c == p
  | .blank p => isBlank c == p

def step (test : Char → Bool) (p : Position) : List Position :=
  match p.rest with
  | [] => []
  | c :: cs => if test c then [⟨some c, cs⟩] else []

/-- Is the position at a place where one side is a word character and the other is not? -/
def atWordEdge (p : Position) : Bool := p.prev.any isWord != p.rest.head?.any isWord

def further (f : Position → List Position) : Nat → List Position → List Position
  | 0, ps => ps
  | extra + 1, ps =>
    let next := ((ps.flatMap f).eraseDups).filter fun p => !ps.contains p
    if next.isEmpty then ps else further f extra (ps ++ next)

def rounds (f : Position → List Position) (extra : Nat) : Nat → List Position → List Position
  | 0, ps => further f extra ps
  | least + 1, ps => rounds f extra least (ps.flatMap f).eraseDups

def ends : Pattern → Position → List Position
  | .empty, p => [p]
  | .nothing, _ => []
  | .char c, p => step (· == c) p
  | .any, p => step (· != '\n') p
  | .inClass positive items, p => step (fun c => items.any (ClassItem.holds · c) == positive) p
  | .start, p => if p.prev.isNone then [p] else []
  | .finish, p => if p.rest.isEmpty || p.rest == ['\n'] then [p] else []
  | .finalEnd, p => if p.rest.isEmpty then [p] else []
  | .wordEdge positive, p => if atWordEdge p == positive then [p] else []
  | .seq q r, p => ((ends q p).flatMap (ends r)).eraseDups
  | .alt q r, p => (ends q p ++ ends r p).eraseDups
  | .times q least most, p =>
    let cap := p.rest.length + 1
    let extra := match most with
      | none => cap
      | some m => min cap (m - least)
    rounds (ends q) extra (min least cap) [p]

def matchesStart (p : Pattern) (text : String) : Bool := !(ends p ⟨none, text.toList⟩).isEmpty

end Pattern

end RosAudit
