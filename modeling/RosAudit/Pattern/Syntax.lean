import RosAudit.Fault

/-!
# Patterns

The expressions that unresolved names give rise to. Their literal parts come from the names
themselves and are not escaped, so everything an expression language offers may turn up in them:
classes, repetitions, alternatives, anchors. `Pattern.parse` reads such an expression and refuses
the malformed ones: an unbalanced bracket, a repetition of nothing, a bad range or escape.
-/

namespace RosAudit

/-- One item of a character class. -/
inductive ClassItem where
  | range (lo hi : Char)
  | digit (positive : Bool)
  | word (positive : Bool)
  | blank (positive : Bool)
  deriving Repr

inductive Pattern where
  | empty
  | nothing
  | char (c : Char)
  | any
  | inClass (positive : Bool) (items : List ClassItem)
  | start
  | finish
  | finalEnd
  | wordEdge (positive : Bool)
  | seq (p q : Pattern)
  | alt (p q : Pattern)
  | times (p : Pattern) (least : Nat) (most : Option Nat)
  deriving Repr

namespace Pattern

/-- What an escape outside a class denotes. -/
def escape? (c : Char) : Option Pattern :=
  match c with
  | 'd' => some (.inClass true [.digit true])
  | 'D' => some (.inClass true [.digit false])
  | 'w' => some (.inClass true [.word true])
  | 'W' => some (.inClass true [.word false])
  | 's' => some (.inClass true [.blank true])
  | 'S' => some (.inClass true [.blank false])
  | 'A' => some .start
  | 'Z' => some .finalEnd
  | 'b' => some (.wordEdge true)
  | 'B' => some (.wordEdge false)
  | 'n' => some (.char '\n')
  | 't' => some (.char '\t')
  | 'r' => some (.char '\r')
  | 'f' => some (.char '\x0c')
  | 'v' => some (.char '\x0b')
  | 'a' => some (.char '\x07')
  | '0' => some (.char '\x00')
  | _ => if c.isAlpha then none else if c.isDigit then none else some (.char c)

def classEscape? (c : Char) : Option ClassItem :=
  match c with
  | 'd' => some (.digit true)
  | 'D' => some (.digit false)
  | 'w' => some (.word true)
  | 'W' => some (.word false)
  | 's' => some (.blank true)
  | 'S' => some (.blank false)
  | 'n' => some (.range '\n' '\n')
  | 't' => some (.range '\t' '\t')
  | 'r' => some (.range '\r' '\r')
  | 'f' => some (.range '\x0c' '\x0c')
  | 'v' => some (.range '\x0b' '\x0b')
  | 'a' => some (.range '\x07' '\x07')
  | 'b' => some (.range '\x08' '\x08')
  | _ => if c.isAlpha then none else some (.range c c)

def classMember : List Char → Option (ClassItem × List Char)
  | [] => none
  | '\\' :: c :: rest => (classEscape? c).map fun i => (i, rest)
  | '\\' :: [] => none
  | c :: rest => some (.range c c, rest)

def classMembers : Nat → Bool → List Char → Option (List ClassItem × List Char)
  | 0, _, _ => none
  | fuel + 1, first, cs =>
    match cs with
    | [] => none
    | c :: rest =>
      if c == ']' && !first then some ([], rest)
      else do
        let (lo, rest) ← classMember cs
        match rest with
        | '-' :: ']' :: rest => some ([lo, .range '-' '-'], rest)
        | '-' :: rest' => do
          let (hi, rest) ← classMember rest'
          match lo, hi with
          | .range a _, .range b _ =>
            if b < a then none
            else
              let (items, rest) ← classMembers fuel false rest
              some (.range a b :: items, rest)
          | _, _ => none
        | _ =>
          let (items, rest) ← classMembers fuel false rest
          some (lo :: items, rest)

/-- The bounds of a repetition written in braces, after the opening one; `none` if the brace is
literal. -/
def bounds? (cs : List Char) : Option (Nat × Option Nat × List Char) :=
  let lo := cs.takeWhile Char.isDigit
  let num (ds : List Char) : Nat := ds.foldl (fun n d => 10 * n + (d.toNat - 48)) 0
  match cs.dropWhile Char.isDigit with
  | '\x7d' :: rest => if lo.isEmpty then none else some (num lo, some (num lo), rest)
  | ',' :: rest =>
    let hi := rest.takeWhile Char.isDigit
    match rest.dropWhile Char.isDigit with
    | '\x7d' :: rest =>
      some (num lo, if hi.isEmpty then none else some (num hi), rest)
    | _ => none
  | _ => none

def repetition? : List Char → Option (Nat × Option Nat × List Char)
  | '*' :: rest => some (0, none, rest)
  | '+' :: rest => some (1, none, rest)
  | '?' :: rest => some (0, some 1, rest)
  | '\x7b' :: rest => bounds? rest
  | _ => none

def repeatable : Pattern → Bool
  | .start | .finish | .finalEnd | .wordEdge _ | .empty => false
  | _ => true

/-- An expression with the repetition marks after it. A mark may be made lazy or possessive by a
second one, and no further mark may follow. -/
def withRepetition (p : Pattern) (cs : List Char) : Result (Pattern × List Char) :=
  match repetition? cs with
  | none => pure (p, cs)
  | some (lo, hi, rest) =>
    if !repeatable p then throw .pattern
    else if hi.any (· < lo) then throw .pattern
    else
      let rest := match rest with
        | '?' :: r => r
        | '+' :: r => r
        | r => r
      if (repetition? rest).isSome then throw .pattern
      else pure (.times p lo hi, rest)

mutual

def alternatives : Nat → List Char → Result (Pattern × List Char)
  | 0, _ => throw .pattern
  | fuel + 1, cs => do
    let (p, rest) ← sequence fuel cs
    match rest with
    | '|' :: rest =>
      let (q, rest) ← alternatives fuel rest
      pure (.alt p q, rest)
    | _ => pure (p, rest)

def sequence : Nat → List Char → Result (Pattern × List Char)
  | 0, _ => throw .pattern
  | fuel + 1, cs =>
    match cs with
    | [] => pure (.empty, [])
    | '|' :: _ => pure (.empty, cs)
    | ')' :: _ => pure (.empty, cs)
    | _ => do
      let (p, rest) ← item fuel cs
      let (p, rest) ← withRepetition p rest
      let (q, rest) ← sequence fuel rest
      pure (.seq p q, rest)

def item : Nat → List Char → Result (Pattern × List Char)
  | 0, _ => throw .pattern
  | fuel + 1, cs =>
    match cs with
    | [] => throw .pattern
    | '(' :: rest => do
      let (p, rest) ← alternatives fuel rest
      match rest with
      | ')' :: rest => pure (.seq p (.seq .empty .empty), rest)
      | _ => throw .pattern
    | '[' :: '^' :: rest =>
      match classMembers (rest.length + 1) true rest with
      | some (items, rest) => pure (.inClass false items, rest)
      | none => throw .pattern
    | '[' :: rest =>
      match classMembers (rest.length + 1) true rest with
      | some (items, rest) => pure (.inClass true items, rest)
      | none => throw .pattern
    | '.' :: rest => pure (.any, rest)
    | '^' :: rest => pure (.start, rest)
    | '$' :: rest => pure (.finish, rest)
    | '\\' :: c :: rest =>
      match escape? c with
      | some p => pure (p, rest)
      | none => throw .pattern
    | '\\' :: [] => throw .pattern
    | c :: rest =>
      if (repetition? cs).isSome then throw .pattern else pure (.char c, rest)

end

def parse (text : String) : Result Pattern := do
  let cs := text.toList
  let (p, rest) ← alternatives (3 * cs.length + 3) cs
  if rest.isEmpty then pure p else throw .pattern

end Pattern

end RosAudit
