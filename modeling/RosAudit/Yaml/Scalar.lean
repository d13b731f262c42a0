import RosAudit.Yaml.Cursor

/-!
# Scalars of a data document

The five ways to write a scalar. `blockScalar` reads a literal or folded block, `quotedScalar` a
text between quotes, `plainScalar` bare words. Inside a scalar one line break reads as a space and
each further one as itself, except in a literal block, which keeps them all.
-/

namespace RosAudit.Yaml

open Cursor

/-! ## Blocks -/

/-- How the line breaks at the end of a block are treated. -/
inductive Chomping where
  | strip
  | clip
  | keep
  deriving DecidableEq

def Chomping.ofChar? : Char → Option Chomping
  | '+' => some .keep
  | '-' => some .strip
  | _ => none

def blockIndicators (c : Cursor) : Result (Chomping × Option Nat × Cursor) := do
  let sign (c : Cursor) : Option Chomping × Cursor :=
    match Chomping.ofChar? c.peek with
    | some k => (some k, c.step)
    | none => (none, c)
  let depth (c : Cursor) : Result (Option Nat × Cursor) :=
    if c.peek.isDigit then
      if c.peek == '0' then refuse else pure (some (c.peek.toNat - 48), c.step)
    else pure (none, c)
  let (first, c) := sign c
  let (n, c) ← depth c
  let (last, c) := if first.isNone && n.isSome then sign c else (none, c)
  if isEndOrSpace c.peek then pure ((first.orElse fun _ => last).getD .clip, n, c) else refuse

def ignoredLine (c : Cursor) : Result Cursor :=
  let c := c.skipWhile (· == ' ')
  let c := if c.peek == '#' then c.skipWhile (!isLineEnd ·) else c
  if isLineEnd c.peek then pure c.lineBreak.2 else refuse

def leadingBreaks : Nat → Cursor → Nat → List Char → List Char × Nat × Cursor
  | 0, c, deepest, out => (out, deepest, c)
  | n + 1, c, deepest, out =>
    if c.peek == ' ' then leadingBreaks n c.step (max deepest (c.column + 1)) out
    else if isBreak c.peek then
      let (b, c) := c.lineBreak
      leadingBreaks n c deepest (out ++ b)
    else (out, deepest, c)

def skipIndent (indent : Nat) (c : Cursor) : Cursor :=
  c.skip ((c.rest.take (indent - c.column)).takeWhile (· == ' ')).length

def innerBreaks (indent : Nat) : Nat → Cursor → List Char → List Char × Cursor
  | 0, c, out => (out, c)
  | n + 1, c, out =>
    let c := skipIndent indent c
    if isBreak c.peek then
      let (b, c) := c.lineBreak
      innerBreaks indent n c (out ++ b)
    else (out, c)

def blockLines (folded : Bool) (indent : Nat) :
    Nat → Cursor → List Char → List Char × List Char × List Char × Cursor
  | 0, c, breaks => ([], [], breaks, c)
  | n + 1, c, breaks =>
    if c.column == indent && c.peek != endMark then
      let solid := !(c.peek == ' ' || c.peek == '\t')
      let (line, c) := c.run (!isLineEnd ·)
      let (last, c) := c.lineBreak
      let (after, c) := innerBreaks indent c.rest.length c []
      if c.column == indent && c.peek != endMark then
        let joint :=
          if folded && last == ['\n'] && solid && !(c.peek == ' ' || c.peek == '\t') then
            if after.isEmpty then [' '] else []
          else last
        let (more, last, after, c) := blockLines folded indent n c after
        (breaks ++ line ++ joint ++ more, last, after, c)
      else (breaks ++ line, last, after, c)
    else ([], [], breaks, c)

def blockScalar (folded : Bool) (outer : Int) (c : Cursor) : Result (String × Cursor) := do
  let (chomping, depth, c) ← blockIndicators c.step
  let c ← ignoredLine c
  let least := (max (outer + 1) 1).toNat
  let (indent, breaks, c) := match depth with
    | none =>
      let (breaks, deepest, c) := leadingBreaks c.rest.length c 0 []
      (max least deepest, breaks, c)
    | some n =>
      let indent := least + n - 1
      let (breaks, c) := innerBreaks indent c.rest.length c []
      (indent, breaks, c)
  let (body, last, after, c) := blockLines folded indent (c.rest.length + 1) c breaks
  let ending := match chomping with
    | .strip => []
    | .clip => last
    | .keep => last ++ after
  pure (String.ofList (body ++ ending), c)

/-! ## Quotes -/

def escapes : List (Char × Nat) :=
  [('0', 0), ('a', 7), ('b', 8), ('t', 9), ('\t', 9), ('n', 10), ('v', 11), ('f', 12), ('r', 13),
   ('e', 0x1b), (' ', 0x20), ('"', 0x22), ('\\', 0x5c), ('/', 0x2f), ('N', 0x85), ('_', 0xa0),
   ('L', 0x2028), ('P', 0x2029)]

def escapeWidths : List (Char × Nat) := [('x', 2), ('u', 4), ('U', 8)]

def hexValue? (c : Char) : Option Nat :=
  if c.isDigit then some (c.toNat - 48)
  else if 'a' ≤ c ∧ c ≤ 'f' then some (c.toNat - 87)
  else if 'A' ≤ c ∧ c ≤ 'F' then some (c.toNat - 55)
  else none

def hexNumber? (cs : List Char) (n : Nat) : Option Nat :=
  if cs.length < n then none
  else (cs.take n).foldlM (fun m c => (hexValue? c).map (16 * m + ·)) 0

def quotedBreaks : Nat → Cursor → List Char → Result (List Char × Cursor)
  | 0, c, out => pure (out, c)
  | n + 1, c, out =>
    if c.atMarker then refuse
    else
      let c := c.skipWhile fun x => x == ' ' || x == '\t'
      if isBreak c.peek then
        let (b, c) := c.lineBreak
        quotedBreaks n c (out ++ b)
      else pure (out, c)

def quotedBody (double : Bool) : Nat → Cursor → List Char → Result (List Char × Cursor)
  | 0, _, _ => refuse
  | n + 1, c, out =>
    match c.rest with
    | [] => refuse
    | x :: xs =>
      if x == '\x27' && !double then
        if xs.head? == some '\x27' then quotedBody double n (c.skip 2) (out ++ ['\x27'])
        else pure (out, c.step)
      else if x == '"' && double then pure (out, c.step)
      else if x == '\\' && double then
        let y := c.peek 1
        match escapes.lookup y with
        | some code => quotedBody double n (c.skip 2) (out ++ [Char.ofNat code])
        | none =>
          match escapeWidths.lookup y with
          | some width =>
            match hexNumber? (xs.drop 1) width with
            | some code => quotedBody double n (c.skip (2 + width)) (out ++ [Char.ofNat code])
            | none => refuse
          | none =>
            if isBreak y then do
              let (bs, c) ← quotedBreaks n c.step.lineBreak.2 []
              quotedBody double n c (out ++ bs)
            else refuse
      else if x == ' ' || x == '\t' || isBreak x then do
        let (blanks, c) := c.run fun x => x == ' ' || x == '\t'
        if c.peek == endMark then refuse
        else if isBreak c.peek then
          let (b, c) := c.lineBreak
          let (bs, c) ← quotedBreaks n c []
          let joint := if b != ['\n'] then b else if bs.isEmpty then [' '] else []
          quotedBody double n c (out ++ joint ++ bs)
        else quotedBody double n c (out ++ blanks)
      else quotedBody double n c.step (out ++ [x])

def quotedScalar (c : Cursor) : Result (String × Cursor) := do
  let (cs, d) ← quotedBody (c.peek == '"') (c.rest.length + 1) c.step []
  pure (String.ofList cs, d)

/-! ## Bare words -/

def isFlowMark (c : Char) : Bool := c == ',' || c == '[' || c == ']' || c == '\x7b' || c == '\x7d'

def wordLength (flow : Bool) : List Char → Nat
  | [] => 0
  | c :: cs =>
    let next := cs.headD endMark
    if isGap c || (c == ':' && (isGap next || (flow && isFlowMark next))) ||
        (flow && (c == '?' || isFlowMark c)) then 0
    else wordLength flow cs + 1

def plainBreaks : Nat → Cursor → List Char → Option (List Char) × Cursor
  | 0, c, out => (some out, c)
  | n + 1, c, out =>
    if c.peek == ' ' then plainBreaks n c.step out
    else if isBreak c.peek then
      let (b, c) := c.lineBreak
      if c.atMarker then (none, c) else plainBreaks n c (out ++ b)
    else (some out, c)

def plainSpaces (c : Cursor) : List Char × Bool × Cursor :=
  let (blanks, c) := c.run (· == ' ')
  if isBreak c.peek then
    let (b, c) := c.lineBreak
    if c.atMarker then ([], true, c)
    else match plainBreaks c.rest.length c [] with
      | (none, c) => ([], true, c)
      | (some bs, c) =>
        ((if b != ['\n'] then b else if bs.isEmpty then [' '] else []) ++ bs, true, c)
  else (blanks, false, c)

def plainWords (flow : Bool) (indent : Int) :
    Nat → Cursor → List Char → Bool → List Char × Bool × Cursor
  | 0, c, _, broken => ([], broken, c)
  | n + 1, c, spaces, broken =>
    if c.peek == '#' then ([], broken, c)
    else
      let k := wordLength flow c.rest
      if k == 0 then ([], broken, c)
      else
        let word := c.rest.take k
        let (next, broken, c) := plainSpaces (c.skip k)
        if next.isEmpty || c.peek == '#' || (!flow && (c.column : Int) < indent) then
          (spaces ++ word, broken, c)
        else
          let (more, broken, c) := plainWords flow indent n c next broken
          (spaces ++ word ++ more, broken, c)

def plainScalar (flow : Bool) (outer : Int) (c : Cursor) : String × Bool × Cursor :=
  let (cs, broken, c) := plainWords flow (outer + 1) (c.rest.length + 1) c [] false
  (String.ofList cs, broken, c)

end RosAudit.Yaml
