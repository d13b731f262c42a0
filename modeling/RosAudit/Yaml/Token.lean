import RosAudit.Yaml.Scalar

/-!
# Tokens of a data document

`tokens` cuts a document into tokens. Indentation is made explicit: a deeper column opens a block
and a shallower one closes it. A mapping key is only known for one when the colon after it is met,
so the scanner remembers where a key may start and puts the key token there afterwards.

A document that cannot be cut to its end gives the tokens that were settled when it failed, so
that what was read up to there can be judged first.
-/

namespace RosAudit.Yaml

open Cursor

inductive Token where
  | versionDirective (major minor : Nat)
  | tagDirective (handle lead : String)
  | directive
  | documentStart
  | documentEnd
  | streamEnd
  | blockSequenceStart
  | blockMappingStart
  | blockEnd
  | flowSequenceStart
  | flowSequenceEnd
  | flowMappingStart
  | flowMappingEnd
  | blockEntry
  | flowEntry
  | key
  | value
  | alias (name : String)
  | anchor (name : String)
  | tag (handle : Option String) (suffix : String)
  | scalar (text : String) (plain : Bool)
  deriving DecidableEq, Inhabited

/-- A place where a mapping key may have started. -/
structure KeyPlace where
  token : Nat
  required : Bool
  index : Nat
  line : Nat
  column : Nat

structure Scanner where
  cursor : Cursor
  tokens : List Token := []
  count : Nat := 0
  indent : Int := -1
  indents : List Int := []
  flow : Int := 0
  keyAllowed : Bool := true
  keys : Table Int KeyPlace := Table.empty

namespace Scanner

def push (s : Scanner) (t : Token) : Scanner :=
  { s with tokens := t :: s.tokens, count := s.count + 1 }

def insertAt (s : Scanner) (n : Nat) (t : Token) : Scanner :=
  let after := s.tokens.take (s.count - n)
  { s with tokens := after ++ t :: s.tokens.drop (s.count - n), count := s.count + 1 }

def skipGap : Nat → Scanner → Scanner
  | 0, s => s
  | n + 1, s =>
    let c := s.cursor.skipWhile (· == ' ')
    let c := if c.peek == '#' then c.skipWhile (!isLineEnd ·) else c
    if isBreak c.peek then
      skipGap n { s with cursor := c.lineBreak.2, keyAllowed := s.keyAllowed || s.flow == 0 }
    else { s with cursor := c }

def isStale (s : Scanner) (k : KeyPlace) : Bool :=
  k.line != s.cursor.line || s.cursor.index - k.index > 1024

def dropStaleKeys (s : Scanner) : Result Scanner := do
  if s.keys.entries.any fun e => s.isStale e.2 && e.2.required then refuse
  pure { s with keys := ⟨s.keys.entries.filter fun e => !s.isStale e.2⟩ }

def settled (s : Scanner) : List Token :=
  let pending := s.keys.values.filter fun k => k.required || !s.isStale k
  let n := pending.foldl (fun n k => min n k.token) s.count
  s.tokens.reverse.take n

def dropKey (s : Scanner) : Result Scanner :=
  match s.keys.get? s.flow with
  | some k => if k.required then refuse else pure { s with keys := s.keys.erase s.flow }
  | none => pure s

def saveKey (s : Scanner) : Result Scanner := do
  let c := s.cursor
  let required := s.flow == 0 && s.indent == c.column
  if s.keyAllowed then
    let s ← s.dropKey
    let place : KeyPlace :=
      { token := s.count, required, index := c.index, line := c.line, column := c.column }
    pure { s with keys := s.keys.put s.flow place }
  else pure s

def unwind (column : Int) : List Int → Scanner → Scanner
  | [], s => s
  | i :: is, s =>
    if s.flow == 0 && s.indent > column then
      unwind column is ({ s with indent := i, indents := is }.push .blockEnd)
    else s

def unwindTo (s : Scanner) (column : Int) : Scanner := unwind column s.indents s

def indentTo (s : Scanner) (column : Int) : Bool × Scanner :=
  if s.indent < column then (true, { s with indents := s.indent :: s.indents, indent := column })
  else (false, s)

def take (s : Scanner) (n : Nat) (t : Token) : Scanner :=
  { s with cursor := s.cursor.skip n }.push t

/-! ## Directives, anchors and tags -/

def directiveNumber (c : Cursor) : Result (Nat × Cursor) :=
  let (ds, c) := c.run Char.isDigit
  if ds.isEmpty then refuse else pure (ds.foldl (fun n d => 10 * n + (d.toNat - 48)) 0, c)

def isAddressChar (c : Char) : Bool :=
  c.isAlphanum || "-;/?:@&=+$,_.!~*'()[]%".toList.contains c

def tagAddress (c : Cursor) : Result (String × Cursor) :=
  let (cs, c) := c.run isAddressChar
  if cs.isEmpty then refuse else pure (String.ofList cs, c)

def tagHandle (c : Cursor) : Result (String × Cursor) := do
  if c.peek != '!' then refuse
  let (name, d) := c.step.run isNameChar
  if d.peek == '!' then pure (String.ofList ('!' :: name ++ ['!']), d.step)
  else if name.isEmpty && d.peek == ' ' then pure ("!", d)
  else refuse

def directive (c : Cursor) : Result (Token × Cursor) := do
  let (name, c) := c.step.run isNameChar
  if name.isEmpty || !isEndOrSpace c.peek then refuse
  let (t, c) ← match String.ofList name with
    | "YAML" => do
      let (major, c) ← directiveNumber (c.skipWhile (· == ' '))
      if c.peek != '.' then refuse
      let (minor, c) ← directiveNumber c.step
      if !isEndOrSpace c.peek then refuse
      pure (Token.versionDirective major minor, c)
    | "TAG" => do
      let (handle, c) ← tagHandle (c.skipWhile (· == ' '))
      if c.peek != ' ' then refuse
      let (lead, c) ← tagAddress (c.skipWhile (· == ' '))
      if !isEndOrSpace c.peek then refuse
      pure (.tagDirective handle lead, c)
    | _ => pure (.directive, c.skipWhile (!isLineEnd ·))
  pure (t, ← ignoredLine c)

def anchorName (c : Cursor) : Result (String × Cursor) :=
  let (name, c) := c.step.run isNameChar
  if name.isEmpty || !(isGap c.peek || "?:,]\x7d%@`".toList.contains c.peek) then refuse
  else pure (String.ofList name, c)

def tag (c : Cursor) : Result (Token × Cursor) := do
  let (t, c) ←
    if c.peek 1 == '<' then do
      let (a, c) ← tagAddress (c.skip 2)
      if c.peek != '>' then refuse
      pure (Token.tag none a, c.step)
    else if isGap (c.peek 1) then pure (.tag none "!", c.step)
    else
      let word := c.rest.drop 1 |>.takeWhile (!isEndOrSpace ·)
      if word.contains '!' then do
        let (h, c) ← tagHandle c
        let (a, c) ← tagAddress c
        pure (.tag (some h) a, c)
      else do
        let (a, c) ← tagAddress c.step
        pure (.tag (some "!") a, c)
  if isEndOrSpace c.peek then pure (t, c) else refuse

/-! ## One token -/

def closeAll (s : Scanner) : Result Scanner := do
  let s ← (s.unwindTo (-1)).dropKey
  pure { s with keyAllowed := false }

def entry (s : Scanner) : Result Scanner := do
  let s ←
    if s.flow == 0 then
      if !s.keyAllowed then refuse
      let (opened, s) := s.indentTo s.cursor.column
      pure (if opened then s.push .blockSequenceStart else s)
    else pure s
  return ({ (← s.dropKey) with keyAllowed := true }).take 1 .blockEntry

def explicitKey (s : Scanner) : Result Scanner := do
  let s ←
    if s.flow == 0 then
      if !s.keyAllowed then refuse
      let (opened, s) := s.indentTo s.cursor.column
      pure (if opened then s.push .blockMappingStart else s)
    else pure s
  return ({ (← s.dropKey) with keyAllowed := s.flow == 0 }).take 1 .key

def colon (s : Scanner) : Result Scanner :=
  match s.keys.get? s.flow with
  | some k =>
    let s : Scanner := { s with keys := s.keys.erase s.flow }
    let s := s.insertAt k.token .key
    let (opened, s) := if s.flow == 0 then s.indentTo k.column else (false, s)
    let s := if opened then s.insertAt k.token .blockMappingStart else s
    pure ({ s with keyAllowed := false }.take 1 .value)
  | none => do
    let s ←
      if s.flow == 0 then
        if !s.keyAllowed then refuse
        let (opened, s) := s.indentTo s.cursor.column
        pure (if opened then s.push .blockMappingStart else s)
      else pure s
    return ({ (← s.dropKey) with keyAllowed := s.flow == 0 }).take 1 .value

def startsPlain (s : Scanner) : Bool :=
  let x := s.cursor.peek
  !(isGap x || "-?:,[]\x7b\x7d#&*!|>'\"%@`".toList.contains x) ||
    (!isGap (s.cursor.peek 1) && (x == '-' || (s.flow == 0 && (x == '?' || x == ':'))))

def next (s : Scanner) : Result Scanner := do
  let s := skipGap (s.cursor.rest.length + 1) s
  let s ← s.dropStaleKeys
  let s := s.unwindTo s.cursor.column
  let c := s.cursor
  let x := c.peek
  let gapAfter := isGap (c.peek 1)
  let inFlow := s.flow != 0
  let opening (t : Token) : Result Scanner := do
    let s ← s.saveKey
    pure ({ s with flow := s.flow + 1, keyAllowed := true }.take 1 t)
  let closing (t : Token) : Result Scanner := do
    let s ← s.dropKey
    pure ({ s with flow := s.flow - 1, keyAllowed := false }.take 1 t)
  let named (t : Token) (c : Cursor) : Result Scanner := do
    let s ← s.saveKey
    pure ({ s with keyAllowed := false, cursor := c }.push t)
  if x == endMark then
    let s ← s.closeAll
    pure ({ s with keys := Table.empty }.push .streamEnd)
  else if x == '%' && c.column == 0 then
    let s ← s.closeAll
    let (t, c) ← directive c
    pure ({ s with cursor := c }.push t)
  else if c.column == 0 && c.atMarker then
    let s ← s.closeAll
    pure (s.take 3 (if x == '-' then .documentStart else .documentEnd))
  else if x == '[' then opening .flowSequenceStart
  else if x == '\x7b' then opening .flowMappingStart
  else if x == ']' then closing .flowSequenceEnd
  else if x == '\x7d' then closing .flowMappingEnd
  else if x == ',' then
    return ({ (← s.dropKey) with keyAllowed := true }).take 1 .flowEntry
  else if x == '-' && gapAfter then s.entry
  else if x == '?' && (inFlow || gapAfter) then s.explicitKey
  else if x == ':' && (inFlow || gapAfter) then s.colon
  else if x == '*' then
    let (name, d) ← anchorName c
    named (.alias name) d
  else if x == '&' then
    let (name, d) ← anchorName c
    named (.anchor name) d
  else if x == '!' then
    let (t, d) ← tag c
    named t d
  else if (x == '|' || x == '>') && !inFlow then
    let s ← s.dropKey
    let (text, d) ← blockScalar (x == '>') s.indent c
    pure ({ s with keyAllowed := true, cursor := d }.push (.scalar text false))
  else if x == '\x27' || x == '"' then
    let (text, d) ← quotedScalar c
    named (.scalar text false) d
  else if s.startsPlain then
    let s ← s.saveKey
    let (text, broken, d) := plainScalar inFlow s.indent c
    pure ({ s with keyAllowed := broken, cursor := d }.push (.scalar text true))
  else refuse

def toEnd : Nat → Scanner → List Token × Option Fault
  | 0, s => (s.tokens.reverse, some .tooDeep)
  | n + 1, s =>
    match s.next with
    | .error f => (s.settled, some f)
    | .ok s =>
      if s.tokens.head? == some .streamEnd then (s.tokens.reverse, none) else toEnd n s

end Scanner

def tokens (text : String) : List Token × Option Fault :=
  let cs := text.toList
  if cs.any (!isAllowed ·) then ([], some (.yaml .reading))
  else
    let cs := if (cs.head?.map Char.toNat) == some 0xfeff then cs.tail else cs
    Scanner.toEnd (cs.length + 2) { cursor := { rest := cs } }

end RosAudit.Yaml
