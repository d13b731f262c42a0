import RosAudit.Table
import RosAudit.Text.Blank
import RosAudit.Text.Letter

/-!
# Markup events

Launch files and package manifests are XML. `Event.read` cuts a document into tags and character
data, expanding references on the way: the five named ones, numeric ones, and the entities that
the document type declares. Comments and processing instructions leave no event, so the text
around them joins. A document that is not well formed at this level has no event list.

Which tags match, and what a name means under its namespace declarations, is decided when the
events are put together into an element.
-/

namespace RosAudit.Xml

open RosAudit.Text

/-- A piece of a document. Text that came from a reference or a literal section is `solid`: it
may not stand outside the root element, even if it is blank. -/
inductive Event where
  | opened (name : String) (attributes : List (String × String))
  | closed (name : String)
  | text (cs : List Char)
  | solid (cs : List Char)
  | doctype
  deriving Inhabited

def isXmlChar (c : Char) : Bool :=
  let n := c.toNat
  n == 9 || n == 10 || n == 13 || (32 ≤ n && n != 0xfffe && n != 0xffff)

def isNameStart (c : Char) : Bool :=
  c.isAlpha || c == '_' || c == ':' || (127 < c.toNat && isWord c && !isDecimal c)

def isNameChar (c : Char) : Bool :=
  isNameStart c || c.isDigit || c == '-' || c == '.' || c.toNat == 0xb7 ||
    (127 < c.toNat && isWord c) || (0x300 ≤ c.toNat && c.toNat ≤ 0x36f)

def isSpace (c : Char) : Bool := c == ' ' || c == '\t' || c == '\n' || c == '\r'

def skipSpace (cs : List Char) : List Char := cs.dropWhile isSpace

def readName : List Char → Option (String × List Char)
  | [] => none
  | c :: cs =>
    if isNameStart c then
      some (String.ofList (c :: cs.takeWhile isNameChar), cs.dropWhile isNameChar)
    else none

def takeUntil (stop : List Char) : List Char → Option (List Char × List Char)
  | [] => none
  | c :: cs =>
    if stop.isPrefixOf (c :: cs) then some ([], (c :: cs).drop stop.length)
    else (takeUntil stop cs).map fun (l, r) => (c :: l, r)

def hexNumber? (cs : List Char) : Option Nat :=
  if cs.isEmpty then none
  else cs.foldlM (fun n c =>
    if c.isDigit then some (16 * n + (c.toNat - 48))
    else if 'a' ≤ c && c ≤ 'f' then some (16 * n + (c.toNat - 87))
    else if 'A' ≤ c && c ≤ 'F' then some (16 * n + (c.toNat - 55))
    else none) 0

def decimalNumber? (cs : List Char) : Option Nat :=
  if cs.isEmpty then none
  else cs.foldlM (fun n c => if c.isDigit then some (10 * n + (c.toNat - 48)) else none) 0

def charOfCode? (n : Nat) : Option Char :=
  if n < 0xd800 || (0xdfff < n && n < 0x110000) then
    let c := Char.ofNat n
    if isXmlChar c then some c else none
  else none

/-- The characters that a reference `&body;` stands for, and whether they are text for good; the
text of a declared entity is read again. -/
def reference? (entities : Table String (List Char)) (body : List Char) :
    Option (Bool × List Char) :=
  match body with
  | '#' :: 'x' :: ds => ((hexNumber? ds).bind charOfCode?).map fun c => (true, [c])
  | '#' :: ds => ((decimalNumber? ds).bind charOfCode?).map fun c => (true, [c])
  | _ =>
    match String.ofList body with
    | "lt" => some (true, ['<'])
    | "gt" => some (true, ['>'])
    | "amp" => some (true, ['&'])
    | "quot" => some (true, ['"'])
    | "apos" => some (true, ['\x27'])
    | name => (entities.get? name).map fun cs => (false, cs)

def attributeValue (entities : Table String (List Char)) (q : Char) :
    Nat → List Char → Option (List Char × List Char)
  | 0, _ => none
  | _ + 1, [] => none
  | fuel + 1, c :: cs =>
    if c == q then some ([], cs)
    else if c == '<' then none
    else if c == '&' then do
      let (body, rest) ← takeUntil [';'] cs
      let (done, value) ← reference? entities body
      if done then
        let (v, rest) ← attributeValue entities q fuel rest
        some (value ++ v, rest)
      else
        let (inner, _) ← attributeValue entities '\x00' fuel (value ++ ['\x00'])
        let (v, rest) ← attributeValue entities q fuel rest
        some (inner ++ v, rest)
    else if isXmlChar c || c == '\x00' then do
      let (v, rest) ← attributeValue entities q fuel cs
      some ((if isSpace c then ' ' else c) :: v, rest)
    else none

def attributes (entities : Table String (List Char)) :
    Nat → List Char → Option (List (String × String) × Bool × List Char)
  | 0, _ => none
  | fuel + 1, cs =>
    match skipSpace cs with
    | '>' :: rest => some ([], false, rest)
    | '/' :: '>' :: rest => some ([], true, rest)
    | cs' => do
      if cs'.length == cs.length then none
      let (name, rest) ← readName cs'
      match skipSpace rest with
      | '=' :: rest =>
        match skipSpace rest with
        | q :: rest =>
          if q == '"' || q == '\x27' then do
            let (value, rest) ← attributeValue entities q (fuel + 64 * rest.length + 64) rest
            let (more, selfClosed, rest) ← attributes entities fuel rest
            some ((name, String.ofList value) :: more, selfClosed, rest)
          else none
        | [] => none
      | _ => none

def expandCodes : Nat → List Char → Option (List Char)
  | 0, _ => none
  | _ + 1, [] => some []
  | fuel + 1, '&' :: '#' :: cs => do
    let (body, rest) ← takeUntil [';'] cs
    let (_, value) ← reference? Table.empty ('#' :: body)
    let more ← expandCodes fuel rest
    some (value ++ more)
  | fuel + 1, c :: cs => (expandCodes fuel cs).map (c :: ·)

def skipDeclaration : Option Char → List Char → Option (List Char)
  | _, [] => none
  | none, '>' :: cs => some cs
  | none, c :: cs => skipDeclaration (if c == '"' || c == '\x27' then some c else none) cs
  | some q, c :: cs => skipDeclaration (if c == q then none else some q) cs

def subset : Nat → Table String (List Char) → List Char →
    Option (Table String (List Char) × List Char)
  | 0, _, _ => none
  | fuel + 1, entities, cs =>
    match skipSpace cs with
    | ']' :: rest => some (entities, rest)
    | '<' :: '!' :: '-' :: '-' :: rest => do
      let (_, rest) ← takeUntil ['-', '-', '>'] rest
      subset fuel entities rest
    | '<' :: '?' :: rest => do
      let (_, rest) ← takeUntil ['?', '>'] rest
      subset fuel entities rest
    | '<' :: '!' :: 'E' :: 'N' :: 'T' :: 'I' :: 'T' :: 'Y' :: rest =>
      match readName (skipSpace rest) with
      | none => do
        let rest ← skipDeclaration none rest
        subset fuel entities rest
      | some (name, after) =>
        match skipSpace after with
        | q :: value =>
          if q == '"' || q == '\x27' then do
            let (value, rest) ← takeUntil [q] value
            let value ← expandCodes (value.length + 1) value
            match skipSpace rest with
            | '>' :: rest =>
              subset fuel
                (if entities.contains name then entities else entities.put name value) rest
            | _ => none
          else do
            let rest ← skipDeclaration none after
            subset fuel entities rest
        | [] => none
    | '<' :: '!' :: rest => do
      let rest ← skipDeclaration none rest
      subset fuel entities rest
    | '%' :: rest => do
      let (_, rest) ← takeUntil [';'] rest
      subset fuel entities rest
    | _ => none

def doctypeHead : List Char → Option (Bool × List Char)
  | [] => none
  | '[' :: cs => some (true, cs)
  | '>' :: cs => some (false, cs)
  | '"' :: cs =>
    match cs.dropWhile (· != '"') with
    | _ :: _ => doctypeHead cs
    | [] => none
  | c :: cs => if c == '<' then none else doctypeHead cs

def readDoctype (cs : List Char) : Option (Table String (List Char) × List Char) := do
  if (cs.head?.map isSpace) != some true then none
  let (_, rest) ← readName (skipSpace cs)
  let (internal, rest) ← doctypeHead rest
  if internal then
    let (entities, rest) ← subset (rest.length + 1) Table.empty rest
    match skipSpace rest with
    | '>' :: rest => some (entities, rest)
    | _ => none
  else some (Table.empty, rest)

namespace Event

def readFrom (entities : Table String (List Char)) : Nat → List Char → Option (List Event)
  | 0, _ => none
  | _ + 1, [] => some []
  | fuel + 1, '<' :: '!' :: '-' :: '-' :: cs => do
    let (body, rest) ← takeUntil ['-', '-'] cs
    if !body.all isXmlChar then none
    match rest with
    | '>' :: rest => readFrom entities fuel rest
    | _ => none
  | fuel + 1, '<' :: '!' :: '[' :: 'C' :: 'D' :: 'A' :: 'T' :: 'A' :: '[' :: cs => do
    let (body, rest) ← takeUntil [']', ']', '>'] cs
    if !body.all isXmlChar then none
    let more ← readFrom entities fuel rest
    some (.solid body :: more)
  | fuel + 1, '<' :: '!' :: 'D' :: 'O' :: 'C' :: 'T' :: 'Y' :: 'P' :: 'E' :: cs => do
    let (declared, rest) ← readDoctype cs
    let more ← readFrom declared fuel rest
    some (.doctype :: more)
  | fuel + 1, '<' :: '?' :: cs => do
    let (target, _) ← readName cs
    if lower target == "xml" then none
    let (_, rest) ← takeUntil ['?', '>'] cs
    readFrom entities fuel rest
  | fuel + 1, '<' :: '/' :: cs => do
    let (name, rest) ← readName cs
    match skipSpace rest with
    | '>' :: rest =>
      let more ← readFrom entities fuel rest
      some (.closed name :: more)
    | _ => none
  | fuel + 1, '<' :: cs => do
    let (name, rest) ← readName cs
    let (attrs, selfClosed, rest) ← attributes entities (rest.length + 1) rest
    let more ← readFrom entities fuel rest
    some (if selfClosed then .opened name attrs :: .closed name :: more
      else .opened name attrs :: more)
  | fuel + 1, '&' :: cs => do
    let (body, rest) ← takeUntil [';'] cs
    let (done, value) ← reference? entities body
    if done then
      let more ← readFrom entities fuel rest
      some (.solid value :: more)
    else
      let more ← readFrom entities fuel (value ++ rest)
      some (.solid [] :: more)
  | fuel + 1, c :: cs =>
    let run := (c :: cs).takeWhile fun c => c != '<' && c != '&'
    if run.all isXmlChar && !occursIn [']', ']', '>'] run then do
      let more ← readFrom entities fuel ((c :: cs).drop run.length)
      some (.text run :: more)
    else none

def skipHeader (cs : List Char) : Option (List Char) :=
  match cs with
  | '<' :: '?' :: 'x' :: 'm' :: 'l' :: c :: rest =>
    if isSpace c then (takeUntil ['?', '>'] rest).map Prod.snd else some cs
  | _ => some cs

def read (document : String) : Option (List Event) := do
  let cs := unixChars document.toList
  let cs := match cs with
    | c :: rest => if c.toNat == 0xfeff then rest else c :: rest
    | [] => []
  let cs ← skipHeader cs
  readFrom Table.empty (64 * cs.length + 64) cs

end Event

end RosAudit.Xml
