import RosAudit.Yaml.Node

/-!
# Values of a data document

`Yaml.load` gives the value of a text. The kind of a bare scalar follows from its text: the words
for truth and nothing, numerals with underscores, in base two, eight, ten or sixteen or in minutes
and seconds, and dates. Everything else is text.
-/

namespace RosAudit.Yaml

/-! ## Kinds of bare scalars -/

/-- The kinds that a bare scalar can have. -/
inductive ScalarKind where
  | bool
  | float
  | int
  | merge
  | null
  | timestamp
  | value
  | text
  deriving DecidableEq

def trueWords : List String := ["yes", "Yes", "YES", "true", "True", "TRUE", "on", "On", "ON"]

def falseWords : List String := ["no", "No", "NO", "false", "False", "FALSE", "off", "Off", "OFF"]

def nullWords : List String := ["", "~", "null", "Null", "NULL"]

def isDigitOrGap (c : Char) : Bool := c.isDigit || c == '_'

def minuteGroups : List Char → List Char
  | ':' :: a :: b :: cs =>
    if a.isDigit && a ≤ '5' && b.isDigit then minuteGroups cs
    else if a.isDigit then minuteGroups (b :: cs) else ':' :: a :: b :: cs
  | [':', a] => if a.isDigit then [] else [':', a]
  | cs => cs

def endsWithExponent : List Char → Bool
  | [] => true
  | e :: s :: ds =>
    (e == 'e' || e == 'E') && (s == '-' || s == '+') && !ds.isEmpty && ds.all Char.isDigit
  | _ => false

def looksFloat (cs : List Char) : Bool :=
  let body := (Decimal.readSign cs).2
  let whole := match body with
    | d :: ds =>
      d.isDigit &&
        match ds.dropWhile isDigitOrGap with
        | '.' :: frac => endsWithExponent (frac.dropWhile isDigitOrGap)
        | ':' :: more =>
          match minuteGroups (':' :: more) with
          | '.' :: frac => frac.all isDigitOrGap
          | _ => false
        | _ => false
    | [] => false
  let fraction := match cs with
    | '.' :: d :: ds => d.isDigit && endsWithExponent (ds.dropWhile isDigitOrGap)
    | _ => false
  let word := String.ofList body
  whole || fraction || [".inf", ".Inf", ".INF"].contains word ||
    [".nan", ".NaN", ".NAN"].contains (String.ofList cs)

def looksInt (cs : List Char) : Bool :=
  match (Decimal.readSign cs).2 with
  | '0' :: 'b' :: ds => !ds.isEmpty && ds.all fun c => c == '0' || c == '1' || c == '_'
  | '0' :: 'x' :: ds => !ds.isEmpty && ds.all fun c => (hexValue? c).isSome || c == '_'
  | '0' :: ds => ds.all fun c => c == '_' || ('0' ≤ c && c ≤ '7')
  | d :: ds =>
    d.isDigit &&
      match ds.dropWhile isDigitOrGap with
      | [] => true
      | rest => minuteGroups rest == []
  | [] => false

/-- The parts of a date at the front of a text: year, month, day and the rest. The day and the
month have two digits, or one if `loose`. -/
def datePart? (loose : Bool) (cs : List Char) : Option (Nat × Nat × Nat × List Char) :=
  let two (cs : List Char) : Option (Nat × List Char) :=
    let ds := (cs.take 2).takeWhile Char.isDigit
    if ds.length == 2 || (loose && ds.length == 1) then
      some (Decimal.natOfDigits ds, cs.drop ds.length)
    else none
  let year := cs.take 4
  if year.length == 4 && year.all Char.isDigit then
    match cs.drop 4 with
    | '-' :: cs =>
      match two cs with
      | some (m, '-' :: cs) => (two cs).map fun (d, cs) => (Decimal.natOfDigits year, m, d, cs)
      | _ => none
    | _ => none
  else none

def looksTimestamp (cs : List Char) : Bool :=
  let clock (cs : List Char) : Bool :=
    let hour := (cs.take 2).takeWhile Char.isDigit
    let rest := cs.drop hour.length
    let digit (i : Nat) : Bool := (rest.getD i ' ').isDigit
    if hour.isEmpty || rest.getD 0 ' ' != ':' || !digit 1 || !digit 2 || rest.getD 3 ' ' != ':' ||
      !digit 4 || !digit 5 then false
    else
      let rest := match rest.drop 6 with
        | '.' :: cs => cs.dropWhile Char.isDigit
        | cs => cs
      if rest.isEmpty then true
      else match rest.dropWhile fun c => c == ' ' || c == '\t' with
        | ['Z'] => true
        | s :: cs =>
          let ds := (cs.take 2).takeWhile Char.isDigit
          (s == '-' || s == '+') && !ds.isEmpty &&
            match cs.drop ds.length with
            | [] => true
            | [':', a, b] => a.isDigit && b.isDigit
            | _ => false
        | [] => false
  match datePart? false cs with
  | some (_, _, _, []) => true
  | _ =>
    match datePart? true cs with
    | some (_, _, _, c :: cs) =>
      if c == 'T' || c == 't' then clock cs
      else (c == ' ' || c == '\t') && clock (cs.dropWhile fun c => c == ' ' || c == '\t')
    | _ => false

def kindOf (text : String) : ScalarKind :=
  let cs := text.toList
  if trueWords.contains text || falseWords.contains text then .bool
  else if looksFloat cs then .float
  else if looksInt cs then .int
  else if text == "<<" then .merge
  else if nullWords.contains text then .null
  else if looksTimestamp cs then .timestamp
  else if text == "=" then .value
  else .text

/-! ## Values of scalars -/

def digitsIn (base : Nat) (cs : List Char) : Option Int :=
  if cs.isEmpty then none
  else (cs.foldlM (fun n c => (hexValue? c).bind fun d =>
    if d < base then some (base * n + d) else none) 0).map Int.ofNat

def intValue (text : String) : Result Value := do
  let (neg, cs) := Decimal.readSign (text.toList.filter (· != '_'))
  let size : Option Int := match cs with
    | ['0'] => some 0
    | '0' :: 'b' :: ds => digitsIn 2 ds
    | '0' :: 'x' :: ds => digitsIn 16 ds
    | '0' :: ds => digitsIn 8 ds
    | cs =>
      let groups := Text.splitOnChar ':' (String.ofList cs)
      groups.foldlM (fun n g => (Decimal.readInt? g).map (60 * n + ·)) 0
  match size with
  | some n => pure (.int (if neg then -n else n))
  | none => throw .unreadableValue

def floatValue (text : String) : Result Value := do
  let (neg, cs) := Decimal.readSign ((text.toList.filter (· != '_')).map Char.toLower)
  let sign (x : Float) : Value := .float (if neg then -x else x)
  let word := String.ofList cs
  if word == ".inf" then pure (sign (1.0 / 0.0))
  else if word == ".nan" then pure (.float (0.0 / 0.0))
  else
    let parts ← (Text.splitOnChar ':' word).mapM fun g =>
      match Decimal.readFloat? g with
      | some x => pure x
      | none => throw .unreadableValue
    match parts with
    | [x] => pure (sign x)
    | parts =>
      pure (sign (parts.reverse.foldl (fun (sum, base) x => (sum + x * base, base * 60.0))
        ((0.0 : Float), (1.0 : Float))).1)

def timestampValue (text : String) : Result Value :=
  match datePart? true text.toList with
  | some (_, m, d, _) =>
    if 1 ≤ m ∧ m ≤ 12 ∧ 1 ≤ d ∧ d ≤ 31 then pure (.stamp text) else throw .unreadableValue
  | none => throw .unreadableValue

def scalarValue (kind : ScalarKind) (text : String) : Result Value :=
  match kind with
  | .bool =>
    let low := String.ofList (text.toList.map Char.toLower)
    if trueWords.contains low then pure (.bool true)
    else if falseWords.contains low then pure (.bool false)
    else throw .noKey
  | .float => floatValue text
  | .int => intValue text
  | .null => pure .null
  | .timestamp => timestampValue text
  | .text => pure (.text text)
  | .merge | .value => throw (.yaml .construction)

def kindNames : List (String × ScalarKind) :=
  [("bool", .bool), ("float", .float), ("int", .int), ("merge", .merge), ("null", .null),
   ("timestamp", .timestamp), ("value", .value), ("str", .text)]

namespace Node

def scalarKind? (tag : Option String) (text : String) (plain : Bool) : Option ScalarKind :=
  match tag with
  | none => some (if plain then kindOf text else .text)
  | some t => kindNames.findSome? fun (n, k) => if t == standard ++ n then some k else none

def isMergeKey : Node → Bool
  | .scalar tag text plain => scalarKind? tag text plain == some .merge
  | _ => false

mutual

def flatEntries : Nat → List (Node × Node) → Result (List (Node × Node))
  | 0, _ => throw .tooDeep
  | n + 1, es => do
    let merged ← mergedEntries n es
    pure (merged ++ es.filter fun e => !e.1.isMergeKey)

def mergedEntries : Nat → List (Node × Node) → Result (List (Node × Node))
  | 0, _ => throw .tooDeep
  | _, [] => pure []
  | n + 1, (k, v) :: es => do
    let here ←
      if k.isMergeKey then
        match v with
        | .mapping _ inner => flatEntries n inner
        | .sequence _ xs => do
          let parts ← xs.mapM fun x =>
            match x with
            | .mapping _ inner => flatEntries n inner
            | _ => throw (.yaml .construction)
          pure (parts.reverse.flatten)
        | _ => throw (.yaml .construction)
      else pure []
    return here ++ (← mergedEntries n es)

end

def isKey : Value → Bool
  | .list _ | .record _ => false
  | _ => true

def toValue : Nat → Node → Result Value
  | 0, _ => throw .tooDeep
  | _ + 1, .scalar tag text plain =>
    match scalarKind? tag text plain with
    | some k => scalarValue k text
    | none => throw (.yaml .construction)
  | n + 1, .sequence tag xs => do
    if !(tag.isNone || tag == some (standard ++ "seq")) then throw (.yaml .construction)
    return .list (← xs.mapM (toValue n))
  | n + 1, .mapping tag es => do
    if !(tag.isNone || tag == some (standard ++ "map")) then throw (.yaml .construction)
    let es ← flatEntries (n + 1) es
    let es ← es.mapM fun (k, v) => do
      let key ← match k with
        | .scalar none "=" true => pure (Value.text "=")
        | k => toValue n k
      if !isKey key then throw (.yaml .construction)
      return (key, ← toValue n v)
    pure (Value.recordOf es)

end Node

def load (text : String) : Result Value := do
  match ← Node.ofText? text with
  | none => pure .null
  | some x => x.toValue (text.length + 8)

end RosAudit.Yaml
