import RosAudit.Decimal.Reader
import RosAudit.Decimal.Shortest
import RosAudit.Table
import RosAudit.Text.Quoted

/-!
# Data values

Parameters, hints, settings, caches and exported reports all carry data whose shape the audit
does not fix: whatever a data file can hold. `Value` is that data. Records list their entries in
insertion order, and a key may be any value.

Numbers of the three numeric kinds (`bool` counts as one) are equal when their magnitudes are:
`Value.same` is that equality, which decides key collisions. `Value.shown` is the text of a value
as it stands inside messages, and `Value.display` the text of a value on its own.
-/

namespace RosAudit

/-- Data of any shape. -/
inductive Value where
  | null
  | bool (b : Bool)
  | int (n : Int)
  | float (x : Float)
  | text (s : String)
  | list (xs : List Value)
  | record (es : List (Value × Value))
  | stamp (s : String)
  | member (xs : List Value)
  deriving Inhabited

namespace Value

def object (es : List (String × Value)) : Value := .record (es.map fun e => (.text e.1, e.2))

def texts (ss : List String) : Value := .list (ss.map .text)

def nat (n : Nat) : Value := .int n

def text? : Option String → Value
  | some s => .text s
  | none => .null

/-- The numeric value of a boolean, an integer or a double as an exact fraction `num / 2^e`, or
`none` for other kinds and for doubles that are not finite. -/
def magnitude? : Value → Option (Int × Nat)
  | .bool b => some (if b then 1 else 0, 0)
  | .int n => some (n, 0)
  | .float x =>
    if x.isNaN || x.isInf then none
    else
      let (m, e) := Decimal.decode x.abs.toBits
      let (num, den) := Decimal.fraction m e
      let num : Int := if x < 0.0 then -(num : Int) else num
      some (num, Nat.log2 den)
  | _ => none

def sameNumber (a b : Value) : Bool :=
  match a, b with
  | .float x, .float y => x == y
  | _, _ =>
    match magnitude? a, magnitude? b with
    | some (m, i), some (n, j) => m * Int.pow 2 j == n * Int.pow 2 i
    | _, _ => false

mutual

/-- Equality of values: numbers by magnitude, lists item by item, records without regard to
order. -/
def same : Value → Value → Bool
  | .null, .null => true
  | .text s, .text t => s == t
  | .stamp s, .stamp t => s == t
  | .list xs, .list ys => sameList xs ys
  | .record es, .record fs => es.length == fs.length && sameEntries es fs
  | .member xs, .member ys => sameList xs ys
  | .bool a, b => sameNumber (.bool a) b
  | .int a, b => sameNumber (.int a) b
  | .float a, b => sameNumber (.float a) b
  | _, _ => false

def sameList : List Value → List Value → Bool
  | [], [] => true
  | x :: xs, y :: ys => same x y && sameList xs ys
  | _, _ => false

def sameEntries : List (Value × Value) → List (Value × Value) → Bool
  | [], _ => true
  | (k, v) :: es, fs => (fs.any fun f => same k f.1 && same v f.2) && sameEntries es fs

end

instance : BEq Value := ⟨same⟩

def less (a b : Value) : Bool :=
  match a, b with
  | .float x, .float y => x < y
  | .float x, b =>
    match magnitude? (.float x), magnitude? b with
    | some (m, i), some (n, j) => m * Int.pow 2 j < n * Int.pow 2 i
    | none, some _ => x < 0.0
    | _, none => false
  | a, .float y =>
    match magnitude? a, magnitude? (.float y) with
    | some (m, i), some (n, j) => m * Int.pow 2 j < n * Int.pow 2 i
    | some _, none => y > 0.0
    | none, _ => false
  | a, b =>
    match magnitude? a, magnitude? b with
    | some (m, i), some (n, j) => m * Int.pow 2 j < n * Int.pow 2 i
    | _, _ => false

def isNumber : Value → Bool
  | .bool _ => true
  | .int _ => true
  | .float _ => true
  | _ => false

/-- Does the value count as true in a test: not null, false, zero or empty? -/
def truthy : Value → Bool
  | .null => false
  | .bool b => b
  | .int n => n != 0
  | .float x => !(x == 0.0)
  | .text s => !s.isEmpty
  | .list xs => !xs.isEmpty
  | .record es => !es.isEmpty
  | .stamp _ => true
  | .member xs => !xs.isEmpty

def isText (v : Value) (s : String) : Bool :=
  match v with
  | .text t => t == s
  | _ => false

def field? (v : Value) (k : String) : Option Value :=
  match v with
  | .record es => (es.find? fun e => e.1.isText k).map Prod.snd
  | _ => none

/-- The entry of a record at a text key, null if there is none. -/
def field (v : Value) (k : String) : Value := (v.field? k).getD .null

def items : Value → List Value
  | .list xs => xs
  | _ => []

def fields : Value → List (String × Value)
  | .record es => es.filterMap fun
    | (.text k, v) => some (k, v)
    | _ => none
  | _ => []

def asText? : Value → Option String
  | .text s => some s
  | _ => none

def asInt? : Value → Option Int
  | .int n => some n
  | _ => none

def isNull : Value → Bool
  | .null => true
  | _ => false

mutual

/-- A value as it stands inside a message: texts quoted, words for the constants. -/
def shown : Value → String
  | .null => "None"
  | .bool true => "True"
  | .bool false => "False"
  | .int n => toString n
  | .float x => Decimal.floatText x
  | .text s => Text.quote s
  | .list xs => "[" ++ ", ".intercalate (showAll xs) ++ "]"
  | .record es => "\x7b" ++ ", ".intercalate (showEntries es) ++ "\x7d"
  | .stamp s => s
  | .member xs =>
    if xs.isEmpty then "set()" else "\x7b" ++ ", ".intercalate (showAll xs) ++ "\x7d"

def showAll : List Value → List String
  | [] => []
  | x :: xs => shown x :: showAll xs

def showEntries : List (Value × Value) → List String
  | [] => []
  | (k, v) :: es => (shown k ++ ": " ++ shown v) :: showEntries es

end

/-- A value on its own: a text as it is, anything else as shown. -/
def display : Value → String
  | .text s => s
  | v => v.shown

def putEntry (k v : Value) (es : List (Value × Value)) : List (Value × Value) :=
  Table.putEntry k v es

/-- The record of these entries: of equal keys the first gives the place, the last the value. -/
def recordOf (es : List (Value × Value)) : Value :=
  .record (es.foldl (fun acc e => putEntry e.1 e.2 acc) [])

def toTable (v : Value) : Table String Value := Table.ofList v.fields

def ofTable {α : Type} (f : α → Value) (t : Table String α) : Value :=
  object (t.entries.map fun e => (e.1, f e.2))

end Value

end RosAudit
