import RosAudit.Code.Syntax
import RosAudit.Number

/-!
# Values and texts of expressions

`Expr.resolve` follows variables to their declared values and computes with literals; what cannot
be computed stays as it is. `Expr.shown` is the text of an expression as it is put into reports.
-/

namespace RosAudit.Code

/-! ## Arithmetic -/

open Number

def repeatText (s : String) (n : Int) : String := String.join (List.replicate n.toNat s)

def binary (token : String) (a b : Value) : Result Value :=
  match token, a, b with
  | "+", .text s, .text t => pure (.text (s ++ t))
  | "*", .text s, v =>
    match integer? v with
    | some n => pure (.text (repeatText s n))
    | none => throw .wrongKind
  | "*", v, .text s =>
    match integer? v with
    | some n => pure (.text (repeatText s n))
    | none => throw .wrongKind
  | _, _, _ => arithmetic token a b

def signed (token : String) (a : Value) : Option Value :=
  match token, a with
  | "+", .text s =>
    match Decimal.readInt? s with
    | some n => some (.int n)
    | none => (Decimal.readFloat? s).map .float
  | "+", .float x => some (.float x)
  | "-", .float x => some (.float (-x))
  | "+", v => (integer? v).map .int
  | "-", v => (integer? v).map fun n => .int (-n)
  | _, _ => none

def operate (token : String) (args : List Value) : Result (Option Value) :=
  match args with
  | [a, b] =>
    if ["+", "-", "*", "/", "%"].contains token then return some (← binary token a b)
    else pure none
  | [a] => pure (signed token a)
  | _ => pure none

/-! ## Resolution -/

mutual

/-- What an expression is found to stand for; nothing for a variable that is not known. -/
def Expr.resolve : Expr → Result (Option Expr)
  | .var _ _ (some (some e)) => Expr.resolve e
  | .var _ _ _ => pure none
  | .operator token type args => do
    let same := some (Expr.operator token type args)
    match ← resolveAll args with
    | none => pure same
    | some vs =>
      match ← operate token vs with
      | some v => pure (some (.literal v))
      | none => pure same
  | e => pure (some e)

def resolveAll : List Expr → Result (Option (List Value))
  | [] => pure (some [])
  | e :: es => do
    match ← Expr.resolve e with
    | some (.literal v) =>
      match ← resolveAll es with
      | some vs => pure (some (v :: vs))
      | none => pure none
    | _ => pure none

end

def Expr.resolveVariable : Expr → Result (Option Expr)
  | .var name type declared => Expr.resolve (.var name type declared)
  | _ => throw .broken

/-! ## Texts -/

def infixTokens : List String :=
  ["+", "-", "*", "/", "%", "&", "|", "^", "<<", ">>", "<", ">", "<=", ">=", "==", "!=", "&&",
   "||", "=", "+=", "-=", "*=", "/=", "%=", "<<=", ">>=", "&=", "|=", "^=", ","]

def lastPart (s : String) : String := (s.splitOn "::").getLastD ""

def CallHead.isConstructor (h : CallHead) : Bool :=
  let type := lastPart (String.ofList (h.canonicalType.toList.takeWhile (· != '<')))
  let cs := type.toList
  let cs := if [' ', '*'].reverse.isPrefixOf cs.reverse then cs.dropLast.dropLast else cs
  String.ofList cs == h.name

def CallHead.templateText (h : CallHead) : String :=
  if h.template.isEmpty then "" else "<" ++ ",".intercalate h.template ++ ">"

mutual

def Expr.shown : Expr → Result String
  | .literal v => pure v.shown
  | .var name _ _ => pure name
  | .defaultArg _ => pure "(default)"
  | .operator token _ args => do
    match ← shownAll args with
    | [a] =>
      match token.toList with
      | '_' :: rest => pure (a ++ String.ofList rest)
      | _ => pure (token ++ a)
    | a :: b :: _ => pure (a ++ " " ++ token ++ " " ++ b)
    | [] => throw .outOfRange
  | .call h args object => do
    let texts ← shownAll args
    let token := String.ofList (h.name.toList.drop 8)
    if infixTokens.contains token then
      match texts with
      | a :: b :: _ => pure (a ++ " " ++ token ++ " " ++ b)
      | _ => throw .outOfRange
    else
      let rest := h.name ++ h.templateText ++ "(" ++ ", ".intercalate texts ++ ")"
      match object with
      | none => pure (if h.isConstructor then "new " ++ rest else rest)
      | some (.call g inner o) =>
        if g.name == "operator->" then
          match ← shownAll inner with
          | a :: _ => pure (a ++ "->" ++ rest)
          | [] => throw .outOfRange
        else return (← Expr.shown (.call g inner o)) ++ "." ++ rest
      | some o => return (← Expr.shown o) ++ "." ++ rest

def shownAll : List Expr → Result (List String)
  | [] => pure []
  | e :: es => do
    let t ← Expr.shown e
    let ts ← shownAll es
    pure (t :: ts)

end

end RosAudit.Code
