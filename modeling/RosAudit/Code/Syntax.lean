import RosAudit.Value

/-!
# Programs

The part of a program that an audit looks at: functions with their statements, and expressions
with calls, variables, operators and literals. A variable knows the value of the declaration it
refers to.

`Program.sites` lists every call of a program in reading order, each with the function and the
bodies of branches and loops around it. `CallSite.depth`, `CallSite.conditions` and
`CallSite.repeats` speak about these, and about the places from which the function is called.
-/

namespace RosAudit.Code

/-- What is said of a call apart from its arguments. -/
structure CallHead where
  name : String
  type : String := "int"
  canonicalType : String := "int"
  fullName : String
  template : List String := []
  file : Option String := none
  line : Option Int := none
  reference : Option String := none
  callee : Option String := none
  deriving DecidableEq, Inhabited

/-- An expression. A variable that refers to a declaration has the value that was declared, if
one was. -/
inductive Expr where
  | literal (v : Value)
  | call (head : CallHead) (args : List Expr) (object : Option Expr)
  | var (name type : String) (declared : Option (Option Expr))
  | operator (token type : String) (args : List Expr)
  | defaultArg (type : String)
  deriving Inhabited

def plainType (type : String) : String :=
  if Text.startsWith "const ".toList type.toList then String.ofList (type.toList.drop 6) else type

def Expr.result? : Expr → Option String
  | .literal _ => none
  | .call h _ _ => some (plainType h.type)
  | .var _ type _ => some (plainType type)
  | .operator _ type _ => some (plainType type)
  | .defaultArg type => some (plainType type)

inductive Stmt where
  | expr (e : Expr)
  | decl (name : String) (value : Option Expr)
  | branch (condition : Expr) (thens elses : List Stmt)
  | loop (condition : Expr) (body : List Stmt)

structure Function where
  name : String
  body : List Stmt

structure Program where
  functions : List Function := []

/-- The body of a branch or a loop, with its condition. -/
structure Body where
  condition : Expr
  isLoop : Bool

/-- A call where it stands; the innermost body comes first. -/
structure CallSite where
  head : CallHead
  args : List Expr
  object : Option Expr
  function : String
  around : List Body

mutual

def exprSites (function : String) (around : List Body) : Expr → List CallSite
  | .call head args object =>
    let inObject := match object with
      | none => []
      | some o => exprSites function around o
    { head, args, object, function, around } :: inObject ++ exprsSites function around args
  | .operator _ _ args => exprsSites function around args
  | _ => []

def exprsSites (function : String) (around : List Body) : List Expr → List CallSite
  | [] => []
  | e :: es => exprSites function around e ++ exprsSites function around es

end

mutual

def stmtSites (function : String) (around : List Body) : Stmt → List CallSite
  | .expr e => exprSites function around e
  | .decl _ none => []
  | .decl _ (some e) => exprSites function around e
  | .branch c thens elses =>
    exprSites function around c ++ stmtsSites function (⟨c, false⟩ :: around) thens ++
      stmtsSites function (⟨c, false⟩ :: around) elses
  | .loop c body =>
    exprSites function around c ++ stmtsSites function (⟨c, true⟩ :: around) body

def stmtsSites (function : String) (around : List Body) : List Stmt → List CallSite
  | [] => []
  | s :: ss => stmtSites function around s ++ stmtsSites function around ss

end

def Program.sites (p : Program) : List CallSite :=
  p.functions.flatMap fun f => stmtsSites f.name [] f.body

namespace CallSite

def callers (sites : List CallSite) (c : CallSite) : List CallSite :=
  sites.filter fun d => d.head.callee == some c.function

/-- How deep a call stands in branches and loops, those around the deepest call of its function
included. -/
def depth (sites : List CallSite) (c : CallSite) : Nat :=
  c.around.length + ((c.callers sites).map fun d => d.around.length).foldl max 0

def conditions (sites : List CallSite) (c : CallSite) : List Expr :=
  (c.around ++ (c.callers sites).flatMap fun d => d.around).map Body.condition

def repeats (sites : List CallSite) (c : CallSite) : Bool :=
  c.around.any Body.isLoop || (c.callers sites).any fun d => d.around.any Body.isLoop

end CallSite

end RosAudit.Code
