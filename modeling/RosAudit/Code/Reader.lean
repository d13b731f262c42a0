import RosAudit.Code.Syntax

/-!
# Programs as data

A program can be described by data: a list of functions, each a record with a name and a body. A
record with the key `call`, `var`, `op` or `default` is an expression of that kind and anything
else a literal; a record with the key `decl`, `if` or `while` is a statement of that kind.

Reading follows the order of the program, so that a variable refers to the last declaration of
its name before it.
-/

namespace RosAudit

namespace Value

theorem sizeOf_lt_of_mem_entries {es : List (Value × Value)} {e : Value × Value} (h : e ∈ es) :
    sizeOf e.2 < sizeOf (Value.record es) := by
  have h₁ := List.sizeOf_lt_of_mem h
  have h₂ : sizeOf e.2 < sizeOf e := by
    cases e
    simp only [Prod.mk.sizeOf_spec]
    omega
  simp only [record.sizeOf_spec]
  omega

/-- An entry of a record is smaller than the record. -/
theorem sizeOf_field?_lt {v x : Value} {k : String} (h : v.field? k = some x) :
    sizeOf x < sizeOf v := by
  cases v <;> simp only [field?, reduceCtorEq] at h
  obtain ⟨e, he, rfl⟩ := Option.map_eq_some_iff.1 h
  exact sizeOf_lt_of_mem_entries (List.mem_of_find?_eq_some he)

/-- The items of an entry are no larger than the record. -/
theorem sizeOf_items_le (v : Value) (k : String) : sizeOf (v.field k).items ≤ sizeOf v := by
  unfold field
  cases h : v.field? k with
  | none => cases v <;> simp [items]
  | some x =>
    have h₁ := sizeOf_field?_lt h
    cases x <;> simp only [Option.getD_some, items, List.nil.sizeOf_spec, list.sizeOf_spec] at * <;>
      omega

end Value

namespace Code

/-- The declarations made so far, the last one first, each with its value if it has one. -/
abbrev Declared := List (String × Option Expr)

def textAt? (v : Value) (k : String) : Option String := (v.field k).asText?

def headOf (v : Value) (object : Option Expr) : CallHead :=
  let name := (textAt? v "call").getD ""
  let type := (textAt? v "type").getD "int"
  let onType := object.map fun o => (o.result?.getD "") ++ "::" ++ name
  { name, type, canonicalType := (textAt? v "ctype").getD type
    fullName := (textAt? v "full_name").getD (onType.getD name)
    template := (v.field "template").items.filterMap Value.asText?
    file := textAt? v "file", line := (v.field "line").asInt?
    reference := textAt? v "usr", callee := textAt? v "fn" }

mutual

def exprOf (env : Declared) (v : Value) : Expr :=
  let args := exprsOf env (v.field "args").items
  match v.field? "call", v.field? "var", v.field? "op", v.field? "default" with
  | some _, _, _, _ =>
    let object := match _h : v.field? "on" with
      | some o => if o.isNull then none else some (exprOf env o)
      | none => none
    .call (headOf v object) args object
  | _, some _, _, _ =>
    let name := (textAt? v "var").getD ""
    .var name ((textAt? v "type").getD "int") (env.lookup name)
  | _, _, some _, _ =>
    .operator ((textAt? v "op").getD "") ((textAt? v "type").getD "int") args
  | _, _, _, some _ => .defaultArg ((textAt? v "type").getD "int")
  | _, _, _, _ => .literal v
termination_by (sizeOf v, 1)
decreasing_by
  · have h := Value.sizeOf_items_le v "args"
    rcases Nat.lt_or_eq_of_le h with h | h
    · exact Prod.Lex.left _ _ h
    · exact h ▸ Prod.Lex.right _ (by decide)
  · exact Prod.Lex.left _ _ (Value.sizeOf_field?_lt _h)

def exprsOf (env : Declared) : List Value → List Expr
  | [] => []
  | x :: xs => exprOf env x :: exprsOf env xs
termination_by xs => (sizeOf xs, 0)

end

mutual

def stmtOf (env : Declared) (v : Value) : Stmt × Declared :=
  match v.field? "decl", v.field? "if", v.field? "while" with
  | some d, _, _ =>
    let value := match v.field "value" with
      | .null => none
      | e => some (exprOf env e)
    let name := d.asText?.getD ""
    (.decl name value, (name, value) :: env)
  | _, some c, _ =>
    let c := exprOf env c
    let (thens, env) := stmtsOf env (v.field "then").items
    let (elses, env) := stmtsOf env (v.field "else").items
    (.branch c thens elses, env)
  | _, _, some c =>
    let c := exprOf env c
    let (body, env) := stmtsOf env (v.field "body").items
    (.loop c body, env)
  | _, _, _ => (.expr (exprOf env (v.field "expr")), env)
termination_by (sizeOf v, 1)
decreasing_by
  all_goals
    rcases Nat.lt_or_eq_of_le (Value.sizeOf_items_le v _) with h | h
    · exact Prod.Lex.left _ _ h
    · exact h ▸ Prod.Lex.right _ (by decide)

def stmtsOf (env : Declared) : List Value → List Stmt × Declared
  | [] => ([], env)
  | x :: xs =>
    let (s, env) := stmtOf env x
    let (ss, env) := stmtsOf env xs
    (s :: ss, env)
termination_by xs => (sizeOf xs, 0)

end

def Program.ofValue (v : Value) : Program :=
  let (functions, _) := v.items.foldl (fun (fs, env) f =>
    let (body, env) := stmtsOf env (f.field "body").items
    (fs ++ [⟨(textAt? f "name").getD "", body⟩], env)) (([] : List Function), ([] : Declared))
  ⟨functions⟩

end Code

end RosAudit
