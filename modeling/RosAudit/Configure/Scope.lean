import RosAudit.Model.Graph
import RosAudit.Yaml.Document

/-!
# Scopes of a launch file

While a launch file is worked through, groups, inclusions and nodes open scopes. A `LaunchScope`
has the namespace in which names are used, the renamings in force, the guards under which its
tags count, and the private parameters that wait for a node.

A value in a launch file has a type, stated or guessed: `convertValue`. A value that is a record
stands for one parameter for each of its leaves: `unfold`.
-/

namespace RosAudit

open RosAudit.Text

/-! ## Values of parameters -/

/-- Why a text is not a value of the type that was asked for. -/
inductive Unconvertible where
  | notInt (s : String)
  | notDouble (s : String)
  | notBool (s type : String)
  | notYaml
  | unknownType (type : String)
  | failed (f : Fault)

namespace Unconvertible

def text : Unconvertible → String
  | notInt s => "invalid literal for int() with base 10: " ++ quote s
  | notDouble s => "could not convert string to float: " ++ quote s
  | notBool s type => s ++ " is not a '" ++ type ++ "' type"
  | notYaml => "<yaml error>"
  | unknownType type => "Unknown type '" ++ type ++ "'"
  | failed _ => ""

def fault : Unconvertible → Fault
  | notInt _ => .unreadableValue
  | notDouble _ => .unreadableValue
  | failed f => f
  | u => .invalidValue u.text

end Unconvertible

def convertBool (s type : String) : Except Unconvertible Value :=
  let s := trim (lower s)
  if s == "true" || s == "1" then pure (.bool true)
  else if s == "false" || s == "0" then pure (.bool false)
  else throw (.notBool s type)

/-- A text whose type is not stated: a number, a truth value, or the text itself. -/
def guessValue (s : String) : Except Unconvertible Value :=
  let number : Option Value :=
    if s.toList.contains '.' then (Decimal.readFloat? s).map .float
    else (Decimal.readInt? s).map .int
  match number with
  | some v => pure v
  | none =>
    if lower s == "true" || lower s == "false" then convertBool s "bool" else pure (.text s)

def convertValue (s : String) : Option String → Except Unconvertible Value
  | none => guessValue s
  | some "str" => pure (.text s)
  | some "string" => pure (.text s)
  | some "int" =>
    match Decimal.readInt? s with
    | some n => pure (.int n)
    | none => throw (.notInt s)
  | some "double" =>
    match Decimal.readFloat? s with
    | some x => pure (.float x)
    | none => throw (.notDouble s)
  | some "bool" => convertBool s "bool"
  | some "boolean" => convertBool s "boolean"
  | some "yaml" =>
    match Yaml.load s with
    | .ok v => pure v
    | .error (.yaml .parsing) => throw .notYaml
    | .error f => throw (.failed f)
  | some type => throw (.unknownType type)

def joinName (name ns : String) : String :=
  match name.toList.head? with
  | some '~' => name
  | some '/' => name
  | _ =>
    if ns == "~" then "~" ++ name
    else if ns.isEmpty then name
    else if ns.toList.getLast? == some '/' then ns ++ name
    else ns ++ "/" ++ name

/-- Puts the entries of a record on a stack, the last on top, each with its namespace and key. -/
def pushEntries (ns : String) (es : List (Value × Value)) (stack : List (String × Value × Value)) :
    List (String × Value × Value) :=
  es.foldl (fun stack e => (ns, e.1, e.2) :: stack) stack

theorem pushEntries_eq (ns : String) (es : List (Value × Value))
    (stack : List (String × Value × Value)) :
    pushEntries ns es stack = (es.reverse.map fun e => (ns, e.1, e.2)) ++ stack := by
  simp [pushEntries]

/-- How much is on a stack. -/
noncomputable def stackSize : List (String × Value × Value) → Nat
  | [] => 0
  | x :: stack => sizeOf x.2.2 + 1 + stackSize stack

theorem stackSize_pushEntries_le (ns : String) (es : List (Value × Value)) :
    ∀ stack, stackSize (pushEntries ns es stack) ≤ sizeOf es + stackSize stack := by
  induction es with
  | nil => exact fun stack => Nat.le_add_left _ _
  | cons e es ih =>
    intro stack
    have h := ih ((ns, e.1, e.2) :: stack)
    obtain ⟨k, v⟩ := e
    simp only [stackSize, List.cons.sizeOf_spec, Prod.mk.sizeOf_spec] at h ⊢
    exact Nat.le_trans h (by omega)

/-- The leaves of the values on a stack, with their names. -/
def unfoldAll : List (String × Value × Value) → Result (List (String × Value × Bool))
  | [] => pure []
  | (ns, .text key, .record es) :: stack => unfoldAll (pushEntries (joinName key ns) es stack)
  | (ns, .text key, v) :: stack => do
    let rest ← unfoldAll stack
    pure ((joinName key ns, v, joinName key ns == key) :: rest)
  | _ => throw .noField
termination_by stack => stackSize stack
decreasing_by
  · have h := stackSize_pushEntries_le (joinName key ns) es stack
    simp only [stackSize, Value.record.sizeOf_spec]
    omega
  · simp only [stackSize]
    omega

def unfold (name : String) (v : Value) : Result (List (String × Value × Bool)) :=
  unfoldAll [("", .text name, v)]

/-! ## Scopes -/

/-- A parameter that a node uses, to be linked when all parameters are known. -/
structure FutureLink where
  node : Ref .inst
  name : Option String
  space : String
  resolvedSpace : String
  privateSpace : String
  type : Option String
  guards : Ref .guards
  hints : List (Ref .param)
  repeats : Bool
  side : LinkSide
  location : Option Location

/-- A part of a launch file with its namespace. The renamings of a node's own scope are those of
the node instance. -/
structure LaunchScope where
  configuration : Ref .configuration
  launch : Ref .file
  space : String := "/"
  node : Option (Ref .inst) := none
  remaps : Remaps := Table.empty
  guards : List Guard := []
  held : List (Ref .param) := []
  future : List FutureLink := []
  children : Nat := 0

/-- A model with the parameters that a launch file has set so far. -/
structure Workbench where
  model : Model
  params : List (Ref .param) := []

namespace LaunchScope

def change {α : Type} (f : Model → Model × α) : Job Workbench α := do
  let w ← get
  let (m, a) := f w.model
  set { w with model := m }
  pure a

def touch (f : Model → Model) : Job Workbench Unit :=
  modify fun w => { w with model := f w.model }

def privateSpace (s : LaunchScope) (m : Model) : String :=
  match s.node with
  | some n => (m.inst n).name.full
  | none => s.space

def remapsIn (s : LaunchScope) (m : Model) : Remaps :=
  match s.node with
  | some n => (m.inst n).remaps
  | none => s.remaps

def namespaceOf (s : LaunchScope) (m : Model) (ns : Option String) (hidden : Bool := false) :
    Result String :=
  let pns := s.privateSpace m
  match nonEmpty? ns with
  | none => pure (if hidden then pns else s.space)
  | some ns => if hidden then Name.resolve ns pns pns else Name.resolve ns s.space ""

def resolveSpace (s : LaunchScope) (m : Model) (ns : Option String) : Result String :=
  match nonEmpty? ns with
  | none => pure s.space
  | some "~" => pure (s.privateSpace m)
  | some ns => Name.resolve ns s.space (s.privateSpace m)

def guarded (s : LaunchScope) (guard : Option Guard) : List Guard := s.guards ++ guard.toList

def child (s : LaunchScope) (m : Model) (ns : Option String) (guard : Option Guard)
    (launch : Ref .file) : Result LaunchScope := do
  let space ← s.namespaceOf m ns
  pure { configuration := s.configuration, launch, space, remaps := s.remapsIn m
         guards := s.guarded guard, held := s.held }

def fullNames (s : LaunchScope) (m : Model) (source target : String) :
    Result (String × String) := do
  let pns := s.privateSpace m
  let source ← Name.resolve source s.space pns
  let target ← Name.resolve target s.space pns
  pure (source, target)

def rename (s : LaunchScope) (source target : String) : Job Workbench LaunchScope :=
  match s.node with
  | some n => do
    touch fun m => m.updateInstance n fun x => { x with remaps := x.remaps.put source target }
    pure s
  | none => pure { s with remaps := s.remaps.put source target }

def remap (s : LaunchScope) (source target : String) : Job Workbench LaunchScope := do
  let (source, target) ← Job.ofResult (s.fullNames (← get).model source target)
  s.rename source target

def nodeName (s : LaunchScope) (m : Model) (node : Ref .node) (name ns : Option String) :
    Result (String × Name) := do
  let space ← s.namespaceOf m ns
  let own ← match nonEmpty? name, (m.node node).rosname with
    | some n, _ => pure n
    | none, some r => pure r.own
    | none, none => throw .noField
  let full ← Name.make own space (s.privateSpace m)
  pure (space, full)

def makeNode (s : LaunchScope) (node : Ref .node) (name ns : Option String) (argv : Value)
    (guard : Option Guard) : Job Workbench LaunchScope := do
  let m := (← get).model
  let (space, name) ← Job.ofResult (s.nodeName m node name ns)
  let gs := s.guarded guard
  let r ← change fun m => m.startInstance gs fun guards =>
    { configuration := s.configuration, name, node, launch := some s.launch, argv
      remaps := s.remapsIn m, guards }
  pure { configuration := s.configuration, launch := s.launch, space, node := some r
         guards := gs, held := s.held }

/-- A node takes the private parameters that wait for one; there may be none, since they do not
know which launch file they came from. -/
def handOver (s : LaunchScope) : Result Unit := if s.held.isEmpty then pure () else throw .noField

/-- Sets a parameter: at once, or for the nodes to come. -/
def hold (s : LaunchScope) (later : Bool) (r : Ref .param) : Job Workbench LaunchScope := do
  if later then pure { s with held := s.held ++ [r] }
  else
    modify fun w => { w with params := w.params ++ [r] }
    pure s

def setLeaves (s : LaunchScope) (name : String) (v : Value) (guards : List Guard)
    (mayHold : Bool) : Job Workbench LaunchScope := do
  let m := (← get).model
  let isPrivate := mayHold && name.toList.head? == some '~'
  let pns := s.privateSpace m
  let leaves ← Job.ofResult (unfold name v)
  let g ← change fun m => m.addGuards guards
  leaves.foldlM (fun s (name, value, _) => do
    let start := name.toList.head?
    let full ← Job.ofResult (
      if start == some '~' then Name.make name "/roslaunch" "/roslaunch"
      else Name.make name pns pns)
    let r ← change fun m => m.makeParam {
      configuration := s.configuration, name := full, value, nodeScope := s.node.isSome
      launch := some s.launch, guards := g }
    let apart := start == some '/' || start == some '~'
    s.hold (!apart && isPrivate) r) s

def setParam (s : LaunchScope) (name : String) (type : Option String) (text : Option String)
    (guard : Option Guard) : Job Workbench (Except Unconvertible LaunchScope) := do
  let converted : Except Unconvertible (Value × Option String) := match text with
    | none => pure (.null, type)
    | some t => (convertValue t type).map fun v => (v, typeOfValue v)
  match converted with
  | .error u => pure (.error u)
  | .ok (value, type) =>
    let guards := s.guarded guard
    let isRecord := match value with
      | .record _ => true
      | _ => false
    if type == some "yaml" || isRecord then return .ok (← s.setLeaves name value guards true)
    else
      let m := (← get).model
      let pns := s.privateSpace m
      let full ← Job.ofResult (Name.make name pns pns)
      let g ← change fun m => m.addGuards guards
      let r ← change fun m => m.makeParam {
        configuration := s.configuration, name := full, type, value, nodeScope := s.node.isSome
        launch := some s.launch, guards := g }
      return .ok (← s.hold (s.node.isNone && full.isPrivate) r)

def setDocument (s : LaunchScope) (name ns : Option String) (document : String)
    (guard : Option Guard) : Job Workbench LaunchScope := do
  let value ← match Yaml.load document with
    | .ok v => pure v
    | .error (.yaml .reading) => throw (.yaml .reading)
    | .error (.yaml _) => throw (.configuration .yaml)
    | .error f => throw f
  let pns := s.privateSpace (← get).model
  let ns := joinName ((nonEmpty? ns).getD pns) pns
  let name ← match nonEmpty? name with
    | some n => pure (joinName n ns)
    | none =>
      match value with
      | .record _ => pure ns
      | _ => throw (.configuration .unnamedValue)
  s.setLeaves name value (s.guarded guard) false

/-- Deletes a parameter of the configuration. Only a conditional deletion of a parameter that
exists is passed over; an unconditional one is refused. -/
def deleteParam (s : LaunchScope) (name : String) (ns : Option String) (guard : Option Guard) :
    Job Workbench Unit := do
  let m := (← get).model
  let pns := s.privateSpace m
  let ns := joinName ((nonEmpty? ns).getD pns) pns
  let full ← Job.ofResult (Name.resolve name ns "/rosparam")
  if (m.lookup (m.configuration s.configuration).params full).isNone then
    throw (.configuration (.missingParameter full))
  if (s.guarded guard).isEmpty then throw .noField

end LaunchScope

end RosAudit
