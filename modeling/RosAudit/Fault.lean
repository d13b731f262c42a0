import RosAudit.Value

/-!
# Faults

Why an operation stopped. The faults that the audit itself detects carry their cause, and
`message?` words each of them; the faults of a lookup, a conversion or a file access are told
apart by their kind alone.

Some messages quote the text of the cause (`Fault.message?` puts it between quotes), others give
it as it is; which is which belongs to the kind of fault.
-/

namespace RosAudit

/-- Why a substitution expression was refused. -/
inductive SubstitutionCause where
  | nested
  | invalidCommand (word : String)
  | unresolved (words : List String)
  | notBoolean (text : String)
  | notNumber (text : String)
  | notInteger (text : String)
  | oneArgument (command : String)
  | oneOrTwoArguments (command : String)
  | noArguments (command : String)
  | unknownPackage (name : String)
  | undeclaredArg (name : String)
  | lateEval
  deriving DecidableEq, Repr

def showWords : List String → String
  | [w] => "(" ++ Text.quote w ++ ",)"
  | ws => "(" ++ ", ".intercalate (ws.map Text.quote) ++ ")"

def SubstitutionCause.text : SubstitutionCause → String
  | nested => "'$' cannot appear within expression"
  | invalidCommand w => "invalid command: " ++ w
  | unresolved ws => "cannot resolve: " ++ showWords ws
  | notBoolean s => "invalid boolean value: " ++ s
  | notNumber s => "invalid number value: " ++ s
  | notInteger s => "invalid int value: " ++ s
  | oneArgument c => c ++ " takes exactly one argument"
  | oneOrTwoArguments c => c ++ " takes one or two arguments"
  | noArguments c => c ++ " does not take arguments"
  | unknownPackage n => "unknown package: " ++ n
  | undeclaredArg n => "undeclared arg: " ++ n
  | lateEval => "eval must appear at the start"

/-- Why a launch file was refused. -/
inductive LaunchCause where
  | missingAttribute (key : String)
  | bothConditions
  | valueAndDefault
  | notAFile (path : String)
  | invalidRoot (tag : String)
  | malformed
  deriving DecidableEq, Repr

def LaunchCause.text : LaunchCause → String
  | missingAttribute k => "missing required attribute: " ++ k
  | bothConditions => "cannot declare both 'if' and 'unless'"
  | valueAndDefault => "incompatible attributes: value, default"
  | notAFile p => "not a file: " ++ p
  | invalidRoot t => "invalid root tag: " ++ t
  | malformed => "<xml error>"

/-- Why a launch element could not be added to a configuration. -/
inductive ConfigurationCause where
  | yaml
  | unnamedValue
  | missingParameter (name : String)
  | missingPackageOrType
  | noLaunchFile (path : String)
  | noParseTree (file : String)
  | unreadableFile (path : String)
  | conversion (text : String)
  | nodeletWithoutArgs
  | nodeletTooFewArgs
  | noPackage (name : String)
  deriving DecidableEq, Repr

def ConfigurationCause.text : ConfigurationCause → String
  | yaml => "<yaml error>"
  | unnamedValue => "'param' attribute must be set for non-dictionary values"
  | missingParameter n => "missing parameter: " ++ n
  | missingPackageOrType => "node tag is missing pkg or type"
  | noLaunchFile p => "cannot find launch file: " ++ p
  | noParseTree f => "missing parse tree: " ++ f
  | unreadableFile p => "cannot read file: " ++ p
  | conversion t => t
  | nodeletWithoutArgs => "nodelet without args"
  | nodeletTooFewArgs => "nodelet load: too few arguments"
  | noPackage n => "cannot find package: " ++ n

inductive ScopeCause where
  | noScope
  | invalidScope (id : String)
  | notAConfiguration
  | foreignResource
  deriving DecidableEq, Repr

def ScopeCause.text : ScopeCause → String
  | noScope => "must provide a scope"
  | invalidScope i => "invalid scope: " ++ i
  | notAConfiguration => "must provide a Configuration scope"
  | foreignResource => "must point to resources within the Configuration scope"

/-- The ways in which reading a data document can fail. -/
inductive YamlStage where
  | reading
  | scanning
  | parsing
  | construction
  deriving DecidableEq, Repr

inductive Fault where
  | substitution (cause : SubstitutionCause)
  | launch (cause : LaunchCause)
  | configuration (cause : ConfigurationCause)
  | incompleteStatement (line : String)
  | unclosedBlock
  | inputExhausted
  | scope (cause : ScopeCause)
  | undefinedProperty (id : String)
  | malformedManifest (plugin : String)
  | clone (message : String)
  | invalidValue (message : String)
  | stopped (message : String)
  | noWorkspace
  | unsupported (message : String)
  | noField
  | wrongKind
  | noKey
  | outOfRange
  | unreadableValue
  | broken
  | divisionByZero
  | fileAccess
  | yaml (stage : YamlStage)
  | xml
  | pattern
  | unboundName
  | noModule
  | importFailed
  | endOfInput
  | noResource
  | json
  | tooDeep
  deriving DecidableEq, Repr, Inhabited

namespace Fault

def message? : Fault → Option String
  | substitution c => some (Text.quote c.text)
  | launch c => some (if c = .malformed then c.text else Text.quote c.text)
  | configuration c => some (if c = .yaml then c.text else Text.quote c.text)
  | incompleteStatement l => some l
  | unclosedBlock => some ""
  | inputExhausted => some ""
  | scope c => some (Text.quote c.text)
  | undefinedProperty i => some (Text.quote i)
  | malformedManifest p => some (Text.quote ("Malformed plugin manifest: " ++ p))
  | clone m => some (Text.quote m)
  | invalidValue m => some m
  | stopped m => some m
  | noWorkspace => some (Text.quote "ROS_WORKSPACE")
  | unsupported m => some m
  | _ => none

end Fault

abbrev Result := Except Fault

namespace Value

def need (v : Value) (k : String) : Result Value :=
  match v with
  | .record _ =>
    match v.field? k with
    | some x => pure x
    | none => throw .noKey
  | _ => throw .wrongKind

def look (v : Value) (k : String) (d : Value) : Result Value :=
  match v with
  | .record _ => pure ((v.field? k).getD d)
  | _ => throw .noField

def pairs (v : Value) : Result (List (Value × Value)) :=
  match v with
  | .record es => pure es
  | _ => throw .noField

def each (v : Value) : Result (List Value) :=
  match v with
  | .list xs => pure xs
  | .member xs => pure xs
  | .record es => pure (es.map Prod.fst)
  | .text s => pure (s.toList.map fun c => .text c.toString)
  | _ => throw .wrongKind

def isKey : Value → Bool
  | .list _ => false
  | .record _ => false
  | .member _ => false
  | _ => true

/-- Is one value a key of a record, an item of a list or a part of a text? -/
def holds (v x : Value) : Result Bool :=
  match v, x with
  | .list ys, _ => pure (ys.any (same x))
  | .record es, _ => if x.isKey then pure (es.any fun e => same x e.1) else throw .wrongKind
  | .member ys, _ => if x.isKey then pure (ys.any (same x)) else throw .wrongKind
  | .text s, .text part => pure (Text.occursIn part.toList s.toList)
  | _, _ => throw .wrongKind

def has (v : Value) (k : String) : Result Bool := v.holds (.text k)

/-- The set of some values: each once, in the order of their first places. -/
def distinct (xs : List Value) : Result (List Value) :=
  if xs.all isKey then pure (xs.foldl (fun ys x => if ys.any (same x) then ys else ys ++ [x]) [])
  else throw .wrongKind

end Value

/-- A computation on a state that keeps the state it has reached when it stops at a fault. -/
abbrev Job (σ : Type) := ExceptT Fault (StateM σ)

namespace Job

def exec {σ α : Type} (j : Job σ α) (s : σ) : Result α × σ := (ExceptT.run j).run s

def attempt {σ α : Type} (j : Job σ α) : Job σ (Result α) :=
  fun s => let (r, s') := j.exec s; (.ok r, s')

def ofResult {σ α : Type} : Result α → Job σ α
  | .ok a => pure a
  | .error f => throw f

end Job

end RosAudit
