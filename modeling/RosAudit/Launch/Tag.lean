import RosAudit.Launch.Template

/-!
# Launch tags

The tags of a launch file and what each may say: `TagKind.schema` lists the attributes of a tag
with their kind, the field they give the tag, its default, and whether they must be present.
`TagKind.childKinds` lists the tags that may stand inside.

`TagKind.check` states the conditions on a tag's attributes: required ones are there and not
empty, a tag has at most one of `if` and `unless`, and the few rules that concern one tag only.
-/

namespace RosAudit

/-- The tags of a launch file. -/
inductive TagKind where
  | launch
  | node
  | inclusion
  | remap
  | param
  | rosparam
  | group
  | arg
  | env
  | machine
  | test
  deriving DecidableEq, Repr, Inhabited

/-- What a tag may say under one key. An attribute without a field only takes part in the
condition of the tag. -/
structure AttributeRule where
  key : String
  kind : Kind
  field : Option String
  fallback : Option Subst := none
  required : Bool := false

namespace TagKind

def tagName : TagKind → String
  | launch => "launch"
  | node => "node"
  | inclusion => "include"
  | remap => "remap"
  | param => "param"
  | rosparam => "rosparam"
  | group => "group"
  | arg => "arg"
  | env => "env"
  | machine => "machine"
  | test => "test"

def all : List TagKind :=
  [launch, node, inclusion, remap, param, rosparam, group, arg, env, machine, test]

def ofName? (n : String) : Option TagKind := all.find? fun k => k.tagName == n

def conditionRules : List AttributeRule :=
    [⟨"if", .bool, none, none, false⟩, ⟨"unless", .bool, none, none, false⟩]

def needs (key field : String) : AttributeRule := ⟨key, .text, some field, none, true⟩

def may (key field : String) : AttributeRule := ⟨key, .text, some field, none, false⟩

def orElse (key field : String) (kind : Kind) (d : Subst) : AttributeRule :=
  ⟨key, kind, some field, some d, false⟩

def schema : TagKind → List AttributeRule
  | launch => []
  | node => conditionRules ++ [
      needs "pkg" "package", needs "type" "type", may "name" "name", may "args" "argv",
      may "machine" "machine", orElse "respawn" "respawn" .bool (.bool false),
      orElse "respawn_delay" "respawn_delay" .float (.float 0.0),
      orElse "required" "required" .bool (.bool false), may "ns" "namespace",
      orElse "clear_params" "clear_params" .bool (.bool false),
      orElse "output" "output" .text (.text "log"), orElse "cwd" "cwd" .text (.text "ROS_HOME"),
      may "launch-prefix" "prefix"]
  | inclusion => conditionRules ++ [
      needs "file" "file", may "ns" "namespace",
      orElse "clear_params" "clear_params" .bool (.bool false),
      orElse "pass_all_args" "pass_all_args" .bool (.bool false)]
  | remap => conditionRules ++ [needs "from" "origin", needs "to" "target"]
  | param => conditionRules ++ [
      needs "name" "name", may "value" "value", may "type" "type", may "textfile" "textfile",
      may "binfile" "binfile", may "command" "command"]
  | rosparam => conditionRules ++ [
      orElse "command" "command" .text (.text "load"), may "file" "file", may "param" "name",
      may "ns" "namespace", orElse "subst_value" "substitute" .bool (.bool false)]
  | group => conditionRules ++ [
      may "ns" "namespace", orElse "clear_params" "clear_params" .bool (.bool false)]
  | arg => conditionRules ++ [
      needs "name" "name", may "value" "value", may "default" "default", may "doc" "description"]
  | env => conditionRules ++ [needs "name" "name", needs "value" "value"]
  | machine => conditionRules ++ [
      needs "name" "name", needs "address" "address", may "env-loader" "loader",
      orElse "default" "default" .bool (.text "false"), may "user" "user",
      may "password" "password", orElse "timeout" "timeout" .float (.float 10.0)]
  | test => conditionRules ++ [
      needs "test-name" "test_name", needs "pkg" "package", needs "type" "type",
      may "name" "name", may "args" "argv", may "ns" "namespace",
      orElse "clear_params" "clear_params" .bool (.bool false),
      orElse "cwd" "cwd" .text (.text "ROS_HOME"), may "launch-prefix" "prefix",
      orElse "retry" "retry" .int (.int 0), orElse "time-limit" "time_limit" .float (.float 60.0)]

def childKinds : TagKind → List TagKind
  | launch => [node, inclusion, remap, param, rosparam, group, arg, env, machine, test]
  | group => [node, inclusion, remap, param, rosparam, group, arg, env, machine, test]
  | node => [remap, param, rosparam, env]
  | test => [remap, param, rosparam, env]
  | inclusion => [arg, env]
  | _ => []

def requiredKeys (k : TagKind) : List String :=
  k.schema.filterMap fun r => if r.required then some r.key else none

def fieldValue (k : TagKind) (attrs : Table String Subst) (r : AttributeRule) : Option Subst :=
  match attrs.get? r.key with
  | some v => some v
  | none => if k = .test && r.key == "name" then attrs.get? "test-name" else r.fallback

def fields (k : TagKind) (attrs : Table String Subst) : List (String × Option Subst) :=
  k.schema.filterMap fun r => r.field.map fun f => (f, k.fieldValue attrs r)

def field (k : TagKind) (attrs : Table String Subst) (name : String) : Option Subst :=
  ((k.fields attrs).lookup name).join

def checkOwn (k : TagKind) (text : String) (attrs : Table String Subst) : Result Unit :=
  let missing (key : String) : Result Unit := throw (.launch (.missingAttribute key))
  match k with
  | param =>
    if ["value", "textfile", "binfile", "command"].all fun a => !attrs.contains a then
      missing "value"
    else pure ()
  | rosparam =>
    match (attrs.get? "command").getD (.text "load") with
    | .text "load" => if !attrs.contains "file" && text.isEmpty then missing "file" else pure ()
    | .text "dump" => if !attrs.contains "file" then missing "file" else pure ()
    | .text "delete" => if !attrs.contains "param" then missing "name" else pure ()
    | _ => pure ()
  | arg =>
    if attrs.contains "value" && attrs.contains "default" then throw (.launch .valueAndDefault)
    else pure ()
  | _ => pure ()

def check (k : TagKind) (text : String) (attrs : Table String Subst) : Result Unit := do
  for key in k.requiredKeys do
    if ((attrs.get? key).map Subst.isFalsy).getD true then
      throw (.launch (.missingAttribute key))
  if attrs.contains "if" && attrs.contains "unless" then throw (.launch .bothConditions)
  k.checkOwn text attrs

end TagKind

/-- When a tag counts: the value it tests, and the answer it wants. -/
structure Condition where
  wanted : Bool
  value : Subst
  deriving DecidableEq

def Condition.of (attrs : Table String Subst) : Condition :=
  match attrs.get? "unless" with
  | some v => ⟨false, v⟩
  | none => ⟨true, (attrs.get? "if").getD (.bool true)⟩

end RosAudit
