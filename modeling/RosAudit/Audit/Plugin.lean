import RosAudit.Audit.Interface

/-!
# Plugins

A plugin is a module with a manifest. Its manifest names its rules, its metrics and the languages
it can read, and its module has hooks, which the audit calls with what they are about.

`Plugin.select` says which of the installed modules are wanted, and `PluginManifest.load` reads a
manifest.
-/

namespace RosAudit

/-- What a hook is called with. -/
inductive Subject where
  | nothing
  | scope (e : Entity)
  | violation (v : Violation)
  | measurement (x : Measurement)

/-- A plugin. A hook gives a value, which matters only for those that prepare a state. -/
structure Plugin where
  name : String
  languages : List Value := []
  hook : String → Option (Subject → Job Interface Value)

namespace Plugin

def lead : String := "haros_plugin_"

def isPluginName (name : String) : Bool := Text.startsWith lead.toList name.toList

def fullName (name : String) : String := if isPluginName name then name else lead ++ name

def select (modules wanted unwanted : List String) : List String :=
  let plugins := modules.filter isPluginName
  if !wanted.isEmpty then plugins.filter fun n => (wanted.map fullName).contains n
  else plugins.filter fun n => !(unwanted.map fullName).contains n

end Plugin

/-- What is known of a plugin while it is loaded. -/
structure PluginManifest where
  name : String
  version : String := "0.1"
  rules : Value := .null
  metrics : Value := .null
  languages : Option (List Value) := none

namespace PluginManifest

/-- A record without the entries that are defined elsewhere; nothing is left out if nothing is
defined elsewhere. -/
def withoutCommon (own common : Value) : Result Value := do
  if !common.truthy then return own
  let mut taken : List Value := []
  for k in ← own.each do
    if ← common.holds k then taken := taken ++ [k]
  match own with
  | .record es => return .record (es.filter fun e => !taken.any (Value.same e.1))
  | v => if taken.isEmpty then return v else throw .wrongKind

def isWellFormed (name : String) (data : Value) : Result Bool := do
  if !(← data.has "version") then return false
  if !(← data.has "name") then return false
  return Value.same (← data.need "name") (.text name)

def load (manifest : Option String) (importable : Bool) (commonRules commonMetrics : Value) :
    Job PluginManifest Unit := do
  let text ← match manifest with
    | some text => pure text
    | none => throw .fileAccess
  let data ← Job.ofResult (Yaml.load text)
  let p ← get
  if !(← Job.ofResult (isWellFormed p.name data)) then throw (.malformedManifest p.name)
  let version ← Job.ofResult (data.need "version")
  modify fun p => { p with version := version.display }
  let rules ← Job.ofResult (data.look "rules" (.record []))
  modify fun p => { p with rules }
  let metrics ← Job.ofResult (data.look "metrics" (.record []))
  modify fun p => { p with metrics }
  let rules ← Job.ofResult (withoutCommon rules commonRules)
  modify fun p => { p with rules }
  let metrics ← Job.ofResult (withoutCommon metrics commonMetrics)
  modify fun p => { p with metrics }
  if !importable then throw .importFailed
  let languages ← Job.ofResult ((← Job.ofResult (data.look "languages" (.list []))).each)
  let languages ← Job.ofResult (Value.distinct languages)
  modify fun p => { p with languages := some languages }

end PluginManifest

def hookNames : List String :=
  ["file_analysis", "package_analysis", "configuration_analysis", "process_file_violation",
   "process_file_metric", "process_package_violation", "process_package_metric",
   "process_configuration_violation", "process_configuration_metric"]

end RosAudit
