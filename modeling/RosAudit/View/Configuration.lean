import RosAudit.Configure.Builder
import RosAudit.View.Model

/-!
# Configurations as data

The whole content of a configuration: its resources, its links side by side, and how often names
collide. Parts of it can fail on their own; how such a part is shown is left to the caller, who
passes `tried`.
-/

namespace RosAudit

namespace Model

variable (m : Model)

def configurationDump (tried : Result Value → Value) (r : Ref .configuration) : Value :=
  let c := m.configuration r
  let each {k : EntityKind} (rs : List (Ref k)) : Value :=
    .list (rs.map fun x => tried (m.toValue x.entity))
  .object [("collisions", .int (collisions c)), ("remaps", .nat (m.remapCount c)),
    ("pkg_depends", .texts (FileTree.sortTexts c.packageUses)),
    ("env_depends", .texts (FileTree.sortTexts c.environmentUses)),
    ("nodes", each c.nodes.all), ("topics", each c.topics.all),
    ("services", each c.services.all), ("parameters", each c.params.all),
    ("links", .object (LinkSide.all.map fun s => (s.label, each (m.sideLinks c s)))),
    ("json_ok", tried ((m.configurationValue c).map fun _ => .bool true))]

def instancesDump (nodes : List (Ref .node)) : Value :=
  .object (nodes.filterMap fun r =>
    let n := m.node r
    if n.instances.isEmpty then none
    else some (n.id, .texts (n.instances.map fun i => (m.inst i).name.full)))

end Model

end RosAudit
