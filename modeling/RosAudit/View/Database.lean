import RosAudit.Audit.Database
import RosAudit.Model.Scene

/-!
# Databases as data
-/

namespace RosAudit

namespace Database

def toValue (d : Database) : Value :=
  let m := d.model
  let c := d.catalog
  let trees := c.files.entries.filter fun e => (m.file e.2).tree.isSome
  .object [("rules", .list (d.registry.rules.values.map Rule.toValue)),
    ("metrics", .list (d.registry.metrics.values.map Metric.toValue)),
    ("packages", .texts c.packages.keys), ("files", .texts c.files.keys),
    ("nodes", .texts c.nodes.keys), ("repositories", .texts c.repositories.keys),
    ("configs", .texts (c.configurations.map fun r => (m.id? r.entity).getD "")),
    ("project", .text? (c.project.map fun p => (m.project p).id)),
    ("trees", .texts (trees.map Prod.fst))]

def nodesValue (tried : Result Value → Value) (d : Database) : Value :=
  Value.ofTable (fun n => tried (d.model.nodeValue (d.model.node n))) d.catalog.nodes

end Database

end RosAudit
