import RosAudit.Extract.Nodes
import RosAudit.View.Model

/-!
# Packages in full

All that is known of a package, its files and its nodes, as data.
-/

namespace RosAudit

namespace Model

variable (m : Model)

def peoplePairs (ps : List Person) : Value :=
  let before (a b : Person) : Bool :=
    if a.name == b.name then a.email < b.email || a.email == b.email else a.name < b.name
  .list ((ps.mergeSort before).map fun p => .list [.text p.name, .text p.email])

def fileSummary (f : SourceFile) : Value :=
  .list [.text f.id, .text f.language, .int f.size, .int f.lines, .int f.sloc, .bool f.tree.isSome]

def nodeSummary (n : Node) : Value :=
  .list [.text n.id, .text n.name, .text? n.nodelet,
    .texts (n.files.map fun f => (m.file f).fullName), .text? (NodeFinder.languageOf? m n)]

def packageSummary (r : Ref .package) : Value :=
  let p := m.package r
  .object [("id", .text p.id), ("path", .text? p.path), ("description", .text p.description),
    ("metapackage", .bool p.isMetapackage), ("authors", peoplePairs p.authors),
    ("maintainers", peoplePairs p.maintainers),
    ("licenses", .texts (FileTree.sortTexts p.licenses)), ("website", .text? p.website),
    ("vcs", .text? p.vcsUrl), ("bugs", .text? p.bugUrl),
    ("deps", .texts (FileTree.sortTexts p.dependencies)), ("tier", .int p.tier),
    ("size", .int p.size), ("lines", .int p.lines), ("sloc", .int p.sloc),
    ("repository", .text? (p.repository.map fun x => (m.repository x).id)),
    ("files", .list (p.files.map fun f => fileSummary (m.file f))),
    ("nodes", .list (p.nodes.map fun n => m.nodeSummary (m.node n)))]

end Model

end RosAudit
