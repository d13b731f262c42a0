import RosAudit.Model.Source

/-!
# Package manifests

A package describes itself in a manifest: who made it, what it depends on, and which of its
libraries hold nodelets. `Manifest.read` reads the manifest of a package, and `Model.addManifest`
turns it into a package of a model.
-/

namespace RosAudit

/-- What a manifest says. A nodelet is a library and a class in it. -/
structure Manifest where
  package : Package
  nodelets : List (String × String) := []

namespace Manifest

open Xml

def textOf (e : Element) : Result String :=
  if e.text.isEmpty then throw .noField else pure (Text.trim e.text)

def childText (e : Element) (name : String) : Result String :=
  match e.child? name with
  | some c => textOf c
  | none => throw .noField

def people (es : List Element) : Result (List Person) :=
  es.foldlM (fun ps e => do
    let name ← textOf e
    let p : Person :=
      { name := if name.isEmpty then "?" else name
        email := (nonEmpty? (e.attribute? "email")).getD "email@example.com" }
    pure (if ps.any fun q => q.email == p.email then ps else ps ++ [p])) []

def setAddress (p : Package) (e : Element) : Package :=
  if e.text.isEmpty then p
  else
    let text := some (Text.trim e.text)
    match e.attribute? "type" with
    | none => { p with website := text }
    | some "website" => { p with website := text }
    | some "repository" => { p with vcsUrl := text }
    | some "bugtracker" => { p with bugUrl := text }
    | some _ => p

def nodeletsOf (root : Element) : Result (List (String × String)) := do
  let libs := if root.name == "library" then [root] else root.childrenNamed "library"
  let found ← libs.mapM fun lib => do
    match lib.attribute? "path" with
    | none => throw .noField
    | some path =>
      let name := (Text.splitOnChar '/' path).getLastD ""
      (lib.childrenNamed "class").mapM fun c =>
        match c.attribute? "type" with
        | none => throw .noField
        | some type => pure (name, (type.splitOn "::").getLastD "")
  pure found.flatten

def exportedNodelets (t : FileTree) (folder : String) (e : Element) :
    Result (List (String × String)) :=
  match e.child? "nodelet" with
  | none => pure []
  | some n =>
    match n.attribute? "plugin" with
    | none => throw .noField
    | some file => do
      let doc ← t.read (Text.replaceAll file "$\x7bprefix\x7d" folder)
      match Element.parse doc with
      | none => throw .xml
      | some root => nodeletsOf root

def dependencyElements (root : Element) : List Element :=
  let names :=
    if root.attribute? "format" == some "2" then
      ["build_depend", "depend", "build_export_depend", "exec_depend"]
    else ["build_depend", "run_depend"]
  names.flatMap root.childrenNamed

def read (t : FileTree) (path : String) : Result Manifest := do
  let doc ← t.read path
  match Element.parse doc with
  | none => throw .xml
  | some root =>
    let name ← childText root "name"
    let folder := Path.parent path
    let description ← childText root "description"
    let maintainers ← people (root.childrenNamed "maintainer")
    let authors ← people (root.childrenNamed "author")
    let licenses ← (root.childrenNamed "license").mapM textOf
    let p : Package :=
      { name, path := some folder, description, maintainers, authors
        licenses := licenses.eraseDups }
    let p := (root.childrenNamed "url").foldl setAddress p
    let (isMetapackage, nodelets) ← match root.child? "export" with
      | none => pure (false, [])
      | some e => pure ((e.child? "metapackage").isSome, ← exportedNodelets t folder e)
    let needs ← (dependencyElements root).mapM textOf
    let dependencies := (needs.filter fun d => !d.isEmpty).eraseDups
    pure { package := { p with isMetapackage, dependencies }, nodelets }

end Manifest

def Model.addManifest (m : Model) (x : Manifest) (project : Option (Ref .project)) :
    Model × Ref .package :=
  let (m, p) := m.addPackage { x.package with project }
  (x.nodelets.foldl (fun m (name, cls) =>
    let (m, n) := m.addNode (m.makeNode name p none (some cls))
    m.updatePackage p fun k => { k with nodes := k.nodes ++ [n] }) m, p)

end RosAudit
