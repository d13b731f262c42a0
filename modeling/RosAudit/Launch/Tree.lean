import RosAudit.Launch.Tag
import RosAudit.Xml.Element

/-!
# Launch trees

A launch file as a tree of tags whose attributes have been substituted as far as the file alone
allows. What cannot be used becomes an `error` leaf with a message, in the place where it stands:
an unknown tag, a refused substitution, a tag that may not stand where it does. An attribute
rule that is broken refuses the whole file instead.

`LaunchTree.ofElement` mirrors the document: one tree for each element, in order. The arguments
that the file declares are recorded on the way, so that later attributes see them.
-/

namespace RosAudit

/-- A launch file, or a part of one. -/
inductive LaunchTree where
  | error (message : String)
  | tag (kind : TagKind) (text : String) (attributes : Table String Subst)
      (children : List LaunchTree)
  deriving Inhabited

namespace LaunchTree

def tagName : LaunchTree → String
  | error _ => "error"
  | tag k _ _ _ => k.tagName

def openKeys (attrs : Table String Subst) : List String :=
  attrs.entries.filterMap fun e => if e.2.isPending then some e.1 else none

/-- A child in its place: a tag that may not stand there is an error. -/
def adopt (k : TagKind) : LaunchTree → LaunchTree
  | error m => error m
  | tag c text attrs children =>
    if k.childKinds.contains c then tag c text attrs children
    else error ("invalid child tag: " ++ c.tagName)

def substituteAttributes (rules : List AttributeRule) :
    List (String × String) → Job SubstContext (List (String × Subst))
  | [] => pure []
  | (key, value) :: rest =>
    match rules.find? fun r => r.key == key with
    | none => substituteAttributes rules rest
    | some r => do
      let v ← SubstContext.substitute value r.kind
      let more ← substituteAttributes rules rest
      pure ((key, v) :: more)

def declareArgument (k : TagKind) (attrs : Table String Subst) : Job SubstContext Unit :=
  match k, attrs.get? "name" with
  | .arg, some (.text name) =>
    let value := match attrs.get? "value" with
      | none => Argument.unset
      | some (.text s) => .text s
      | some (.pending t) => .pending t
      | some _ => .unset
    modify fun c => { c with arguments := c.arguments.put name value }
  | _, _ => pure ()

mutual

def ofElement : Xml.Element → Job SubstContext LaunchTree
  | .mk name attributes text children =>
    match TagKind.ofName? name with
    | none => pure (.error ("unknown tag: " ++ name))
    | some k => do
      match ← Job.attempt (substituteAttributes k.schema attributes) with
      | .error (.substitution cause) => pure (.error cause.text)
      | .error fault => throw fault
      | .ok attrs =>
        let attrs := Table.ofList attrs
        let text := Text.trim text
        Job.ofResult (k.check text attrs)
        declareArgument k attrs
        let trees ← ofElements children
        pure (.tag k text attrs (trees.map (adopt k)))

def ofElements : List Xml.Element → Job SubstContext (List LaunchTree)
  | [] => pure []
  | e :: es => do
    let t ← ofElement e
    let ts ← ofElements es
    pure (t :: ts)

end

def ofDocument (document : String) : Job SubstContext LaunchTree :=
  match Xml.Element.parse document with
  | none => throw (.launch .malformed)
  | some root =>
    if root.name == "launch" then ofElement root else throw (.launch (.invalidRoot root.name))

end LaunchTree

end RosAudit
