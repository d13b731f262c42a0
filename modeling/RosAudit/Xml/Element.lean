import RosAudit.Xml.Event

/-!
# Elements

`Element.parse` puts the events of a document together into its root element. Names are expanded
by the namespace declarations in scope: a name in the namespace `u` is written `{u}local`. The
text of an element is the character data before its first child, joined across comments; an
element without any has the empty text.

There is no element for a document that is not well formed: tags that do not match, a second
root, text outside the root, a repeated attribute or an undeclared namespace.
-/

namespace RosAudit.Xml

open RosAudit.Text

/-- An element with its text, the character data before its first child. -/
inductive Element where
  | mk (name : String) (attributes : List (String × String)) (text : String)
      (children : List Element)
  deriving Inhabited

namespace Element

def name : Element → String
  | mk n _ _ _ => n

def attributes : Element → List (String × String)
  | mk _ as _ _ => as

def text : Element → String
  | mk _ _ t _ => t

def children : Element → List Element
  | mk _ _ _ cs => cs

def attribute? (e : Element) (k : String) : Option String := e.attributes.lookup k

def childrenNamed (e : Element) (n : String) : List Element := e.children.filter (·.name == n)

def child? (e : Element) (n : String) : Option Element := e.children.find? (·.name == n)

abbrev Scope := List (String × String)

def initialScope : Scope := [("xml", "http://www.w3.org/XML/1998/namespace")]

def splitName (n : String) : Option String × String :=
  match cutAtFirst ':' n.toList with
  | some (p, l) => (some (String.ofList p), String.ofList l)
  | none => (none, n)

def expandName (scope : Scope) (useDefault : Bool) (n : String) : Option String :=
  match splitName n with
  | (some p, l) => (scope.lookup p).map fun u => "\x7b" ++ u ++ "\x7d" ++ l
  | (none, l) =>
    if useDefault then
      match scope.lookup "" with
      | some u => some (if u.isEmpty then l else "\x7b" ++ u ++ "\x7d" ++ l)
      | none => some l
    else some l

def declare (scope : Scope) : List (String × String) → Option Scope
  | [] => some scope
  | (k, v) :: rest =>
    if k == "xmlns" then declare (("", v) :: scope) rest
    else
      match splitName k with
      | (some "xmlns", l) => if v.isEmpty then none else declare ((l, v) :: scope) rest
      | _ => declare scope rest

def isDeclaration (k : String) : Bool := k == "xmlns" || (splitName k).1 == some "xmlns"

def expandAttributes (scope : Scope) (attrs : List (String × String)) :
    Option (List (String × String)) :=
  (attrs.filter fun a => !isDeclaration a.1).mapM fun (k, v) =>
    (expandName scope false k).map fun k => (k, v)

/-- An element that is still open: children so far in reverse, text so far. -/
structure Frame where
  written : String
  name : String
  attributes : List (String × String)
  scope : Scope
  text : List Char
  children : List Element

def Frame.close (f : Frame) : Element :=
  .mk f.name f.attributes (String.ofList f.text) f.children.reverse

def Frame.append (f : Frame) (cs : List Char) : Frame :=
  if f.children.isEmpty then { f with text := f.text ++ cs } else f

def openFrame (scope : Scope) (written : String) (attrs : List (String × String)) :
    Option Frame := do
  if !(attrs.map Prod.fst).Nodup then none
  let scope ← declare scope attrs
  let name ← expandName scope true written
  let attrs ← expandAttributes scope attrs
  if !(attrs.map Prod.fst).Nodup then none
  some { written, name, attributes := attrs, scope, text := [], children := [] }

def build (root : Option Element) : List Frame → List Event → Option Element
  | [], [] => root
  | _ :: _, [] => none
  | [], .opened n attrs :: es =>
    if root.isSome then none
    else (openFrame initialScope n attrs).bind fun f => build root [f] es
  | [], .text cs :: es => if cs.all isSpace then build root [] es else none
  | [], .doctype :: es => if root.isSome then none else build root [] es
  | [], _ :: _ => none
  | f :: fs, .opened n attrs :: es =>
    (openFrame f.scope n attrs).bind fun g => build root (g :: f :: fs) es
  | f :: fs, .closed n :: es =>
    if f.written == n then
      match fs with
      | [] => build (some f.close) [] es
      | g :: gs => build root ({ g with children := f.close :: g.children } :: gs) es
    else none
  | f :: fs, .text cs :: es => build root (f.append cs :: fs) es
  | f :: fs, .solid cs :: es => build root (f.append cs :: fs) es
  | _ :: _, .doctype :: _ => none

def parse (document : String) : Option Element := (Event.read document).bind (build none [])

end Element

end RosAudit.Xml
