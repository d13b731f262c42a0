import RosAudit.FileTree
import RosAudit.Launch.Tree
import RosAudit.Name

/-!
# Self-checks

Short checks that the program can run on itself: that names resolve, that substitutions give what
they should, and that a small launch file is read right. A check that fails ends in `.broken`.
-/

namespace RosAudit.SelfCheck

def check (test : Bool) : Result Unit := if test then pure () else throw .broken

def names : Result Unit := do
  let plain ← Name.make "a"
  let nested ← Name.make "a" "ns"
  let «private» ← Name.make "~a" "ns" "priv"
  check (plain.full != nested.full)
  check (plain.full == "/a")
  check (nested.full == "ns/a")
  check (nested.full == (← Name.make "a" "ns").full)
  check («private».full != nested.full)
  check («private».full == "priv/a")
  check ((← Name.make "base").full == "/base")

/-! ## Substitutions -/

def gives (c : SubstContext) (text : String) (v : Subst) (k : Kind := .text) : Result Unit := do
  let (r, _) := (SubstContext.substitute text k).exec c
  check ((← r) == v)

def staysOpen (c : SubstContext) (text : String) (pieces : List Piece) : Result Unit := do
  let (r, _) := (SubstContext.substitute text .text).exec c
  match ← r with
  | .pending t =>
    check (t.pieces == pieces)
    check ((← Kind.text.close t) == .pending t)
  | _ => throw .broken

def isRefused (c : SubstContext) (text : String) : Result Unit :=
  match ((SubstContext.substitute text .text).exec c).1 with
  | .error (.substitution _) => pure ()
  | .error f => throw f
  | .ok _ => throw .broken

def substitution : Result Unit := do
  let c : SubstContext := {}
  gives c "value" (.text "value")
  gives c "1" (.int 1) .int
  gives c "1" (.bool true) .bool
  gives c "1.0" (.float 1.0) .float
  staysOpen c "$(env VAR)" [.command ["env", "VAR"]]
  staysOpen c "value$(env NAME)$(env VAR)"
    [.text "value", .command ["env", "NAME"], .command ["env", "VAR"]]
  let c := { c with arguments := Table.ofList [("test", .text "value")] }
  gives c "$(arg test)" (.text "value")
  gives c "$$(arg test)$" (.text "$value$")
  let c := { c with environment := Table.ofList [("TEST", "value")] }
  gives c "$(env TEST)" (.text "value")
  gives c "$(optenv TEST)" (.text "value")
  for text in ["$(arg $(arg name))", "$($)", "va$(eval \x27lue\x27)",
      "value$(arg name)$(env VAR)"] do
    isRefused c text

/-! ## Launch files -/

def isNode (package type name : String) : LaunchTree → Bool
  | .tag .node text attrs [] =>
    text.isEmpty && (LaunchTree.openKeys attrs).isEmpty &&
      attrs.get? "pkg" == some (.text package) &&
      attrs.get? "type" == some (.text type) && attrs.get? "name" == some (.text name)
  | _ => false

def launch (t : FileTree) (path : String) : Result Unit := do
  if !t.isFile path then throw (.launch (.notAFile path))
  let (tree, _) := (LaunchTree.ofDocument (← t.stored path)).exec {}
  match ← tree with
  | .tag .launch text attrs [a, b] =>
    check (text.isEmpty && attrs.isEmpty)
    check (isNode "fictibot_drivers" "fictibot_driver" "fictibase" a)
    check (isNode "fictibot_controller" "fictibot_controller" "ficticontrol" b)
  | _ => throw .broken

end RosAudit.SelfCheck
