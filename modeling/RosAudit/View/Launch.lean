import RosAudit.Launch.Tree

/-!
# Launch files as data

Templates, outcomes and launch trees as data values: what an inspection of a launch file shows.
An open template is shown under the key `unresolved` as the list of its pieces, a command being
the list of its words.
-/

namespace RosAudit

def Piece.toValue : Piece → Value
  | .text s => .text s
  | .command ws => .texts ws

def Template.toValue (t : Template) : Value :=
  .object [("unresolved", .list (t.pieces.map Piece.toValue))]

def Subst.toValue : Subst → Value
  | .text s => .text s
  | .bool b => .bool b
  | .int n => .int n
  | .float x => .float x
  | .pending t => t.toValue

def Argument.toValue : Argument → Value
  | .unset => .null
  | .text s => .text s
  | .pending t => t.toValue

namespace LaunchTree

mutual

def toValue : LaunchTree → Value
  | .error m => .object [("tag", .text "error"), ("text", .text m), ("attributes", .record []),
      ("unknown", .list []), ("children", .list [])]
  | .tag k text attrs children =>
    let c := Condition.of attrs
    .object [("tag", .text k.tagName), ("text", .text text),
      ("attributes", Value.ofTable Subst.toValue attrs), ("unknown", .texts (openKeys attrs)),
      ("children", .list (toValues children)),
      ("condition", .list [.bool c.wanted, c.value.toValue]),
      ("fields", .object ((k.fields attrs).map fun (f, v) =>
        (f, (v.map Subst.toValue).getD .null)))]

def toValues : List LaunchTree → List Value
  | [] => []
  | t :: ts => toValue t :: toValues ts

end

end LaunchTree

end RosAudit
