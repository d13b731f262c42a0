import RosAudit.Fault

/-!
# Graph names

Nodes, topics, services and parameters are addressed by names. A name is written relative
(`a/b`), global (`/a/b`) or private (`~a`), and is resolved against the namespace it is used in;
then the remappings in force are applied once. A `?` in a resolved name stands for a part that is
not known statically, and `Name.pattern` gives the expression that the actual name must match.

`Name.resolve` refuses the empty name, and `Name.pattern` two unknown parts in a row.
-/

namespace RosAudit

open RosAudit.Text

/-- A name as it was given, and as it is in the graph. -/
structure Name where
  given : String
  full : String
  deriving DecidableEq, Repr, Inhabited

abbrev Remaps := Table String String

namespace Name

def resolve (name ns privateNs : String) : Result String :=
  match name.toList with
  | [] => throw .outOfRange
  | '~' :: rest => pure (privateNs ++ "/" ++ String.ofList rest)
  | '/' :: _ => pure name
  | _ => pure (if ns.toList.getLast? == some '/' then ns ++ name else ns ++ "/" ++ name)

def transform (name ns privateNs : String) (remaps : Remaps) : Result String := do
  let full ← resolve name ns privateNs
  pure (remaps.getD full full)

def make (name : String) (ns : String := "/") (privateNs : String := "")
    (remaps : Remaps := Table.empty) : Result Name := do
  let full ← transform name ns privateNs remaps
  pure { given := name, full }

def own (n : Name) : String :=
  match cutAtLast '/' n.full.toList with
  | some (_, r) => String.ofList r
  | none => n.full

def space (n : Name) : String :=
  let l := match cutAtLast '/' n.full.toList with
    | some (l, _) => String.ofList l
    | none => n.full
  if l.isEmpty then "/" else l

def isGlobal (n : Name) : Bool := n.given.toList.head? == some '/'

def isPrivate (n : Name) : Bool := n.given.toList.head? == some '~'

def isUnresolved (n : Name) : Bool := n.full.toList.contains '?'

/-- The expression for the rest of a name. `lit` is the literal part read since the last unknown
part, reversed, and `prev` the character before the rest. -/
def patternFrom (lit : List Char) (prev : Option Char) : List Char → Result (List Char)
  | [] => pure (lit.reverse ++ ['$'])
  | '?' :: rest =>
    if prev == some '?' then throw .broken
    else if prev == some '/' then
      match rest with
      | [] => pure (lit.reverse ++ "(.+?)$".toList)
      | '/' :: _ => do
        let more ← patternFrom [] (some '?') rest
        pure (lit.tail.reverse ++ "(/.+?)?".toList ++ more)
      | _ => do
        let more ← patternFrom [] (some '?') rest
        pure (lit.reverse ++ "(.*?)".toList ++ more)
    else do
      let more ← patternFrom [] (some '?') rest
      pure (lit.reverse ++ "(.*?)".toList ++ more)
  | c :: rest => patternFrom (c :: lit) (some c) rest

/-- The expression that full names must match to be what this name may stand for. -/
def pattern (n : Name) : Result String :=
  match n.full.toList with
  | [] => throw .outOfRange
  | ['?'] => pure ".+$"
  | '?' :: rest => do
    let more ← patternFrom [] (some '?') rest
    pure (String.ofList ("(.*?)".toList ++ more))
  | cs => do
    let p ← patternFrom [] none cs
    pure (String.ofList p)

end Name

end RosAudit
