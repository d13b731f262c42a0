import RosAudit.Yaml.Token

/-!
# Nodes of a data document

`Node.ofText?` reads the one document of a text: tokens are grouped into scalars, lists and
mappings, and an alias becomes the node that its anchor named before.
-/

namespace RosAudit.Yaml

/-- A node of a document. A scalar keeps whether its kind may be guessed from its text. -/
inductive Node where
  | scalar (tag : Option String) (text : String) (plain : Bool)
  | sequence (tag : Option String) (items : List Node)
  | mapping (tag : Option String) (entries : List (Node × Node))
  deriving Inhabited

structure NodeReader where
  tokens : List Token
  failure : Option Fault := none
  handles : Table String String := Table.empty
  anchors : Table String Node := Table.empty

abbrev NodeJob := Job NodeReader

namespace Node

def standard : String := "tag:yaml.org,2002:"

def standardHandles : Table String String := Table.ofList [("!", "!"), ("!!", standard)]

def absent : Node := .scalar none "" true

def peek : NodeJob Token := do
  let s ← get
  match s.tokens, s.failure with
  | t :: _, _ => pure t
  | [], some f => throw f
  | [], none => pure .streamEnd

def pass : NodeJob Unit := modify fun s => { s with tokens := s.tokens.tail }

def unfit {α : Type} : NodeJob α := throw (.yaml .parsing)

def expect (t : Token) : NodeJob Unit := do
  if (← peek) = t then pass else unfit

def properties : Nat → Option String → Option (Option String × String) →
    NodeJob (Option String × Option (Option String × String))
  | 0, a, t => pure (a, t)
  | n + 1, a, t => do
    match ← peek with
    | .anchor name => if a.isSome then pure (a, t) else do pass; properties n (some name) t
    | .tag h x => if t.isSome then pure (a, t) else do pass; properties n a (some (h, x))
    | _ => pure (a, t)

def fullTag : Option (Option String × String) → NodeJob (Option String)
  | none => pure none
  | some (none, x) => pure (some x)
  | some (some h, x) => do
    match (← get).handles.get? h with
    | some lead => pure (some (lead ++ x))
    | none => unfit

def bindAnchor (name : Option String) (x : Node) : NodeJob Node := do
  match name with
  | some a => modify fun s => { s with anchors := s.anchors.put a x }
  | none => pure ()
  pure x

mutual

def node : Nat → (block bare : Bool) → NodeJob Node
  | 0, _, _ => throw .tooDeep
  | n + 1, block, bare => do
    match ← peek with
    | .alias name =>
      pass
      match (← get).anchors.get? name with
      | some x => pure x
      | none => throw (.yaml .construction)
    | _ =>
      let (anchor, t) ← properties 2 none none
      let tag ← fullTag t
      if anchor.any (← get).anchors.contains then throw (.yaml .construction)
      let kind := if tag == some "!" then none else tag
      let body ← match ← peek with
        | .scalar text plain =>
          pass
          pure (some (.scalar kind text ((plain && tag.isNone) || tag == some "!")))
        | .flowSequenceStart => do
          pass
          pure (some (.sequence kind (← flowItems n true)))
        | .flowMappingStart => do
          pass
          pure (some (.mapping kind (← flowEntries n true)))
        | .blockSequenceStart =>
          if block then do
            pass
            pure (some (.sequence kind (← blockItems n)))
          else pure none
        | .blockMappingStart =>
          if block then do
            pass
            pure (some (.mapping kind (← blockEntries n)))
          else pure none
        | .blockEntry =>
          if bare then pure (some (.sequence kind (← bareItems n))) else pure none
        | _ => pure none
      match body with
      | some x => bindAnchor anchor x
      | none =>
        if anchor.isSome || tag.isSome then
          bindAnchor anchor (.scalar kind "" (tag.isNone || tag == some "!"))
        else unfit

def blockItems : Nat → NodeJob (List Node)
  | 0 => throw .tooDeep
  | n + 1 => do
    match ← peek with
    | .blockEntry =>
      pass
      let x ← match ← peek with
        | .blockEntry | .blockEnd => pure absent
        | _ => node n true false
      return x :: (← blockItems n)
    | .blockEnd => do
      pass
      pure []
    | _ => unfit

def bareItems : Nat → NodeJob (List Node)
  | 0 => throw .tooDeep
  | n + 1 => do
    match ← peek with
    | .blockEntry =>
      pass
      let x ← match ← peek with
        | .blockEntry | .key | .value | .blockEnd => pure absent
        | _ => node n true false
      return x :: (← bareItems n)
    | _ => pure []

def blockEntries : Nat → NodeJob (List (Node × Node))
  | 0 => throw .tooDeep
  | n + 1 => do
    match ← peek with
    | .key =>
      pass
      let k ← match ← peek with
        | .key | .value | .blockEnd => pure absent
        | _ => node n true true
      let v ← blockValue n
      return (k, v) :: (← blockEntries n)
    | .value =>
      let v ← blockValue n
      return (absent, v) :: (← blockEntries n)
    | .blockEnd => do
      pass
      pure []
    | _ => unfit

def blockValue : Nat → NodeJob Node
  | 0 => throw .tooDeep
  | n + 1 => do
    match ← peek with
    | .value =>
      pass
      match ← peek with
      | .key | .value | .blockEnd => pure absent
      | _ => node n true true
    | _ => pure absent

def flowItems : Nat → (first : Bool) → NodeJob (List Node)
  | 0, _ => throw .tooDeep
  | n + 1, first => do
    if (← peek) = .flowSequenceEnd then
      pass
      pure []
    else
      if !first then expect .flowEntry
      match ← peek with
      | .key =>
        pass
        let k ← match ← peek with
          | .value | .flowEntry | .flowSequenceEnd => pure absent
          | _ => node n false false
        let v ← match ← peek with
          | .value => do
            pass
            match ← peek with
            | .flowEntry | .flowSequenceEnd => pure absent
            | _ => node n false false
          | _ => pure absent
        return .mapping none [(k, v)] :: (← flowItems n false)
      | .flowSequenceEnd => do
        pass
        pure []
      | _ =>
        let x ← node n false false
        return x :: (← flowItems n false)

def flowEntries : Nat → (first : Bool) → NodeJob (List (Node × Node))
  | 0, _ => throw .tooDeep
  | n + 1, first => do
    if (← peek) = .flowMappingEnd then
      pass
      pure []
    else
      if !first then expect .flowEntry
      match ← peek with
      | .key =>
        pass
        let k ← match ← peek with
          | .value | .flowEntry | .flowMappingEnd => pure absent
          | _ => node n false false
        let v ← match ← peek with
          | .value => do
            pass
            match ← peek with
            | .flowEntry | .flowMappingEnd => pure absent
            | _ => node n false false
          | _ => pure absent
        return (k, v) :: (← flowEntries n false)
      | .flowMappingEnd => do
        pass
        pure []
      | _ =>
        let k ← node n false false
        return (k, absent) :: (← flowEntries n false)

end

def directives : Nat → Bool → Table String String → NodeJob (Table String String)
  | 0, _, hs => pure hs
  | n + 1, versioned, hs => do
    match ← peek with
    | .versionDirective major _ =>
      if versioned || major != 1 then unfit
      pass
      directives n true hs
    | .tagDirective h lead =>
      if hs.contains h then unfit
      pass
      directives n versioned (hs.put h lead)
    | .directive => do
      pass
      directives n versioned hs
    | _ => pure hs

def passEnds : Nat → NodeJob Unit
  | 0 => pure ()
  | n + 1 => do
    if (← peek) = .documentEnd then
      pass
      passEnds n

def single (fuel : Nat) : NodeJob (Option Node) := do
  let explicit := match ← peek with
    | .versionDirective .. | .tagDirective .. | .directive | .documentStart | .streamEnd => true
    | _ => false
  let content ←
    if explicit then
      if (← peek) = .streamEnd then pure none
      else
        let hs ← directives fuel false Table.empty
        modify fun s => { s with handles := s.handles.merge hs }
        expect .documentStart
        match ← peek with
        | .versionDirective .. | .tagDirective .. | .directive | .documentStart | .documentEnd
        | .streamEnd => pure (some absent)
        | _ => pure (some (← node fuel true false))
    else pure (some (← node fuel true false))
  match content with
  | none => pure none
  | some x =>
    passEnds fuel
    match ← peek with
    | .streamEnd => pure (some x)
    | .documentStart => throw (.yaml .construction)
    | .versionDirective .. | .tagDirective .. | .directive =>
      let _ ← directives fuel false Table.empty
      expect .documentStart
      throw (.yaml .construction)
    | _ => unfit

def ofText? (text : String) : Result (Option Node) :=
  let (ts, failure) := tokens text
  ((single (4 * ts.length + 8)).exec { tokens := ts, failure, handles := standardHandles }).1

end Node

end RosAudit.Yaml
