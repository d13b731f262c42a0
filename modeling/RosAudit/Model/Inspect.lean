import RosAudit.Model.Scene

/-!
# Inspecting a scene

The questions that a script can ask about the objects of a scene: their texts, records and
properties, how they compare, what they are tied to. An answer may have parts that fail on their
own; how such a part is shown is left to the caller, who passes `tried`.
-/

namespace RosAudit

/-- A thing that a script speaks about: an object, several things, or plain data. -/
inductive Item where
  | entity (e : Entity)
  | group (xs : List Item)
  | named (es : List (String × Item))
  | data (v : Value)
  deriving Inhabited

namespace Model

variable (m : Model)

def properties (e : Entity) : List (String × Result Value) :=
  let id := ("id", (pure (.text? (m.id? e)) : Result Value))
  let name (s : String) := ("name", (pure (.text s) : Result Value))
  let say (k : String) (v : Value) := (k, (pure v : Result Value))
  let place := say "location" (.text (((m.locationOf e).map m.showLocation).getD "None"))
  let scope := say "scope" (.text? e.scope?)
  let resource (n : Name) (type : String) : List (String × Result Value) :=
    let gs := m.guardsOf e
    let disabled := gs.any fun
      | .settled b => !b
      | .source _ _ => false
    [id, name n.own, say "namespace" (.text n.space), say "enabled" (.bool gs.isEmpty),
      say "disabled" (.bool disabled), say "conditional" (.bool (!gs.isEmpty && !disabled)),
      say "unresolved" (.bool n.isUnresolved), say "resource_type" (.text type), place]
  match e.kind with
  | .file =>
    let f := m.file ⟨e.index⟩
    [id, name f.name, place, scope, say "language" (.text f.language),
      say "full_name" (.text f.fullName), say "path" (.text f.path),
        say "dir_path" (.text f.folder),
      say "timestamp" f.timestamp]
  | .package =>
    let p := m.package ⟨e.index⟩
    [id, name p.name, place, scope, say "path" (.text? p.path),
      say "file_count" (.nat p.files.length)]
  | .repository =>
    let r := m.repository ⟨e.index⟩
    [id, name r.name, place, scope, say "path" (.text? r.path)]
  | .project => [id, name (m.project ⟨e.index⟩).name, place, scope]
  | .node =>
    let n := m.node ⟨e.index⟩
    [id, name n.name, place, scope,
      say "language" (.text? (n.files.head?.map fun f => (m.file f).language)),
      say "is_nodelet" (.bool n.nodelet.isSome), say "node_name" (.text n.nodeName),
      say "timestamp" (m.timestampOf n)]
  | .configuration => [id, name (m.configuration ⟨e.index⟩).name, place]
  | .inst =>
    let x := m.inst ⟨e.index⟩
    resource x.name "node" ++ [say "servers" (.nat x.servers.length)]
  | .topic =>
    let t := m.topic ⟨e.index⟩
    resource t.name "topic" ++ [say "type" (.text? t.type),
      say "is_disconnected" (.bool (isDisconnected t.publishers.length t.subscribers.length))]
  | .service =>
    let s := m.service ⟨e.index⟩
    let served := if s.server = .nobody then 0 else 1
    let servers := match s.server with
      | .nobody => 0
      | .empty => 0
      | _ => 1
    resource s.name "service" ++ [say "type" (.text? s.type),
      say "is_disconnected" (.bool (isDisconnected served s.clients.length)),
      say "servers" (.nat servers)]
  | .param =>
    let p := m.param ⟨e.index⟩
    resource p.name "param" ++ [say "type" (.text? p.type)]
  | .link =>
    let l := m.link ⟨e.index⟩
    let target := Value.text? (m.id? l.target)
    [place, say "type" (.text? l.type),
      say (if l.target.kind = .param then "param_name" else "topic_name") target]
  | .guards => []

def compareScopes (test : Nat → Nat → Bool) (a : Entity) (b : Item) : Result Value := do
  let other ← match b with
    | .data (.text s) => pure s
    | .entity e =>
      match e.scope? with
      | some s => pure s
      | none => throw .noField
    | _ => throw .noField
  match a.scope? with
  | none => throw .wrongKind
  | some own => return .bool (test (← scopeRank own) (← scopeRank other))

def sameItem (a b : Item) : Bool :=
  match a, b with
  | .entity x, .entity y => m.equal x y
  | .data x, .data y => Value.same x y
  | _, _ => false

def distinct : List Item → Nat
  | [] => 0
  | x :: xs => (if xs.any (m.sameItem x) then 0 else 1) + distinct xs

end Model

namespace Scene

def entityOf (v : Value) : Job Scene Entity := do
  let s ← get
  let named {k : EntityKind} (t : Table String (Ref k)) (x : Value) : Job Scene Entity := do
    return (← require (x.asText?.bind fun n => t.get? n)).entity
  match v with
  | .record [(.text "h", x)] => handle (x.asText?.getD "")
  | .record [(.text "pkg", x)] => named s.packages x
  | .record [(.text "file", x)] => named s.sources x
  | .record [(.text "node", x)] => named s.nodes x
  | .record [(.text "repo", x)] => named s.repositories x
  | .record [(.text "config", x)] => named s.configurations x
  | .record [(.text "project", _)] => pure s.project.entity
  | .record [(.text "link", .list [h, side, i])] =>
    let n ← handle (h.asText?.getD "")
    let side ← require (LinkSide.ofLabel? (side.asText?.getD ""))
    let l := ((s.model.inst ⟨n.index⟩).side side)[(i.asInt?.getD 0).toNat]?
    match l with
    | some l => pure l.entity
    | none => throw .outOfRange
  | _ => throw .noKey

def referenceKeys : List String := ["h", "pkg", "file", "node", "repo", "config", "project", "link"]

mutual

def itemOf : Value → Job Scene Item
  | .record [(.text "tuple", .list xs)] => return .group (← itemsOf xs)
  | .record [(.text "dict", .record es)] => return .named (← namedOf es)
  | .record [(.text k, x)] =>
    if referenceKeys.contains k then return .entity (← entityOf (.record [(.text k, x)]))
    else pure (.data (.record [(.text k, x)]))
  | v => pure (.data v)

def itemsOf : List Value → Job Scene (List Item)
  | [] => pure []
  | x :: xs => do
    let i ← itemOf x
    let is ← itemsOf xs
    pure (i :: is)

def namedOf : List (Value × Value) → Job Scene (List (String × Item))
  | [] => pure []
  | (k, x) :: es => do
    let i ← itemOf x
    let is ← namedOf es
    pure ((k.display, i) :: is)

end

/-- A collection of a configuration, with its kind forgotten. -/
structure AnyCollection where
  kind : EntityKind
  collection : Collection kind

def collectionOf (c : Configuration) (name : String) : AnyCollection :=
  match name with
  | "nodes" => ⟨.inst, c.nodes⟩
  | "topics" => ⟨.topic, c.topics⟩
  | "services" => ⟨.service, c.services⟩
  | _ => ⟨.param, c.params⟩

def atIndex? {α : Type} (xs : List α) (i : Int) : Option α :=
  if i < 0 then (if i.natAbs ≤ xs.length then xs[xs.length - i.natAbs]? else none)
  else xs[i.toNat]?

def collectionValue (tried : Result Value → Value) (m : Model) (x : AnyCollection) (step : Value) :
    Value :=
  let c := x.collection
  let ids (rs : List (Ref x.kind)) : Value := .texts (rs.map fun r => (m.id? r.entity).getD "")
  .object [("len", .nat c.all.length), ("ids", ids c.all), ("enabled", ids c.enabled),
    ("conditional", ids c.conditional), ("unresolved", ids c.unresolved),
    ("counter", Value.ofTable .nat c.counter), ("collisions", .int c.collisions),
    ("has", .object ((textList (step.field "names")).map fun n => (n, .bool (c.contains n)))),
    ("at", .list ((step.field "at").items.map fun i =>
      tried (match atIndex? c.all (i.asInt?.getD 0) with
        | some r => pure (.text? (m.id? r.entity))
        | none => throw .outOfRange)))]

def inspectCall (kind : CallKind) (v : Value) : Job Scene Value := do
  let c ← callOf v
  let m := (← get).model
  let text := Value.text (m.showCall c)
  return .object [("json", ← Job.ofResult (m.callValue kind c)), ("str", text), ("repr", text)]

def remapEntity (e : Entity) (n : Name) : Job Scene Entity :=
  match e.kind with
  | .inst => do
    let (m, r) ← Job.ofResult ((← get).model.remapInstance ⟨e.index⟩ n)
    modify fun s => { s with model := m }
    return r.entity
  | .topic => return (← change fun m => m.remapTopic ⟨e.index⟩ n).entity
  | .service => return (← change fun m => m.remapService ⟨e.index⟩ n).entity
  | .param => return (← change fun m => m.remapParam ⟨e.index⟩ n).entity
  | _ => throw .noField

def sameSet (a b : List String) : Bool := a.all b.contains && b.all a.contains

def answer (tried : Result Value → Value) (step : Value) : Job Scene Value := do
  match ← perform step with
  | some v => return v
  | none =>
    let of : Job Scene Entity := entityOf (step.field "of")
    let s ← get
    let m := s.model
    match textD step "do" "" with
    | "json" => Job.ofResult (m.toValue (← of))
    | "str" => return .text (m.shown (← of))
    | "props" => return .object ((m.properties (← of)).map fun (k, r) => (k, tried r))
    | "trace" =>
      return .texts ((← Job.ofResult (m.traceability (← of))).map m.showLocation)
    | "remap" =>
      let n ← Job.ofResult (nameOf (step.field "name"))
      let e ← remapEntity (← of) n
      remember step e
      return .texts [m.kindWord (← of), n.full]
    | "outlinks" =>
      let e ← of
      if e.kind ≠ .inst then throw .noField
      return .texts ((← Job.ofResult (m.outlinks ⟨e.index⟩)).map fun r => (m.inst r).name.full)
    | "conditions" =>
      return .texts ((← Job.ofResult (m.usageGuards (← of))).map Guard.shown)
    | "get" =>
      let c := collectionOf (m.configuration (← configOf step)) (textD step "coll" "")
      match m.lookup c.collection (textD step "name" "") (flag step "conditional" true) with
      | none => return .null
      | some r =>
        let handles := s.handles.entries.filterMap fun (h, e) =>
          if e = r.entity then some h else none
        return .object [("id", .text? (m.id? r.entity)),
          ("conditions", .texts ((m.guardsOf r.entity).map Guard.shown)), ("is", .texts handles)]
    | "coll" =>
      let c := collectionOf (m.configuration (← configOf step)) (textD step "coll" "")
      return collectionValue tried m c step
    | "collisions" => return .int (Model.collisions (m.configuration (← configOf step)))
    | "remaps" => return .nat (m.remapCount (m.configuration (← configOf step)))
    | "eq" =>
      let same := m.sameItem (← itemOf (step.field "a")) (← itemOf (step.field "b"))
      return .list [.bool same, .bool (!same)]
    | "cmp" =>
      let a ← entityOf (step.field "a")
      let b ← itemOf (step.field "b")
      return .object [("lt", tried (Model.compareScopes (· < ·) a b)),
        ("le", tried (Model.compareScopes (· ≤ ·) a b)),
          ("gt", tried (Model.compareScopes (· > ·) a b)),
        ("ge", tried (Model.compareScopes (· ≥ ·) a b))]
    | "bound" =>
      let a ← entityOf (step.field "a")
      let b ← entityOf (step.field "b")
      return .bool (← Job.ofResult (m.boundTo a b))
    | "accepts" => return .bool (← Job.ofResult (Model.acceptsScope (← of) (textD step "scope" "")))
    | "hash" => return .nat (m.distinct (← itemsOf (step.field "objects").items))
    | "loc" =>
      match ← locationOf (step.field "loc") with
      | none => throw .noField
      | some l =>
        return .object [("str", .text (m.showLocation l)), ("json", m.locationValue l),
          ("large", .text? (m.id? l.largest)), ("small", .text? (m.id? l.smallest))]
    | "call" =>
      let kind ← require (callKeys.lookup (textD step "kind" ""))
      inspectCall kind (step.field "call")
    | "cond" =>
      let g ← guardOf (step.field "cond")
      let text := Value.text g.shown
      return .object [("json", ← Job.ofResult (m.guardValue g)), ("str", text), ("repr", text),
        ("language", .text (m.guardLanguage g))]
    | "type_of" => return .text? (typeOfValue (step.field "value"))
    | "file_stats" =>
      let e ← of
      let (f, ignored) ← Job.ofResult ((m.file ⟨e.index⟩).measure s.files)
      touch fun m => m.updateFile ⟨e.index⟩ fun _ => f
      return .object [("ignore", .object [("*", .list (ignored.map .nat))]),
        ("json", Model.fileValue f)]
    | "deps_eq" =>
      let part (x : Value) (k : String) : List String := textList (x.field k)
      let same := ["files", "packages", "arguments", "environment"].all fun k =>
        sameSet (part (step.field "a") k) (part (step.field "b") k)
      return .list [.bool same, .bool (!same)]
    | "persons" =>
      let people := (step.field "people").items.map fun x => (peopleOf (.list [x])).headD default
      let kept := peopleOf (step.field "people")
      return .object [("names", .texts (people.map Person.name)),
        ("emails", .texts (people.map Person.email)),
        ("eq", .list (people.map fun a => .list (people.map fun b => .bool (a.email == b.email)))),
        ("kept", Model.peopleNames kept)]
    | "collection" =>
      let topics ← (textList (step.field "topics")).mapM handle
      let list (c : Collection .topic) (e : Entity) : Collection .topic :=
        (c.add ⟨e.index⟩ ((m.id? e).getD "") (!(m.guardsOf e).isEmpty)).1
      let (m, r) := m.addConfiguration { name := "x", topics := topics.foldl list {} }
      let c := m.configuration r
      return .list [.text (m.shown r.entity),
        .texts (c.topics.all.map fun t => (m.id? t.entity).getD ""), .int (Model.collisions c)]
    | "base" =>
      let abstract (what : String) : Value :=
        tried (throw (.unsupported ("subclasses must implement this " ++ what)))
      return .list [abstract "property", abstract "method", abstract "method", .text "id:x",
        .bool true, .null, .bool false, .bool false,
        .text "\x7b'files': set(), 'packages': set(), 'arguments': set(), 'environment': set()\x7d",
        .bool false, tried (throw (.unsupported "error nodes do not have children")),
        tried (throw (.unsupported "subclasses must override 'tag'")), .text "Event([])"]
    | _ => return .null

end Scene

end RosAudit
