import RosAudit.Configure.Links
import RosAudit.Model.Scene

/-!
# Walking through scopes

A walk opens and leaves the scopes of a launch file by hand, one step at a time, and shows what
each step does to them. The innermost scope is the current one; the outermost is never left.
-/

namespace RosAudit

/-- A walk: the model, and the open scopes from the inside out. -/
structure Walk where
  bench : Workbench
  inner : List LaunchScope := []
  root : LaunchScope

namespace Walk

open Scene (textD text? flag)

def current (w : Walk) : LaunchScope := w.inner.headD w.root

def setCurrent (w : Walk) (s : LaunchScope) : Walk :=
  match w.inner with
  | [] => { w with root := s }
  | _ :: rest => { w with inner := s :: rest }

def onBench {α : Type} (j : Job Workbench α) : Job Walk α := fun w =>
  let (r, bench) := j.exec w.bench
  (r, { w with bench })

def enter (s : LaunchScope) : Job Walk Unit := modify fun w =>
  let here := w.current
  let w := w.setCurrent { here with children := here.children + 1 }
  { w with inner := s :: w.inner }

def look (w : Walk) : Value :=
  let s := w.current
  let m := w.bench.model
  let ids (ps : List (Ref .param)) : Value := .texts (ps.map fun p => (m.param p).name.full)
  .object [("namespace", .text s.space), ("private_ns", .text (s.privateSpace m)),
    ("remaps", Value.ofTable .text (s.remapsIn m)),
    ("node", .text? (s.node.map fun n => (m.inst n).name.full)),
    ("conditions", .texts (s.guards.map Guard.shown)), ("private_params", ids s.held),
    ("future", .nat s.future.length), ("children", .nat s.children),
    ("params", .list (w.bench.params.map fun r =>
      let p := m.param r
      .list [.text p.name.full, .text? p.type, p.value, .bool p.nodeScope,
        .texts ((m.guardList p.guards).map Guard.shown)]))]

def guardOf (step : Value) : Option Guard :=
  match step.field "condition" with
  | .bool false => some (.settled false)
  | .text s => some (.source (.text s) none)
  | _ => none

def paramHints (configuration : Ref .configuration) (v : Value) :
    Job Workbench (List (Ref .param)) :=
  v.items.mapM fun x => do
    match x.items with
    | [n, t, value] =>
      let name ← Job.ofResult (Scene.nameOf n)
      let guards ← LaunchScope.change fun m => m.addGuards []
      LaunchScope.change fun m =>
        m.makeParam { configuration, name, type := t.asText?, value, guards }
    | _ => throw .outOfRange

def hintValues {k : EntityKind} (rules : ResourceRules k) (m : Model) (rs : List (Ref k)) : Value :=
  .list (rs.map fun r => .list [.text (rules.nameOf m r).full, .text? (rules.typeOf m r)])

def step (nodes : Table String (Ref .node)) (tried : Result Value → Value) (x : Value) :
    Job Walk Value := do
  let w ← get
  let s := w.current
  let m := w.bench.model
  let guard := guardOf x
  let ns := text? x "ns"
  let update (j : Job Workbench LaunchScope) : Job Walk Value := do
    let s ← onBench j
    modify (setCurrent · s)
    return look (← get)
  match textD x "do" "" with
  | "show" => pure (look w)
  | "up" => do
    set { w with inner := w.inner.tail }
    return look (← get)
  | "child" => do
    enter (← Job.ofResult (s.child m ns guard s.launch))
    return look (← get)
  | "node" => do
    match nodes.get? (textD x "node" "") with
    | none => throw .noKey
    | some n =>
      let argv := if (x.field "args").isNull then Value.list [] else x.field "args"
      let inner ← onBench (s.makeNode n (text? x "name") ns argv guard)
      enter inner
      match s.handOver with
      | .ok _ => return look (← get)
      | .error f =>
        modify fun w => { w with inner := w.inner.tail }
        throw f
  | "param" =>
    let value := x.field "value"
    let text := if value.isNull then none else some value.display
    update do
      match ← s.setParam (textD x "name" "") (text? x "type") text guard with
      | .ok s => pure s
      | .error u => throw u.fault
  | "rosparam" => update (s.setDocument (text? x "name") ns (textD x "value" "") guard)
  | "remap" => do
    let _ ← update (s.remap (textD x "from" "") (textD x "to" ""))
    let w ← get
    pure (Value.ofTable .text (w.current.remapsIn w.bench.model))
  | "delete" => do
    onBench (s.deleteParam (textD x "name" "") ns guard)
    pure .null
  | "namespace" => return .text (← Job.ofResult (s.namespaceOf m ns (flag x "private" false)))
  | "resolve_ns" => return .text (← Job.ofResult (s.resolveSpace m ns))
  | "ns_join" => pure (.text (joinName (textD x "name" "") (textD x "ns" "")))
  | "unfold" => do
    let leaves ← Job.ofResult (unfold (textD x "name" "") (x.field "value"))
    pure (.list (leaves.map fun (n, v, b) => .list [.text n, v, .bool b]))
  | "convert" =>
    match convertValue (x.field "value").display (text? x "type") with
    | .ok v => pure v
    | .error u => throw u.fault
  | "valid_msg" => pure (.bool (Hints.isMessageType (textD x "type" "")))
  | "hints" => do
    let h ← onBench (Hints.make s (x.field "hints"))
    let m := (← get).bench.model
    let link ←
      if flag x "link" false then do
        let r ← Job.attempt (onBench (h.makeMissing s))
        pure [("link", tried (r.map fun _ => .null))]
      else pure []
    pure (.object ([("advertise", hintValues topicRules m h.advertise),
      ("subscribe", hintValues topicRules m h.subscribe),
      ("service", hintValues serviceRules m h.service),
      ("client", hintValues serviceRules m h.client),
      ("topics", .nat (h.advertise.length + h.subscribe.length)),
      ("services", .nat (h.service.length + h.client.length))] ++ link))
  | "make" => do
    let h ← onBench (Hints.make s (x.field "hints"))
    let params ← onBench (paramHints s.configuration (x.field "param_hints"))
    let topics ← Job.attempt (onBench (s.makeTopics h.advertise h.subscribe))
    let services ← Job.attempt (onBench (s.makeServices h.service h.client))
    let noted ← Job.attempt (onBench (s.noteParams params params))
    match noted with
    | .ok s => modify (setCurrent · s)
    | .error _ => pure ()
    pure (.list [tried (topics.map fun _ => .null), tried (services.map fun _ => .null),
      tried (noted.map fun _ => .null)])
  | "commit" => do
    onBench do
      for p in w.bench.params do
        let _ ← LaunchScope.change fun m => m.listParam p
      for f in s.future do f.make
    let m := (← get).bench.model
    pure (.texts ((m.configuration s.configuration).params.all.map fun p =>
      (m.param p).name.full))
  | _ => pure .null

def ofScene (s : Scene) (space : String) : Walk :=
  let (model, configuration) := s.model.addConfiguration { name := "cfg" }
  { bench := { model }
    root := { configuration, launch := s.sources.values.headD ⟨0⟩, space } }

end Walk

end RosAudit
