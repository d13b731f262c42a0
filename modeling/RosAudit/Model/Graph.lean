import RosAudit.Model.Source

/-!
# The computation graph

Resources of a configuration and the links between them. A resource is listed in the collection
of its kind (`Collection.add`), where names are counted, so that collisions can be told. A link
ties a node instance to a topic, a service or a parameter, and is listed on both sides
(`Model.attach`).

`Model.remap*` gives a copy of a resource under another name, with the links of the first.
`Model.outlinks` follows the links from a node instance to the instances that hear from it.
-/

namespace RosAudit

/-! ## Collections -/

namespace Collection

variable {k : EntityKind}

/-- Lists a resource under its name; the answer also says how often the name was listed before. -/
def add (c : Collection k) (r : Ref k) (id : String) (guarded : Bool) : Collection k × Nat :=
  let before := c.counter.getD id 0
  ({ all := c.all ++ [r]
     enabled := if guarded then c.enabled else c.enabled ++ [r]
     conditional := if guarded then c.conditional ++ [r] else c.conditional
     unresolved := if id.toList.contains '?' then c.unresolved ++ [r] else c.unresolved
     counter := c.counter.put id (before + 1) }, before)

def contains (c : Collection k) (id : String) : Bool := c.counter.contains id

def collisions (c : Collection k) : Int := (c.all.length : Int) - c.counter.size

end Collection

/-! ## Making resources -/

def typeOfValue : Value → Option String
  | .null => none
  | .bool _ => some "int"
  | .int _ => some "int"
  | .float _ => some "double"
  | .text _ => some "string"
  | _ => some "yaml"

/-- The names of the six lists of links that a node instance has. -/
inductive LinkSide where
  | publishers
  | subscribers
  | servers
  | clients
  | reads
  | writes
  deriving DecidableEq, Repr, Inhabited

namespace LinkSide

def all : List LinkSide := [publishers, subscribers, servers, clients, reads, writes]

def label : LinkSide → String
  | publishers => "publishers"
  | subscribers => "subscribers"
  | servers => "servers"
  | clients => "clients"
  | reads => "reads"
  | writes => "writes"

def ofLabel? (s : String) : Option LinkSide := all.find? fun x => x.label == s

end LinkSide

def NodeInstance.side (n : NodeInstance) : LinkSide → List (Ref .link)
  | .publishers => n.publishers
  | .subscribers => n.subscribers
  | .servers => n.servers
  | .clients => n.clients
  | .reads => n.reads
  | .writes => n.writes

def NodeInstance.addTo (n : NodeInstance) (s : LinkSide) (l : Ref .link) : NodeInstance :=
  match s with
  | .publishers => { n with publishers := n.publishers ++ [l] }
  | .subscribers => { n with subscribers := n.subscribers ++ [l] }
  | .servers => { n with servers := n.servers ++ [l] }
  | .clients => { n with clients := n.clients ++ [l] }
  | .reads => { n with reads := n.reads ++ [l] }
  | .writes => { n with writes := n.writes ++ [l] }

/-- The group that a copy takes over: it holds the server, whatever that is. -/
def Server.grouped : Server → Server
  | .nobody => .empty
  | .empty => .empty
  | s => .group s

namespace Model

variable (m : Model)

def guardsOf (e : Entity) : List Guard :=
  match e.kind with
  | .inst => m.guardList (m.inst ⟨e.index⟩).guards
  | .topic => m.guardList (m.topic ⟨e.index⟩).guards
  | .service => m.guardList (m.service ⟨e.index⟩).guards
  | .param => m.guardList (m.param ⟨e.index⟩).guards
  | .link => m.guardList (m.link ⟨e.index⟩).guards
  | _ => []

def makeParam (p : Parameter) : Model × Ref .param :=
  m.addParam { p with type := (nonEmpty? p.type).orElse fun _ => typeOfValue p.value }

def listInstance (r : Ref .inst) : Model × Nat :=
  let x := m.inst r
  let (c, n) := (m.configuration x.configuration).nodes.add r x.name.full
    (!(m.guardList x.guards).isEmpty)
  (m.updateConfiguration x.configuration fun k => { k with nodes := c }, n)

def startInstance (gs : List Guard) (x : Ref .guards → NodeInstance) : Model × Ref .inst :=
  let (m, g) := m.addGuards gs
  let (m, r) := m.addInstance (x g)
  let m := m.updateNode (x g).node fun n => { n with instances := n.instances ++ [r] }
  ((m.listInstance r).1, r)

def listTopic (r : Ref .topic) : Model × Nat :=
  let x := m.topic r
  let (c, n) := (m.configuration x.configuration).topics.add r x.name.full
    (!(m.guardList x.guards).isEmpty)
  (m.updateConfiguration x.configuration fun k => { k with topics := c }, n)

def listService (r : Ref .service) : Model × Nat :=
  let x := m.service r
  let (c, n) := (m.configuration x.configuration).services.add r x.name.full
    (!(m.guardList x.guards).isEmpty)
  (m.updateConfiguration x.configuration fun k => { k with services := c }, n)

def listParam (r : Ref .param) : Model × Nat :=
  let x := m.param r
  let (c, n) := (m.configuration x.configuration).params.add r x.name.full
    (!(m.guardList x.guards).isEmpty)
  (m.updateConfiguration x.configuration fun k => { k with params := c }, n)

/-- The last listed resource with a name, the conditional ones left out if asked for. -/
def lookup {k : EntityKind} (c : Collection k) (name : String) (conditional : Bool := true) :
    Option (Ref k) :=
  c.all.reverse.find? fun r =>
    m.id? r.entity == some name && (conditional || (m.guardsOf r.entity).isEmpty)

/-! ## Links -/

def attach (l : Ref .link) (side : LinkSide) : Model :=
  let x := m.link l
  let m := m.updateInstance x.node fun n => n.addTo side l
  match side with
  | .publishers =>
    m.updateTopic ⟨x.target.index⟩ fun t => { t with publishers := t.publishers ++ [l] }
  | .subscribers =>
    m.updateTopic ⟨x.target.index⟩ fun t => { t with subscribers := t.subscribers ++ [l] }
  | .servers => m.updateService ⟨x.target.index⟩ fun s => { s with server := .one l }
  | .clients => m.updateService ⟨x.target.index⟩ fun s => { s with clients := s.clients ++ [l] }
  | .reads => m.updateParam ⟨x.target.index⟩ fun p => { p with reads := p.reads ++ [l] }
  | .writes => m.updateParam ⟨x.target.index⟩ fun p => { p with writes := p.writes ++ [l] }

/-! ## Copies under another name -/

def copyGuards (r : Ref .guards) : Model × Ref .guards := m.addGuards (m.guardList r)

/-- A node instance under another name. Its arguments are taken over one by one, so that those given
as one text come back as its characters. -/
def remapInstance (r : Ref .inst) (name : Name) : Result (Model × Ref .inst) := do
  let x := m.inst r
  let argv ← x.argv.each
  let (m, g) := m.copyGuards x.guards
  return m.addInstance { x with name, guards := g, argv := .list argv }

def remapTopic (r : Ref .topic) (name : Name) : Model × Ref .topic :=
  let x := m.topic r
  let (m, g) := m.copyGuards x.guards
  m.addTopic { x with name, guards := g }

/-- The link to the one server of a service, where there is one. -/
def serversOf (s : Service) : List (Ref .link) :=
  match s.server with
  | .one l => [l]
  | _ => []

/-- A service under another name. The server of the first is taken over as a group. -/
def remapService (r : Ref .service) (name : Name) : Model × Ref .service :=
  let x := m.service r
  let (m, g) := m.copyGuards x.guards
  m.addService { x with name, guards := g, server := x.server.grouped }

def remapParam (r : Ref .param) (name : Name) : Model × Ref .param :=
  let x := m.param r
  let (m, g) := m.copyGuards x.guards
  m.makeParam { x with name, guards := g, launch := none }

/-! ## Questions about resources -/

def isDisconnected (one other : Nat) : Bool := one + other > 0 && (one == 0 || other == 0)

def traceability (e : Entity) : Result (List Location) :=
  let ofLinks (ls : List (Ref .link)) : List Location := ls.filterMap fun l => (m.link l).location
  let ofLaunch (f : Ref .file) : Location := .source (m.file f).package (some f) none none none
  match e.kind with
  | .inst =>
    match (m.inst ⟨e.index⟩).launch with
    | none => throw .noField
    | some f => pure [ofLaunch f]
  | .topic =>
    let t := m.topic ⟨e.index⟩
    pure (ofLinks t.publishers ++ ofLinks t.subscribers)
  | .service =>
    let s := m.service ⟨e.index⟩
    match s.server with
    | .nobody => pure (ofLinks s.clients)
    | .one l => pure (ofLinks [l] ++ ofLinks s.clients)
    | _ => throw .noField
  | .param =>
    let p := m.param ⟨e.index⟩
    pure ((p.launch.map ofLaunch).toList ++ ofLinks p.reads ++ ofLinks p.writes)
  | _ => throw .noField

/-- Collects the guards of links, and those of their nodes while every node so far has some. A
link without guards on a node without guards settles the matter. -/
def linkGuards (conditional : Bool) : List (Ref .link) → Option (List Guard)
  | [] => some []
  | l :: ls =>
    let x := m.link l
    let own := m.guardList x.guards
    let ofNode := m.guardList (m.inst x.node).guards
    if ofNode.isEmpty && own.isEmpty then none
    else
      let conditional := conditional && !ofNode.isEmpty
      (linkGuards conditional ls).map fun rest =>
        own ++ (if conditional then ofNode else []) ++ rest

def usageGuards (e : Entity) : Result (List Guard) :=
  match e.kind with
  | .topic =>
    let t := m.topic ⟨e.index⟩
    pure ((m.linkGuards true (t.publishers ++ t.subscribers)).getD [])
  | .service =>
    let s := m.service ⟨e.index⟩
    match s.server with
    | .group _ => throw .noField
    | _ => pure ((m.linkGuards true (serversOf s ++ s.clients)).getD [])
  | _ => throw .noField

/-- The node instances that one hears from directly: the subscribers of its topics, then the
servers of its services. -/
def successors (r : Ref .inst) : Result (List (Ref .inst)) := do
  let x := m.inst r
  let heard := x.publishers.flatMap fun p =>
    (m.topic ⟨(m.link p).target.index⟩).subscribers.map fun s => (m.link s).node
  let asked ← x.clients.mapM fun c =>
    match (m.service ⟨(m.link c).target.index⟩).server with
    | .nobody => pure []
    | .one l => pure [(m.link l).node]
    | .empty => pure []
    | .group _ => throw .noField
  pure (heard ++ asked.flatten)

/-- The names that a reference to a node instance can lead to. -/
def instanceNames : List String :=
  (default : NodeInstance).name.full :: m.instances.toList.map fun x => x.name.full

theorem mem_instanceNames (r : Ref .inst) : (m.inst r).name.full ∈ m.instanceNames := by
  unfold inst instanceNames Array.getD
  split
  · exact List.mem_cons_of_mem _ (List.mem_map.mpr ⟨_, Array.getElem_mem_toList _, rfl⟩)
  · exact List.mem_cons_self

/-- How many names were not visited yet. -/
def unvisited (visited : List String) : Nat :=
  (m.instanceNames.filter fun n => !visited.contains n).length

theorem unvisited_cons_lt {visited : List String} {r : Ref .inst}
    (h : ¬ visited.contains (m.inst r).name.full = true) :
    m.unvisited ((m.inst r).name.full :: visited) < m.unvisited visited := by
  have hsplit : (m.instanceNames.filter fun n => !((m.inst r).name.full :: visited).contains n) =
      (m.instanceNames.filter fun n => !visited.contains n).filter
        fun n => n ≠ (m.inst r).name.full := by
    rw [List.filter_filter]
    exact List.filter_congr fun n _ => by simp
  rw [unvisited, hsplit]
  refine List.length_filter_lt_length_iff_exists.mpr
    ⟨_, List.mem_filter.mpr ⟨m.mem_instanceNames r, ?_⟩, ?_⟩
  · simpa using h
  · simp

/-- Takes node instances from a queue and lists those whose name was not visited before. Each time
the successors of `r`, where all began, join the queue. -/
def follow (r : Ref .inst) (queue : List (Ref .inst)) (visited : List String)
    (nodes : List (Ref .inst)) : Result (List (Ref .inst)) :=
  match queue with
  | [] => pure nodes
  | current :: queue =>
    if visited.contains (m.inst current).name.full then follow r queue visited nodes
    else do
      let next ← m.successors r
      follow r (queue ++ next) ((m.inst current).name.full :: visited) (nodes ++ [current])
termination_by (m.unvisited visited, queue.length)
decreasing_by
  · exact Prod.Lex.right _ (Nat.lt_succ_self _)
  · exact Prod.Lex.left _ _ (m.unvisited_cons_lt ‹_›)

/-- A node instance and those that are found when its links are followed. -/
def outlinks (r : Ref .inst) : Result (List (Ref .inst)) := m.follow r [r] [] []

/-- How many listings of a configuration, of all kinds together, share their name with an
earlier one. -/
def collisions (c : Configuration) : Int :=
  let count (t : Table String Nat) (u : Table String Nat) : Table String Nat :=
    u.entries.foldl (fun t e => t.put e.1 (t.getD e.1 0 + e.2)) t
  let all := count (count (count (count Table.empty c.nodes.counter) c.topics.counter)
    c.services.counter) c.params.counter
  (all.values.foldl (· + ·) 0 : Nat) - all.size

def remapCount (c : Configuration) : Nat :=
  (c.nodes.all.flatMap fun r => (m.inst r).remaps.entries).eraseDups.length

def locationOf (e : Entity) : Option Location :=
  match e.kind with
  | .file => some (.source (m.file ⟨e.index⟩).package (some ⟨e.index⟩) none none none)
  | .package => some (.source ⟨e.index⟩ none none none none)
  | .node => some (.source (m.node ⟨e.index⟩).package none none none none)
  | .configuration => some (.runtime ⟨e.index⟩)
  | _ => (m.configurationOf? e).map .runtime

end Model

def Location.smallest : Location → Entity
  | .source p none _ _ _ => p.entity
  | .source _ (some f) _ _ _ => f.entity
  | .runtime c => c.entity

def Location.largest : Location → Entity
  | .source p _ _ _ _ => p.entity
  | .runtime c => c.entity

end RosAudit
