import RosAudit.Launch.Tree
import RosAudit.Name

/-!
# The system model

What an audit knows about a robot system, as one relational value. On the source side there are
projects, repositories, packages, files and nodes, a node being a program with the calls that its
code makes. On the runtime side there are configurations with node instances, topics, services
and parameters, and the links between them.

Every object stands in a store of the `Model` and is referred to by a `Ref`, a typed index into
that store, so that two parts of the model can speak about the same object. Lists of guards (the
conditions under which something happens) are objects too: a call, the link made from it and the
resource it touches can share one list, and what is added to it through one of them is seen
through all.
-/

namespace RosAudit

/-- The kinds of object in a model. -/
inductive EntityKind where
  | project
  | repository
  | package
  | file
  | node
  | configuration
  | inst
  | topic
  | service
  | param
  | link
  | guards
  deriving DecidableEq, Repr, Inhabited

/-- A reference to an object of a kind: its place in the store. -/
structure Ref (k : EntityKind) where
  index : Nat
  deriving DecidableEq, Repr, Inhabited

/-- A reference to an object of any kind. -/
structure Entity where
  kind : EntityKind
  index : Nat
  deriving DecidableEq, Repr, Inhabited

def Ref.entity {k : EntityKind} (r : Ref k) : Entity := ⟨k, r.index⟩

/-! ## Source objects -/

structure Person where
  name : String
  email : String
  deriving DecidableEq, Repr, Inhabited

/-- Where something was found: in the source code, or in a running configuration. -/
inductive Location where
  | source (package : Ref .package) (file : Option (Ref .file)) (line : Option Int)
      (function : Option String) (className : Option String)
  | runtime (configuration : Ref .configuration)
  deriving DecidableEq, Repr, Inhabited

/-- A condition under which something happens: one found in the source, mostly a text, or a settled
one. -/
inductive Guard where
  | source (condition : Value) (location : Option Location)
  | settled (b : Bool)
  deriving Inhabited

/-- The ways in which a program uses the computation graph. -/
inductive CallKind where
  | advertise
  | subscribe
  | service
  | client
  | readParam
  | writeParam
  deriving DecidableEq, Repr, Inhabited

/-- A call that a program makes. -/
structure Call where
  name : Option String
  space : Option String := none
  type : Option String := none
  queue : Value := .null
  depth : Int := 0
  repeats : Bool := false
  guards : Ref .guards
  location : Option Location := none
  deriving Inhabited

def namedTarget (name : Option String) : Result String :=
  match name with
  | some s => pure s
  | none => throw .wrongKind

def Call.target (c : Call) : Result String := namedTarget c.name

structure SourceFile where
  name : String
  directory : String
  package : Ref .package
  packageName : String
  fullName : String
  folder : String
  path : String
  language : String
  tree : Option LaunchTree := none
  size : Int := 0
  lines : Int := 0
  sloc : Int := 0
  timestamp : Value := .int 0
  deriving Inhabited

structure Package where
  name : String
  project : Option (Ref .project) := none
  repository : Option (Ref .repository) := none
  authors : List Person := []
  maintainers : List Person := []
  isMetapackage : Bool := false
  description : String := ""
  licenses : List String := []
  website : Option String := none
  vcsUrl : Option String := none
  bugUrl : Option String := none
  path : Option String := none
  files : List (Ref .file) := []
  nodes : List (Ref .node) := []
  listing : Option (List (Ref .file)) := none
  dependencies : List String := []
  size : Int := 0
  lines : Int := 0
  sloc : Int := 0
  tier : Int := 0
  deriving Inhabited

structure Repository where
  name : String
  project : Option (Ref .project) := none
  vcs : Value := .null
  url : Value := .null
  version : Value := .null
  status : Value := .null
  path : Option String := none
  packages : List (Ref .package) := []
  declared : Value := .list []
  commits : Int := 1
  deriving Inhabited

/-- A group of packages that are audited together. -/
structure Project where
  name : String
  packages : List (Ref .package) := []
  repositories : List (Ref .repository) := []
  configurations : List (Ref .configuration) := []
  deriving Inhabited

/-- A program that can be run as a node, or loaded as a nodelet. A node that was remembered from an
earlier audit has a label in place of its name at runtime. -/
structure Node where
  name : String
  package : Ref .package
  packageName : String
  rosname : Option Name := none
  label : Value := .null
  nodelet : Option String := none
  files : List (Ref .file) := []
  instances : List (Ref .inst) := []
  isParsed : Bool := false
  advertise : List Call := []
  subscribe : List Call := []
  service : List Call := []
  client : List Call := []
  readParam : List Call := []
  writeParam : List Call := []
  deriving Inhabited

def Node.calls (n : Node) : CallKind → List Call
  | .advertise => n.advertise
  | .subscribe => n.subscribe
  | .service => n.service
  | .client => n.client
  | .readParam => n.readParam
  | .writeParam => n.writeParam

def Node.setCalls (n : Node) (k : CallKind) (cs : List Call) : Node :=
  match k with
  | .advertise => { n with advertise := cs }
  | .subscribe => { n with subscribe := cs }
  | .service => { n with service := cs }
  | .client => { n with client := cs }
  | .readParam => { n with readParam := cs }
  | .writeParam => { n with writeParam := cs }

/-! ## The computation graph -/

/-- A running instance of a node. -/
structure NodeInstance where
  configuration : Ref .configuration
  name : Name
  node : Ref .node
  launch : Option (Ref .file) := none
  argv : Value := .list []
  remaps : Remaps := Table.empty
  guards : Ref .guards
  publishers : List (Ref .link) := []
  subscribers : List (Ref .link) := []
  servers : List (Ref .link) := []
  clients : List (Ref .link) := []
  reads : List (Ref .link) := []
  writes : List (Ref .link) := []
  deriving Inhabited

structure Topic where
  configuration : Ref .configuration
  name : Name
  type : Option String := none
  guards : Ref .guards
  publishers : List (Ref .link) := []
  subscribers : List (Ref .link) := []
  deriving Inhabited

/-- Who serves a service: nobody, one link, or the group that it took over from another service. A
group is empty or holds the server of the other one, which may be a group itself. -/
inductive Server where
  | nobody
  | one (link : Ref .link)
  | empty
  | group (server : Server)
  deriving DecidableEq, Repr, Inhabited

structure Service where
  configuration : Ref .configuration
  name : Name
  type : Option String := none
  guards : Ref .guards
  server : Server := .nobody
  clients : List (Ref .link) := []
  deriving Inhabited

structure Parameter where
  configuration : Ref .configuration
  name : Name
  type : Option String := none
  value : Value := .null
  nodeScope : Bool := false
  launch : Option (Ref .file) := none
  guards : Ref .guards
  reads : List (Ref .link) := []
  writes : List (Ref .link) := []
  deriving Inhabited

/-- What a link stands for. The three bare roles tie a node to a resource without saying which
side uses it. -/
inductive LinkRole where
  | publish
  | subscribe
  | serve
  | request
  | read
  | write
  | topic
  | service
  | param
  deriving DecidableEq, Repr, Inhabited

/-- A tie between a node instance and a resource that it uses. -/
structure Link where
  role : LinkRole
  node : Ref .inst
  target : Entity
  type : Option String := none
  name : Name
  queue : Value := .null
  guards : Ref .guards
  location : Option Location := none
  deriving Inhabited

/-- The resources of one kind in a configuration. Whether a resource counts as enabled or as
conditional is settled when it is added. -/
structure Collection (k : EntityKind) where
  all : List (Ref k) := []
  enabled : List (Ref k) := []
  unresolved : List (Ref k) := []
  conditional : List (Ref k) := []
  counter : Table String Nat := Table.empty
  deriving Inhabited

/-- A set of launched nodes with their resources. -/
structure Configuration where
  name : String
  environment : Table String String := Table.empty
  launches : List (Ref .file) := []
  nodes : Collection .inst := {}
  topics : Collection .topic := {}
  services : Collection .service := {}
  params : Collection .param := {}
  packageUses : List String := []
  environmentUses : List String := []
  deriving Inhabited

/-! ## The stores -/

structure Model where
  projects : Array Project := #[]
  repositories : Array Repository := #[]
  packages : Array Package := #[]
  files : Array SourceFile := #[]
  nodes : Array Node := #[]
  configurations : Array Configuration := #[]
  instances : Array NodeInstance := #[]
  topics : Array Topic := #[]
  services : Array Service := #[]
  params : Array Parameter := #[]
  links : Array Link := #[]
  guards : Array (List Guard) := #[]
  deriving Inhabited

namespace Model

variable (m : Model)

def project (r : Ref .project) : Project := m.projects.getD r.index default
def repository (r : Ref .repository) : Repository := m.repositories.getD r.index default
def package (r : Ref .package) : Package := m.packages.getD r.index default
def file (r : Ref .file) : SourceFile := m.files.getD r.index default
def node (r : Ref .node) : Node := m.nodes.getD r.index default
def configuration (r : Ref .configuration) : Configuration := m.configurations.getD r.index default
def inst (r : Ref .inst) : NodeInstance := m.instances.getD r.index default
def topic (r : Ref .topic) : Topic := m.topics.getD r.index default
def service (r : Ref .service) : Service := m.services.getD r.index default
def param (r : Ref .param) : Parameter := m.params.getD r.index default
def link (r : Ref .link) : Link := m.links.getD r.index default
def guardList (r : Ref .guards) : List Guard := m.guards.getD r.index []

/-! Adding an object gives the model with it, and its reference. -/

def addProject (p : Project) : Model × Ref .project :=
  ({ m with projects := m.projects.push p }, ⟨m.projects.size⟩)

def addRepository (x : Repository) : Model × Ref .repository :=
  ({ m with repositories := m.repositories.push x }, ⟨m.repositories.size⟩)

def addPackage (x : Package) : Model × Ref .package :=
  ({ m with packages := m.packages.push x }, ⟨m.packages.size⟩)

def addFile (x : SourceFile) : Model × Ref .file :=
  ({ m with files := m.files.push x }, ⟨m.files.size⟩)

def addNode (x : Node) : Model × Ref .node :=
  ({ m with nodes := m.nodes.push x }, ⟨m.nodes.size⟩)

def addConfiguration (x : Configuration) : Model × Ref .configuration :=
  ({ m with configurations := m.configurations.push x }, ⟨m.configurations.size⟩)

def addInstance (x : NodeInstance) : Model × Ref .inst :=
  ({ m with instances := m.instances.push x }, ⟨m.instances.size⟩)

def addTopic (x : Topic) : Model × Ref .topic :=
  ({ m with topics := m.topics.push x }, ⟨m.topics.size⟩)

def addService (x : Service) : Model × Ref .service :=
  ({ m with services := m.services.push x }, ⟨m.services.size⟩)

def addParam (x : Parameter) : Model × Ref .param :=
  ({ m with params := m.params.push x }, ⟨m.params.size⟩)

def addLink (x : Link) : Model × Ref .link :=
  ({ m with links := m.links.push x }, ⟨m.links.size⟩)

def addGuards (gs : List Guard) : Model × Ref .guards :=
  ({ m with guards := m.guards.push gs }, ⟨m.guards.size⟩)

/-! Changing an object in its place. -/

def updateProject (r : Ref .project) (f : Project → Project) : Model :=
  { m with projects := m.projects.modify r.index f }

def updateRepository (r : Ref .repository) (f : Repository → Repository) : Model :=
  { m with repositories := m.repositories.modify r.index f }

def updatePackage (r : Ref .package) (f : Package → Package) : Model :=
  { m with packages := m.packages.modify r.index f }

def updateFile (r : Ref .file) (f : SourceFile → SourceFile) : Model :=
  { m with files := m.files.modify r.index f }

def updateNode (r : Ref .node) (f : Node → Node) : Model :=
  { m with nodes := m.nodes.modify r.index f }

def updateConfiguration (r : Ref .configuration) (f : Configuration → Configuration) : Model :=
  { m with configurations := m.configurations.modify r.index f }

def updateInstance (r : Ref .inst) (f : NodeInstance → NodeInstance) : Model :=
  { m with instances := m.instances.modify r.index f }

def updateTopic (r : Ref .topic) (f : Topic → Topic) : Model :=
  { m with topics := m.topics.modify r.index f }

def updateService (r : Ref .service) (f : Service → Service) : Model :=
  { m with services := m.services.modify r.index f }

def updateParam (r : Ref .param) (f : Parameter → Parameter) : Model :=
  { m with params := m.params.modify r.index f }

def extendGuards (r : Ref .guards) (gs : List Guard) : Model :=
  { m with guards := m.guards.modify r.index (· ++ gs) }

end Model

end RosAudit
