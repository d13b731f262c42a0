import RosAudit.Extract.Nodes
import RosAudit.Proofs.Job
import RosAudit.Proofs.Model.Quiet

/-!
# The nodes that a build makes

When the scripts of a package were worked through, each nodelet of the package gets the source files
of its library (`node_foldl_supply`), and each executable adds its node (`grown_foldl_addProgram`).
`built_rebuild` puts both together : it says which nodes the package has afterwards. The nodes of
other packages, and all else in the model, stay as they are (`Model.Beside`).
-/

namespace RosAudit

open Job List

/-! ## Changes that belong to one package -/

variable {m m' : Model}

namespace Model

/-- From `m` to `m'` only the nodes of the package `p` change, and which it has. -/
structure Beside (p : Ref .package) (m m' : Model) : Prop where
  files : m'.files = m.files
  size_packages : m'.packages.size = m.packages.size
  package : ∀ q, q ≠ p → m'.package q = m.package q
  home : ∃ nodes, m'.package p = { m.package p with nodes := nodes }
  size_nodes : m.nodes.size ≤ m'.nodes.size
  owner : ∀ r : Ref .node, r.index < m.nodes.size → (m'.node r).package = (m.node r).package
  node : ∀ r : Ref .node, r.index < m.nodes.size → (m.node r).package ≠ p → m'.node r = m.node r

variable {p : Ref .package}

instance : IsPreorder Model (Beside p) where
  refl m := ⟨rfl, rfl, fun _ _ => rfl, ⟨_, rfl⟩, Nat.le_refl _, fun _ _ => rfl, fun _ _ _ => rfl⟩
  trans := by
    intro m m' m'' h h'
    have hlt : ∀ {r : Ref .node}, r.index < m.nodes.size → r.index < m'.nodes.size :=
      fun hr => Nat.lt_of_lt_of_le hr h.size_nodes
    exact {
      files := h'.files.trans h.files
      size_packages := h'.size_packages.trans h.size_packages
      package := fun q hq => (h'.package q hq).trans (h.package q hq)
      home := by
        obtain ⟨nodes, hm'⟩ := h.home
        obtain ⟨nodes', hm''⟩ := h'.home
        exact ⟨nodes', by rw [hm'', hm']⟩
      size_nodes := Nat.le_trans h.size_nodes h'.size_nodes
      owner := fun r hr => (h'.owner r (hlt hr)).trans (h.owner r hr)
      node := fun r hr hp =>
        (h'.node r (hlt hr) (fun heq => hp ((h.owner r hr).symm.trans heq))).trans
          (h.node r hr hp) }

theorem beside_updateNode {r} (hr : (m.node r).package = p) {f}
    (hf : ∀ n, (f n).package = n.package) : Beside p m (m.updateNode r f) :=
  { refl_of (Beside p) m with
    size_nodes := Nat.le_of_eq (Array.size_modify ..).symm
    owner := fun r' _ => view_getD_modify _ _ Node.package hf _ _
    node := fun r' _ hp => by
      refine getD_modify_of_ne _ _ _ fun heq => hp ?_
      obtain rfl : r = r' := congrArg Ref.mk heq
      exact hr }

theorem beside_addNode (m : Model) (x : Node) : Beside p m (m.addNode x).1 :=
  { refl_of (Beside p) m with
    size_nodes := by simp [addNode]
    owner := fun _ hr => congrArg Node.package (getD_push_of_lt _ _ x hr)
    node := fun _ hr _ => getD_push_of_lt _ _ x hr }

theorem beside_updatePackage (m : Model) (g : List (Ref .node) → List (Ref .node)) :
    Beside p m (m.updatePackage p fun k => { k with nodes := g k.nodes }) :=
  { refl_of (Beside p) m with
    size_packages := Array.size_modify ..
    package := fun q hq => getD_modify_ref_of_ne _ _ _ hq
    home := by
      rcases getD_modify_or m.packages default _ p.index p.index with h | ⟨-, h⟩
      · exact ⟨(m.package p).nodes, h⟩
      · exact ⟨_, h⟩ }

end Model

open Model

variable {p : Ref .package}

namespace NodeFinder

/-! ## Nodelets -/

def libraryFiles (m : Model) (p : Ref .package) (b : CMake.Project) :
    Table String (List (Ref .file)) :=
  Table.ofList (b.libraries.values.map fun t => (t.prefixedName, targetFiles m p b t))

def sourcesOf (files : Table String (List (Ref .file))) (n : Node) : List (Ref .file) :=
  match n.nodelet, files.get? n.name with
  | some _, some fs => fs
  | _, _ => n.files

def withSources (files : Table String (List (Ref .file))) (n : Node) : Node :=
  { n with files := sourcesOf files n }

theorem withSources_idem (files n) :
    withSources files (withSources files n) = withSources files n := by
  unfold withSources sourcesOf
  cases n.nodelet <;> cases files.get? n.name <;> rfl

def supply (files : Table String (List (Ref .file))) (m : Model) (r : Ref .node) : Model :=
  match (m.node r).nodelet, files.get? (m.node r).name with
  | some _, some fs => m.updateNode r fun n => { n with files := fs }
  | _, _ => m

theorem updateNodelets_eq (m p b) :
    updateNodelets m p b = (m.package p).nodes.foldl (supply (libraryFiles m p b)) m :=
  rfl

section Supply

variable (files : Table String (List (Ref .file))) (m : Model) (r : Ref .node)

theorem node_supply (r' : Ref .node) :
    (supply files m r).node r' = if r' = r then withSources files (m.node r') else m.node r' := by
  unfold supply
  split
  · rename_i nodelet fs hnodelet hfs
    have hr : r.index < m.nodes.size := by
      refine Nat.lt_of_not_le fun hle => ?_
      rw [Model.node, Array.getD_eq_getD_getElem?, Array.getElem?_eq_none hle] at hnodelet
      cases hnodelet
    by_cases heq : r' = r
    · subst heq
      have hsources : sourcesOf files (m.node r') = fs := by rw [sourcesOf, hnodelet, hfs]
      rw [if_pos rfl, withSources, hsources]
      exact getD_modify_self _ _ _ hr
    · rw [if_neg heq]
      exact getD_modify_ref_of_ne _ _ _ heq
  · rename_i hnone
    by_cases heq : r' = r
    · subst heq
      have hsources : sourcesOf files (m.node r') = (m.node r').files := by
        unfold sourcesOf
        split
        · rename_i nodelet fs hnodelet hfs
          exact absurd hfs (hnone nodelet fs hnodelet)
        · rfl
      rw [if_pos rfl, withSources, hsources]
    · rw [if_neg heq]

theorem beside_supply (hr : (m.node r).package = p) : Beside p m (supply files m r) := by
  unfold supply
  split
  · exact beside_updateNode hr fun _ => rfl
  · exact refl_of (Beside p) m

/-- Each of the nodes has got the files of its library, and the others are as they were. -/
theorem node_foldl_supply : ∀ (rs : List (Ref .node)) (m : Model) (r' : Ref .node),
    (rs.foldl (supply files) m).node r' =
      if r' ∈ rs then withSources files (m.node r') else m.node r'
  | [], m, r' => rfl
  | r :: rs, m, r' => by
    rw [foldl_cons, node_foldl_supply rs, node_supply]
    by_cases heq : r' = r
    · rw [if_pos heq, withSources_idem, ite_self, if_pos (heq ▸ mem_cons_self)]
    · rw [if_neg heq]
      simp only [mem_cons, heq, false_or]

theorem beside_foldl_supply {p} : ∀ {rs : List (Ref .node)} {m : Model},
    (∀ r ∈ rs, (m.node r).package = p) → Beside p m (rs.foldl (supply files) m)
  | [], m, _ => refl_of (Beside p) m
  | r :: rs, m, hrs => by
    obtain ⟨hr, hrs⟩ := forall_mem_cons.mp hrs
    refine trans_of (Beside p) (beside_supply files m r hr) (beside_foldl_supply fun r' hr' => ?_)
    rw [node_supply]
    split
    · exact hrs r' hr'
    · exact hrs r' hr'

theorem stores_foldl_supply : ∀ (rs : List (Ref .node)) (m : Model),
    (rs.foldl (supply files) m).packages = m.packages ∧
      (rs.foldl (supply files) m).nodes.size = m.nodes.size
  | [], m => ⟨rfl, rfl⟩
  | r :: rs, m => by
    obtain ⟨hpackages, hsize⟩ := stores_foldl_supply rs (supply files m r)
    have hstep : (supply files m r).packages = m.packages ∧
        (supply files m r).nodes.size = m.nodes.size := by
      unfold supply
      split
      · exact ⟨rfl, Array.size_modify ..⟩
      · exact ⟨rfl, rfl⟩
    exact ⟨hpackages.trans hstep.1, hsize.trans hstep.2⟩

end Supply

theorem node_updateNodelets (m q b r) :
    (updateNodelets m q b).node r =
      if r ∈ (m.package q).nodes then withSources (libraryFiles m q b) (m.node r) else
        m.node r := by
  rw [updateNodelets_eq, node_foldl_supply]

theorem package_updateNodelets (m q b r) :
    ((updateNodelets m q b).node r).package = (m.node r).package := by
  rw [node_updateNodelets]
  split <;> rfl

/-! ## Executables -/

def programNode (m : Model) (p : Ref .package) (b : CMake.Project) (t : CMake.Target) : Node :=
  { m.makeNode t.outputName p none none with files := targetFiles m p b t }

def addProgram (p : Ref .package) (b : CMake.Project) (m : Model) (t : CMake.Target) : Model :=
  (m.addNode (programNode m p b t)).1.updatePackage p fun k =>
    { k with nodes := k.nodes ++ [⟨m.nodes.size⟩] }

theorem exec_addPrograms (p b s) :
    ∃ found, (addPrograms p b).exec s = (.ok (),
      { s with model := b.executables.values.foldl (addProgram p b) s.model, found }) := by
  unfold addPrograms
  generalize b.executables.values = ts
  induction ts generalizing s with
  | nil => exact ⟨s.found, rfl⟩
  | cons t ts ih =>
    obtain ⟨found, h⟩ := ih { s with model := addProgram p b s.model t
                                     found := s.found ++ [⟨s.model.nodes.size⟩] }
    refine ⟨found, ?_⟩
    rw [forIn_cons]
    exact (exec_bind_of_ok rfl).trans h

theorem targetFiles_congr (hfiles : m'.files = m.files)
    (hp : (m'.package p).files = (m.package p).files) (b t) :
    targetFiles m' p b t = targetFiles m p b t := by
  unfold targetFiles filesAt Model.file
  rw [hfiles, hp]

theorem programNode_congr (hfiles : m'.files = m.files)
    (hp : ∃ nodes, m'.package p = { m.package p with nodes }) (b t) :
    programNode m' p b t = programNode m p b t := by
  obtain ⟨nodes, hnodes⟩ := hp
  unfold programNode makeNode
  rw [targetFiles_congr hfiles (by rw [hnodes]), hnodes]

/-- In `m'` the package has these nodes more than in `m`. -/
structure Grown (p : Ref .package) (m m' : Model) (ns : List Node) : Prop where
  beside : Beside p m m'
  old : ∀ r : Ref .node, r.index < m.nodes.size → m'.node r = m.node r
  listed : ∃ news : List (Ref .node), (m'.package p).nodes = (m.package p).nodes ++ news ∧
    news.map m'.node = ns ∧ ∀ r ∈ news, r.index < m'.nodes.size

theorem grown_addProgram (hp : p.index < m.packages.size) (b t) :
    Grown p m (addProgram p b m t) [programNode m p b t] where
  beside := trans_of (Beside p) (m.beside_addNode (programNode m p b t))
    (beside_updatePackage _ fun l => l ++ [(⟨m.nodes.size⟩ : Ref .node)])
  old _ hr := getD_push_of_lt _ _ _ hr
  listed := by
    refine ⟨[⟨m.nodes.size⟩], congrArg Package.nodes (getD_modify_self _ _ _ hp), ?_,
      fun r hr => ?_⟩
    · exact congrArg (fun n => [n]) (getD_push_size _ _ _)
    · rw [mem_singleton.mp hr]
      exact Nat.lt_of_lt_of_eq (Nat.lt_succ_self _) (Array.size_push _).symm

theorem grown_foldl_addProgram {p} (b) :
    ∀ (ts : List CMake.Target) {m : Model}, p.index < m.packages.size →
      Grown p m (ts.foldl (addProgram p b) m) (ts.map (programNode m p b))
  | [], m, _ => ⟨refl_of (Beside p) m, fun _ _ => rfl, [], (append_nil _).symm, rfl,
      forall_mem_nil _⟩
  | t :: ts, m, hp => by
    obtain ⟨hbeside, hold, news, hlisted, hnodes, hnews⟩ := grown_addProgram hp b t
    have hrest := grown_foldl_addProgram b ts (m := addProgram p b m t) (hbeside.size_packages ▸ hp)
    obtain ⟨news', hlisted', hnodes', hnews'⟩ := hrest.listed
    refine ⟨trans_of (Beside p) hbeside hrest.beside, fun r hr => ?_, news ++ news', ?_, ?_, ?_⟩
    · exact (hrest.old r (Nat.lt_of_lt_of_le hr hbeside.size_nodes)).trans (hold r hr)
    · rw [foldl_cons, hlisted', hlisted, append_assoc]
    · have hkept : news.map (ts.foldl (addProgram p b) (addProgram p b m t)).node =
          [programNode m p b t] := by
        rw [← hnodes]
        exact map_congr_left fun r hr => hrest.old r (hnews r hr)
      have hsame : ts.map (programNode (addProgram p b m t) p b) = ts.map (programNode m p b) :=
        map_congr_left fun t' _ => programNode_congr hbeside.files hbeside.home b t'
      rw [foldl_cons, map_append, hkept, hnodes', hsame, map_cons, singleton_append]
    · intro r hr
      rcases mem_append.mp hr with hr | hr
      · exact Nat.lt_of_lt_of_le (hnews r hr) hrest.beside.size_nodes
      · exact hnews' r hr

/-! ## The nodes of a build -/

def rebuild (m : Model) (p : Ref .package) (b : CMake.Project) : Model :=
  b.executables.values.foldl (addProgram p b) (updateNodelets m p b)

/-- The nodes of a build are those of the package, with the files of their libraries, and those of
its executables. -/
structure Built (m : Model) (p : Ref .package) (b : CMake.Project) (m' : Model) : Prop where
  beside : Beside p m m'
  old : ∀ r : Ref .node, r.index < m.nodes.size → m'.node r = (updateNodelets m p b).node r
  listed : ∀ r ∈ (m'.package p).nodes, r.index < m'.nodes.size ∧ (m'.node r).package = p
  nodes : (m'.package p).nodes.map m'.node =
    (m.package p).nodes.map (updateNodelets m p b).node ++
      b.executables.values.map (programNode m p b)

theorem built_rebuild (hp : p.index < m.packages.size)
    (hlisted : ∀ r ∈ (m.package p).nodes, r.index < m.nodes.size ∧ (m.node r).package = p) (b) :
    Built m p b (rebuild m p b) := by
  have hsupplied : Beside p m (updateNodelets m p b) :=
    beside_foldl_supply _ fun r hr => (hlisted r hr).2
  obtain ⟨hpackages, hsize⟩ := stores_foldl_supply (libraryFiles m p b) (m.package p).nodes m
  obtain ⟨hbeside, hold, news, hnews, hnodes, hlt⟩ :=
    grown_foldl_addProgram b b.executables.values (m := updateNodelets m p b)
      (hsupplied.size_packages ▸ hp)
  have hhome : ((rebuild m p b).package p).nodes = (m.package p).nodes ++ news := by
    rw [rebuild, hnews, Model.package, updateNodelets_eq, hpackages]
    rfl
  have hkept : ∀ r : Ref .node, r.index < m.nodes.size →
      (rebuild m p b).node r = (updateNodelets m p b).node r :=
    fun r hr => hold r (hsize.symm ▸ hr)
  have hprograms : news.map (rebuild m p b).node = b.executables.values.map (programNode m p b) :=
    hnodes.trans (map_congr_left fun t _ => programNode_congr hsupplied.files hsupplied.home b t)
  have hboth := trans_of (Beside p) hsupplied hbeside
  refine ⟨hboth, hkept, fun r hr => ?_, ?_⟩
  · rcases mem_append.mp (hhome ▸ hr) with hr | hr
    · obtain ⟨hr, hpackage⟩ := hlisted r hr
      exact ⟨Nat.lt_of_lt_of_le hr hboth.size_nodes, (hboth.owner r hr).trans hpackage⟩
    · obtain ⟨t, -, ht⟩ := mem_map.mp (hprograms ▸ mem_map_of_mem hr)
      exact ⟨hlt r hr, by rw [← ht]; rfl⟩
  · rw [hhome, map_append, hprograms]
    exact congrArg (· ++ _) (map_congr_left fun r hr => hkept r (hlisted r hr).1)

end NodeFinder

end RosAudit
