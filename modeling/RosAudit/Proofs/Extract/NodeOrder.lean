import RosAudit.Proofs.Extract.NodeParsing

/-!
# The order in which packages are searched

The nodes of packages are found one package after another, by one finder. What a package gets
depends on its own scripts and files, which no other package changes (`Found.gets`), and on the
environment, which all scripts share : a script can set and unset its variables, and the packages
that follow see it.

`search_ok` says what comes of a run : each package gets what its scripts make of the environment
that the packages before it left. The order of packages matters through the environment alone
(`shares_environment_only`), and it does matter (`environment_reaches_next_package`).
-/

/-! ## Finding the nodes of a package -/

namespace RosAudit

open Job Model List

variable {s s' : NodeFinder}

namespace NodeFinder

/-! ## What a package gets -/

def build (s : NodeFinder) (environment : Table String String) (p : Ref .package) :
    Result Unit × CMake.Project :=
  let path := (s.model.package p).path.getD ""
  (CMake.Project.parse s.files (Path.join path "CMakeLists.txt")).exec
    (CMake.Project.make (sourceFolder s.workspace path) (Path.join s.workspace "build") s.packages
      environment (bindings s.workspace path))

def leaves (s : NodeFinder) (environment : Table String String) (p : Ref .package) :
    Table String String :=
  (s.build environment p).2.environment

def entry (n : Node) : String × List (Ref .file) := (n.name, n.files)

def entries (m : Model) (p : Ref .package) : List (String × List (Ref .file)) :=
  (m.package p).nodes.map fun r => entry (m.node r)

/-- The names and source files of the nodes that a package gets when its scripts are worked through
in an environment : its own with their libraries and one for each executable, or remembered ones in
their places. -/
def gets (s : NodeFinder) (environment : Table String String) (p : Ref .package) :
    List (String × List (Ref .file)) :=
  let b := (s.build environment p).2
  let m := updateNodelets s.model p b
  let found := (s.model.package p).nodes.map m.node ++
    b.executables.values.map (programNode s.model p b)
  found.map fun n => entry (((s.recalled m p n).map m.node).getD n)

/-! ## Finding -/

/-- The finder knows nodes of its model only, and each package has nodes of its own. -/
structure Sound (s : NodeFinder) : Prop where
  listed : ∀ p, ∀ r ∈ (s.model.package p).nodes,
    r.index < s.model.nodes.size ∧ (s.model.node r).package = p
  remembered : ∀ name r, s.remembered.get? name = some r → r.index < s.model.nodes.size

def task (s : NodeFinder) : NodeFinder :=
  { s with model := {}, environment := Table.empty, found := [], parsed := [] }

theorem find_halfway {p} (hs : s.Sound) (h : (find p).exec s = (.ok (), s')) :
    ∃ t : NodeFinder, t.task = s.task ∧
      t.environment = s.leaves s.environment p ∧
      Built s.model p (s.build s.environment p).2 t.model ∧ t.Halfway p [] s' := by
  unfold find at h
  rw [exec_bind_of_ok (exec_get s)] at h
  cases hpath : (s.model.package p).path with
  | none =>
    rw [hpath] at h
    cases (Prod.mk.inj h).1
  | some path =>
    have hp : p.index < s.model.packages.size := by
      refine Nat.lt_of_not_le fun hle => ?_
      rw [Model.package, Array.getD_eq_getD_getElem?, Array.getElem?_eq_none hle] at hpath
      cases hpath
    have hbuild : s.build s.environment p =
        (CMake.Project.parse s.files (Path.join path "CMakeLists.txt")).exec
          (CMake.Project.make (sourceFolder s.workspace path) (Path.join s.workspace "build")
            s.packages s.environment (bindings s.workspace path)) := by
      rw [build, hpath, Option.getD_some]
    rw [hpath] at h
    dsimp only at h
    rw [← hbuild] at h
    rw [exec_bind_of_ok (exec_set ..)] at h
    obtain ⟨_, t, hr, h⟩ := exec_bind_ok.mp h
    rw [exec_ofResult] at hr
    obtain ⟨-, rfl⟩ := Prod.mk.inj hr
    rw [exec_bind_of_ok (exec_modify ..)] at h
    obtain ⟨found, hfound⟩ := exec_addPrograms p (s.build s.environment p).2 { s with
      model := updateNodelets s.model p (s.build s.environment p).2
      environment := s.leaves s.environment p }
    have hbuilt := built_rebuild hp (hs.listed p) (s.build s.environment p).2
    obtain ⟨t, ht⟩ : ∃ t : NodeFinder, t = { s with
      model := rebuild s.model p (s.build s.environment p).2
      environment := s.leaves s.environment p, found } := ⟨_, rfl⟩
    have hmodel : t.model = rebuild s.model p (s.build s.environment p).2 := by rw [ht]
    have hrest : (if t.parses then parseNodes p else pure () : Job NodeFinder Unit).exec t =
        (.ok (), s') := by
      rw [ht]
      exact (exec_bind_of_ok hfound).symm.trans h
    rw [← hmodel] at hbuilt
    refine ⟨t, by rw [ht]; rfl, by rw [ht], hbuilt, ?_⟩
    exact halfway_of_ok (hbuilt.beside.size_packages ▸ hp) (fun r hr =>
      (hbuilt.listed r hr).2) hrest

section Built

variable {s t : NodeFinder} {p : Ref .package} {b : CMake.Project}

theorem Built.node_place (hb : Built s.model p b t.model) (hs : s.Sound)
    (hparses : t.parses = s.parses) (hremembered : t.remembered = s.remembered) (r : Ref .node) :
    t.model.node (t.place p r) = ((s.recalled (updateNodelets s.model p b) p (t.model.node r)).map
      (updateNodelets s.model p b).node).getD (t.model.node r) := by
  have hold : ∀ name k, s.remembered.get? name = some k →
      t.model.node k = (updateNodelets s.model p b).node k :=
    fun name k hk => hb.old k (hs.remembered name k hk)
  have howner : ∀ name k, s.remembered.get? name = some k →
      (t.model.node k).package = ((updateNodelets s.model p b).node k).package :=
    fun name k hk => congrArg Node.package (hold name k hk)
  rw [place, recalled_congr hparses hremembered howner]
  cases hrecalled : s.recalled (updateNodelets s.model p b) p (t.model.node r) with
  | none => rw [Option.getD_none, Option.map_none, Option.getD_none]
  | some k =>
    exact hold _ k (recalled_some hrecalled).1

theorem Built.listed_place (hb : Built s.model p b t.model) (hs : s.Sound)
    (hremembered : t.remembered = s.remembered) {r} (hr : r ∈ (t.model.package p).nodes) :
    (t.place p r).index < t.model.nodes.size ∧ (t.model.node (t.place p r)).package = p := by
  unfold place
  cases hrecalled : t.recalled t.model p (t.model.node r) with
  | none => exact hb.listed r hr
  | some k =>
    obtain ⟨hk, hpackage⟩ := recalled_some hrecalled
    refine ⟨Nat.lt_of_lt_of_le (hs.remembered _ k (hremembered ▸ hk)) hb.beside.size_nodes,
      hpackage⟩

end Built

/-- From `s` to `s'` the nodes of a package were found. -/
structure Found (s : NodeFinder) (p : Ref .package) (s' : NodeFinder) : Prop where
  task : s'.task = s.task
  beside : Beside p s.model s'.model
  environment : s'.environment = s.leaves s.environment p
  entries : entries s'.model p = s.gets s.environment p
  sound : s'.Sound

theorem find_ok {p} (hs : s.Sound) (h : (find p).exec s = (.ok (), s')) : Found s p s' := by
  obtain ⟨t, htask, henvironment, hb, hhalf⟩ := find_halfway hs h
  obtain ⟨m, parsed, rfl, hnodes, hm⟩ := hhalf.done
  have hremembered : t.remembered = s.remembered := (congrArg NodeFinder.remembered htask :)
  have hparses : t.parses = s.parses := (congrArg NodeFinder.parses htask :)
  have hbeside : Beside p s.model m := trans_of (Beside p) hb.beside hm.beside
  refine ⟨htask, hbeside, henvironment, ?_, fun q r hr => ?_, fun name r hr => ?_⟩
  · unfold entries gets
    dsimp only
    rw [hnodes, map_map, ← hb.nodes, map_map]
    refine map_congr_left fun r _ => ?_
    have hentry := congrArg entry (hb.node_place hs hparses hremembered r)
    exact (congrArg entry (hm.outline _)).trans hentry
  · by_cases hq : q = p
    · subst hq
      obtain ⟨r', hr', rfl⟩ := mem_map.mp (hnodes ▸ hr)
      obtain ⟨hlt, hpackage⟩ := hb.listed_place hs hremembered hr'
      exact ⟨hm.size_nodes ▸ hlt, (congrArg Node.package (hm.outline _)).trans hpackage⟩
    · rw [hbeside.package q hq] at hr
      obtain ⟨hlt, hpackage⟩ := hs.listed q r hr
      exact ⟨Nat.lt_of_lt_of_le hlt hbeside.size_nodes, (hbeside.owner r hlt).trans hpackage⟩
  · exact Nat.lt_of_lt_of_le (hs.remembered name r (hremembered ▸ hr)) hbeside.size_nodes

/-! ## Other packages -/

variable {s s' : NodeFinder} {p q : Ref .package}

/-- The build of a package depends on its folder and on what the finder was asked to do. -/
theorem Found.build (h : Found s p s') : s'.build = s.build := by
  funext environment q
  have hpath : (s'.model.package q).path = (s.model.package q).path := by
    by_cases hq : q = p
    · obtain ⟨nodes, hnodes⟩ := h.beside.home
      rw [hq, hnodes]
    · rw [h.beside.package q hq]
  have hfiles : s'.files = s.files := (congrArg NodeFinder.files h.task :)
  have hworkspace : s'.workspace = s.workspace := (congrArg NodeFinder.workspace h.task :)
  have hpackages : s'.packages = s.packages := (congrArg NodeFinder.packages h.task :)
  unfold NodeFinder.build
  rw [hpath, hfiles, hworkspace, hpackages]

theorem Found.leaves (h : Found s p s') : s'.leaves = s.leaves := by
  unfold NodeFinder.leaves
  rw [h.build]

theorem Found.node (h : Found s p s') (hq : q ≠ p) {r} (hr : r.index < s.model.nodes.size)
    (hpackage : (s.model.node r).package = q) : s'.model.node r = s.model.node r :=
  h.beside.node r hr (hpackage ▸ hq)

theorem Found.entries_of_ne (hs : s.Sound) (h : Found s p s') (hq : q ≠ p) :
    NodeFinder.entries s'.model q = NodeFinder.entries s.model q := by
  unfold NodeFinder.entries
  rw [h.beside.package q hq]
  refine map_congr_left fun r hr => ?_
  obtain ⟨hlt, hpackage⟩ := hs.listed q r hr
  rw [h.node hq hlt hpackage]

theorem Found.gets (hs : s.Sound) (h : Found s p s') (hq : q ≠ p) (environment) :
    s'.gets environment q = s.gets environment q := by
  have hhome : s'.model.package q = s.model.package q := h.beside.package q hq
  have hparses : s'.parses = s.parses := (congrArg NodeFinder.parses h.task :)
  have hremembered : s'.remembered = s.remembered := (congrArg NodeFinder.remembered h.task :)
  unfold NodeFinder.gets
  dsimp only
  rw [h.build]
  generalize (s.build environment q).2 = b
  have hlibraries : libraryFiles s'.model q b = libraryFiles s.model q b := by
    unfold libraryFiles
    simp only [targetFiles_congr h.beside.files (congrArg Package.files hhome)]
  have hnode : ∀ r : Ref .node, r.index < s.model.nodes.size → (s.model.node r).package = q →
      (updateNodelets s'.model q b).node r = (updateNodelets s.model q b).node r := by
    intro r hr hpackage
    rw [node_updateNodelets, node_updateNodelets, hhome, hlibraries, h.node hq hr hpackage]
  have hfound : (s'.model.package q).nodes.map (updateNodelets s'.model q b).node =
      (s.model.package q).nodes.map (updateNodelets s.model q b).node := by
    rw [hhome]
    exact map_congr_left fun r hr => hnode r (hs.listed q r hr).1 (hs.listed q r hr).2
  have hprograms : b.executables.values.map (programNode s'.model q b) =
      b.executables.values.map (programNode s.model q b) :=
    map_congr_left fun t _ => programNode_congr h.beside.files ⟨_, hhome⟩ b t
  rw [hfound, hprograms]
  refine map_congr_left fun n _ => congrArg entry ?_
  have howner : ∀ name k, s.remembered.get? name = some k →
      ((updateNodelets s'.model q b).node k).package =
        ((updateNodelets s.model q b).node k).package := by
    intro name k hk
    rw [package_updateNodelets, package_updateNodelets, h.beside.owner k (hs.remembered name k hk)]
  rw [recalled_congr hparses hremembered howner]
  cases hrecalled : s.recalled (updateNodelets s.model q b) q n with
  | none => rw [Option.map_none, Option.map_none]
  | some k =>
    obtain ⟨hk, hpackage⟩ := recalled_some hrecalled
    rw [package_updateNodelets] at hpackage
    rw [Option.map_some, Option.map_some, hnode k (hs.remembered _ k hk) hpackage]

/-! ## One package after another -/

def search (s : NodeFinder) (ps : List (Ref .package)) : Result Unit × NodeFinder :=
  (ps.forM find : Job NodeFinder Unit).exec s

/-- Each package has got what its scripts make of the environment that the packages before it left.
-/
structure Surveyed (s : NodeFinder) (ps : List (Ref .package)) (s' : NodeFinder) : Prop where
  environment : s'.environment = ps.foldl s.leaves s.environment
  entries : ∀ pre p post, ps = pre ++ p :: post →
    entries s'.model p = s.gets (pre.foldl s.leaves s.environment) p
  others : ∀ p, p ∉ ps → NodeFinder.entries s'.model p = NodeFinder.entries s.model p

theorem search_ok : ∀ {ps s s'}, s.Sound → ps.Nodup →
    s.search ps = (.ok (), s') → Surveyed s ps s'
  | [], s, s', _, _, h => by
    obtain ⟨-, rfl⟩ := Prod.mk.inj h
    exact ⟨rfl, fun pre p post hps => by simp at hps, fun _ _ => rfl⟩
  | p :: ps, s, s', hs, hps, h => by
    obtain ⟨_, t, hfind, hrest⟩ := exec_bind_ok.mp h
    obtain ⟨hp, hps⟩ := nodup_cons.mp hps
    have hfound := find_ok hs hfind
    have hrun := search_ok hfound.sound hps hrest
    refine ⟨?_, fun pre q post hpre => ?_, fun q hq => ?_⟩
    · rw [hrun.environment, hfound.leaves, hfound.environment, foldl_cons]
    · cases pre with
      | nil =>
        obtain ⟨rfl, rfl⟩ := List.cons.inj hpre
        rw [hrun.others p hp, hfound.entries, foldl_nil]
      | cons p' pre =>
        obtain ⟨rfl, hsplit⟩ := List.cons.inj hpre
        have hq : q ≠ p := by
          rintro rfl
          exact hp (hsplit ▸ mem_append_right _ mem_cons_self)
        rw [hrun.entries pre q post hsplit, hfound.gets hs hq, hfound.leaves, hfound.environment,
          foldl_cons]
    · obtain ⟨hne, hq⟩ := not_or.mp (mt mem_cons.mpr hq)
      rw [hrun.others q hq, hfound.entries_of_ne hs hne]

theorem foldl_leaves {environment} : ∀ {ps : List (Ref .package)},
    (∀ p ∈ ps, s.leaves environment p = environment) → ps.foldl s.leaves environment = environment
  | [], _ => rfl
  | p :: ps, h => by
    obtain ⟨hp, hps⟩ := forall_mem_cons.mp h
    rw [foldl_cons, hp, foldl_leaves hps]

/-- Where the packages leave the environment as it is, what each gets is settled before the run. -/
theorem Surveyed.entries_eq {ps} (h : Surveyed s ps s')
    (hps : ∀ p ∈ ps, s.leaves s.environment p = s.environment) (p) :
    NodeFinder.entries s'.model p =
      if p ∈ ps then s.gets s.environment p else NodeFinder.entries s.model p := by
  split
  · rename_i hp
    obtain ⟨pre, post, hsplit⟩ := append_of_mem hp
    rw [h.entries pre p post hsplit, foldl_leaves fun q hq => hps q ?_]
    exact hsplit ▸ mem_append_left _ hq
  · rename_i hp
    exact h.others p hp

/-- The packages share one environment, and nothing else. Each package gets the nodes that its
scripts make in the environment left by the packages before it, and other packages keep theirs. So
where the scripts leave the environment as it is, every order gives each package the same nodes. -/
theorem shares_environment_only (hs : s.Sound) {ps : List (Ref .package)} (hps : ps.Nodup)
    (h : (s.search ps).1 = .ok ()) :
    (s.search ps).2.environment = ps.foldl s.leaves s.environment ∧
    (∀ pre p post, ps = pre ++ p :: post →
      entries (s.search ps).2.model p = s.gets (pre.foldl s.leaves s.environment) p) ∧
    (∀ p, p ∉ ps → entries (s.search ps).2.model p = entries s.model p) ∧
    ((∀ p ∈ ps, s.leaves s.environment p = s.environment) →
      (s.search ps).2.environment = s.environment ∧
      ∀ qs : List (Ref .package), qs.Perm ps → (s.search qs).1 = .ok () →
        (s.search qs).2.environment = s.environment ∧
        ∀ p, entries (s.search qs).2.model p = entries (s.search ps).2.model p) := by
  have hrun : Surveyed s ps (s.search ps).2 := search_ok hs hps (Prod.ext h rfl)
  refine ⟨hrun.environment, hrun.entries, hrun.others, fun hquiet => ?_⟩
  refine ⟨hrun.environment.trans (foldl_leaves hquiet), fun qs hperm h' => ?_⟩
  have hrun' : Surveyed s qs (s.search qs).2 :=
    search_ok hs (hperm.nodup_iff.mpr hps) (Prod.ext h' rfl)
  have hquiet' : ∀ p ∈ qs, s.leaves s.environment p = s.environment :=
    fun p hp => hquiet p (hperm.mem_iff.mp hp)
  refine ⟨hrun'.environment.trans (foldl_leaves hquiet'), fun p => ?_⟩
  rw [hrun'.entries_eq hquiet', hrun.entries_eq hquiet]
  simp only [hperm.mem_iff]

/-! ## Two packages -/

/-- The workspace of a mill and an oven. The oven is built from the file that the environment
names. -/
def millTree (script : String) : FileTree :=
  { entries := ⟨[("/", .folder), ("/ws", .folder), ("/ws/mill", .folder), ("/ws/oven", .folder),
      ("/ws/mill/CMakeLists.txt", .file script 0.0),
      ("/ws/oven/CMakeLists.txt", .file "add_executable(oven $ENV\x7bMAIN\x7d)\n" 0.0),
      ("/ws/oven/rye.cpp", .file "" 0.0), ("/ws/oven/oat.cpp", .file "" 0.0)]⟩ }

def ovenFile (name : String) : SourceFile :=
  { name, directory := "", package := ⟨1⟩, packageName := "oven", fullName := name
    folder := "/ws/oven", path := "/ws/oven/" ++ name, language := "cpp" }

def milling (script : String) : NodeFinder :=
  { files := millTree script
    model := {
      files := #[ovenFile "rye.cpp", ovenFile "oat.cpp"]
      packages := #[{ name := "mill", path := some "/ws/mill" },
        { name := "oven", path := some "/ws/oven", files := [⟨0⟩, ⟨1⟩] }] }
    workspace := "/ws"
    packages := ["mill", "oven"]
    environment := ⟨[("MAIN", "rye.cpp")]⟩ }

theorem sound_milling (script : String) : (milling script).Sound where
  listed p r hr := by
    have hnone : ((milling script).model.package p).nodes = [] := by
      rcases p with ⟨_ | _ | i⟩ <;> rfl
    rw [hnone] at hr
    cases hr
  remembered _ _ hr := by cases hr

def tidyMill : NodeFinder := milling "set(MAIN oat.cpp)\n"

theorem sound_tidyMill : tidyMill.Sound := sound_milling _

theorem leaves_tidyMill :
    ∀ p ∈ [⟨0⟩, ⟨1⟩], tidyMill.leaves tidyMill.environment p = tidyMill.environment := by
  have hmill : tidyMill.leaves tidyMill.environment ⟨0⟩ = tidyMill.environment := by decide +kernel
  have hoven : tidyMill.leaves tidyMill.environment ⟨1⟩ = tidyMill.environment := by decide +kernel
  intro p hp
  rcases mem_pair.mp hp with rfl | rfl
  · exact hmill
  · exact hoven

/-- The oven is built from the rye in both orders. -/
theorem shares_environment_only_tidyMill :
    (tidyMill.search [⟨0⟩, ⟨1⟩]).1 = .ok () ∧ (tidyMill.search [⟨1⟩, ⟨0⟩]).1 = .ok () ∧
    entries (tidyMill.search [⟨0⟩, ⟨1⟩]).2.model ⟨1⟩ = [("oven", [⟨0⟩])] ∧
    (∀ p, entries (tidyMill.search [⟨1⟩, ⟨0⟩]).2.model p =
      entries (tidyMill.search [⟨0⟩, ⟨1⟩]).2.model p) ∧
    (tidyMill.search [⟨1⟩, ⟨0⟩]).2.environment = tidyMill.environment := by
  have hok : (tidyMill.search [⟨0⟩, ⟨1⟩]).1 = .ok () := by decide +kernel
  have hok' : (tidyMill.search [⟨1⟩, ⟨0⟩]).1 = .ok () := by decide +kernel
  obtain ⟨-, hentries, -, hquiet⟩ := shares_environment_only sound_tidyMill (by decide) hok
  obtain ⟨-, horders⟩ := hquiet leaves_tidyMill
  obtain ⟨henvironment, hsame⟩ := horders _ (List.Perm.swap _ _ _) hok'
  have hoven : entries (tidyMill.search [⟨0⟩, ⟨1⟩]).2.model ⟨1⟩ = [("oven", [⟨0⟩])] := by
    rw [hentries [⟨0⟩] ⟨1⟩ [] rfl]
    decide +kernel
  exact ⟨hok, hok', hoven, hsame, henvironment⟩

def leakyMill : NodeFinder := milling "set(ENV\x7bMAIN\x7d oat.cpp)\n"

/-- The oven is built from the oat if the mill comes first, and from the rye if it comes last.
Either way the environment is not what it was. -/
theorem environment_reaches_next_package :
    (leakyMill.search [⟨0⟩, ⟨1⟩]).1 = .ok () ∧ (leakyMill.search [⟨1⟩, ⟨0⟩]).1 = .ok () ∧
    entries (leakyMill.search [⟨0⟩, ⟨1⟩]).2.model ⟨1⟩ = [("oven", [⟨1⟩])] ∧
    entries (leakyMill.search [⟨1⟩, ⟨0⟩]).2.model ⟨1⟩ = [("oven", [⟨0⟩])] ∧
    leakyMill.environment.get? "MAIN" = some "rye.cpp" ∧
    (leakyMill.search [⟨0⟩, ⟨1⟩]).2.environment.get? "MAIN" = some "oat.cpp" ∧
    (leakyMill.search [⟨1⟩, ⟨0⟩]).2.environment.get? "MAIN" = some "oat.cpp" := by
  decide +kernel

end NodeFinder

end RosAudit
