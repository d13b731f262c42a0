import RosAudit.CMake.Project
import RosAudit.Proofs.Job
import RosAudit.Proofs.Nesting

/-!
# Scripts of subfolders

A build script is worked through in two parts : its own commands (`ownScript`), and then the scripts
of the subfolders that these have added, one after the other (`visitAll`). A subfolder is whatever
its argument says, so a script can add itself. Nothing keeps track of the scripts that are open, and
a script that always adds its own folder is gone into again and again (`loop_never_ends`).

A script that is gone into is a file of the tree (`Goes.mem_keys`), so scripts nest without bound
exactly if some script is open without bound, whatever the arguments are (`subfolders_end_iff`).
-/

namespace RosAudit.CMake.Project

open Job List

/-- The folder that a script lies in. -/
def folderOf (t : FileTree) (top : Bool) (path : String) : String :=
  if top then t.absolute (Path.parent path) else Path.parent path

def settled (t : FileTree) (top : Bool) (path : String) (p : Project) : Project :=
  { p with
    folder := folderOf t top path
    bindings := p.placeVariables path (folderOf t top path) top }

def statementsAt (t : FileTree) (path : String) : Result (List Statement) :=
  (t.read path).bind Statement.ofScript

def ownScript (t : FileTree) (top : Bool) (path : String) : Job Project Unit := do
  modify (settled t top path)
  let statements ← Job.ofResult (statementsAt t path)
  runAll t statements

def scriptIn (folder sub : String) : String := Path.join (Path.join folder sub) "CMakeLists.txt"

def visitOne (t : FileTree) (go : String → Job Project Unit) (folder sub : String) :
    Job Project Unit :=
  if t.isFile (scriptIn folder sub) then inSubfolder (go (scriptIn folder sub)) else pure ()

def visitAll (t : FileTree) (go : String → Job Project Unit) (folder : String) :
    List String → Job Project Unit
  | [] => pure ()
  | sub :: subs => do
    visitOne t go folder sub
    visitAll t go folder subs

def finish (top : Bool) : Job Project Unit := if top then modify linkTargets else pure ()

/-- The project for the script of a subfolder. -/
def below (p : Project) : Project :=
  make p.sourceDir p.binaryDir p.packages p.environment p.bindings

/-- What a project keeps of a subfolder. -/
def takeOver (p q : Project) : Project :=
  { p with
    environment := q.environment
    includeDirs := p.includeDirs ++ q.includeDirs
    libraries := p.libraries.merge q.libraries
    executables := p.executables.merge q.executables }

variable {t : FileTree} {p q : Project} {path : String} {top : Bool} {n : Nat}
  {sub : Job Project Unit}

theorem exec_inSubfolder_of_ok (h : sub.exec p.below = (.ok (), q)) :
    (inSubfolder sub).exec p = (.ok (), p.takeOver q) := by
  unfold below at h
  unfold inSubfolder
  rw [exec_bind_of_ok (exec_get p), h]
  rfl

theorem exec_inSubfolder_of_error {f} (h : sub.exec p.below = (.error f, q)) :
    (inSubfolder sub).exec p = (.error f, { p with environment := q.environment }) := by
  unfold below at h
  unfold inSubfolder
  rw [exec_bind_of_ok (exec_get p), h]
  rfl

theorem exec_inSubfolder_congr {sub sub'} (h : sub.exec p.below = sub'.exec p.below) :
    (inSubfolder sub).exec p = (inSubfolder sub').exec p := by
  rcases hsub : sub.exec p.below with ⟨f | _, q⟩
  · rw [exec_inSubfolder_of_error hsub, exec_inSubfolder_of_error (h ▸ hsub)]
  · rw [exec_inSubfolder_of_ok hsub, exec_inSubfolder_of_ok (h ▸ hsub)]

theorem forIn_eq_visitAll (t : FileTree) (go : String → Job Project Unit) (folder : String) :
    ∀ subs : List String, (forIn subs PUnit.unit fun sub _ => do
        if t.isFile (scriptIn folder sub) then inSubfolder (go (scriptIn folder sub))
        pure (.yield PUnit.unit)) = visitAll t go folder subs
  | [] => rfl
  | sub :: subs => by
    rw [forIn_cons, visitAll, visitOne, ← forIn_eq_visitAll t go folder subs]
    by_cases hfile : t.isFile (scriptIn folder sub) = true <;> simp [hfile]

theorem parseFile_succ (t : FileTree) (n : Nat) (top : Bool) (path : String) :
    parseFile t (n + 1) top path = (do
      ownScript t top path
      visitAll t (parseFile t n false) (folderOf t top path) (← get).subfolders
      finish top) := by
  simp only [ownScript, bind_assoc, ← forIn_eq_visitAll]
  rfl

/-! ## Where the work is -/

/-- Where the work on a project is : at the beginning of a script, or between the subfolders of one.
The number says how deep scripts may still nest there. -/
inductive Visit where
  | script (n : Nat) (top : Bool) (path : String) (p : Project)
  | rest (n : Nat) (folder : String) (subs : List String) (p : Project)

namespace Visit

def limit : Visit → Nat
  | script n _ _ _ => n
  | rest n _ _ _ => n

def run (t : FileTree) : Visit → Result Unit × Project
  | script n top path p => (parseFile t (n + 1) top path).exec p
  | rest n folder subs p => (visitAll t (parseFile t n false) folder subs).exec p

end Visit

/-- A step of the work. One into the script of a subfolder has the file as its key. -/
inductive Goes (t : FileTree) : Visit → Option String → Visit → Prop
  | own {n : Nat} {top : Bool} {path : String} {p q : Project}
      (h : (ownScript t top path).exec p = (.ok (), q)) :
      Goes t (.script n top path p) none (.rest n (folderOf t top path) q.subfolders q)
  | past {n : Nat} {folder sub : String} {subs : List String} {p q : Project}
      (h : (visitOne t (parseFile t n false) folder sub).exec p = (.ok (), q)) :
      Goes t (.rest n folder (sub :: subs) p) none (.rest n folder subs q)
  | into {n : Nat} {folder sub : String} {subs : List String} {p : Project}
      (h : t.isFile (scriptIn folder sub) = true) :
      Goes t (.rest (n + 1) folder (sub :: subs) p) (some (t.absolute (scriptIn folder sub)))
        (.script n false (scriptIn folder sub) p.below)

variable {v w : Visit}

theorem Goes.error {k f} (h : Goes t v k w) (hw : (w.run t).1 = .error f) :
    (v.run t).1 = .error f := by
  obtain ⟨r, hrun⟩ : ∃ r, w.run t = (.error f, r) := ⟨_, Prod.ext hw rfl⟩
  cases h with
  | own hown =>
    rw [Visit.run, parseFile_succ, exec_bind_of_ok hown, exec_bind_of_ok (exec_get _),
      exec_bind_of_error hrun]
  | past hone => rw [Visit.run, visitAll, exec_bind_of_ok hone, ← Visit.run, hrun]
  | into hfile =>
    rw [Visit.run, visitAll, visitOne, if_pos hfile,
      exec_bind_of_error (exec_inSubfolder_of_error hrun)]

theorem mem_keys_of_isFile {path} (h : t.isFile path = true) :
    t.absolute path ∈ t.entries.keys := by
  by_contra hkey
  have hget : t.entries.get? (t.absolute path) = none := List.lookup_eq_none_iff.mpr fun e he =>
    bne_iff_ne.mpr fun heq => hkey (heq ▸ mem_map_of_mem he)
  simp [FileTree.isFile, FileTree.at?, hget] at h

theorem Goes.mem_keys {k} (h : Goes t v (some k) w) : k ∈ t.entries.keys := by
  obtain _ | _ | ⟨hfile⟩ := h
  exact mem_keys_of_isFile hfile

def Exhausts (t : FileTree) (v : Visit) : Prop :=
  ∃ ks w, Trail (Goes t) v ks w ∧ ks.length = v.limit

theorem Exhausts.of_goes_past (h : Exhausts t w) (hgoes : Goes t v none w) : Exhausts t v := by
  obtain ⟨ks, x, htrail, hlength⟩ := h
  refine ⟨ks, x, htrail.head_past hgoes, hlength.trans ?_⟩
  cases hgoes <;> rfl

theorem Exhausts.of_goes_into {k} (h : Exhausts t w) (hgoes : Goes t v (some k) w) :
    Exhausts t v := by
  obtain ⟨ks, x, htrail, hlength⟩ := h
  refine ⟨ks ++ [k], x, htrail.head_into hgoes, ?_⟩
  rw [length_append, hlength]
  cases hgoes
  rfl

section Deeper

variable (hgo : ∀ path p,
  (parseFile t (n + 1) false path).exec p = (parseFile t n false path).exec p ∨
    Exhausts t (.script n false path p))

include hgo

/-- A higher limit changes the work on some subfolders only where this goes down to the limit, if
that holds of their scripts. -/
theorem visitAll_deeper (folder : String) : ∀ subs p,
      (visitAll t (parseFile t (n + 1) false) folder subs).exec p =
          (visitAll t (parseFile t n false) folder subs).exec p ∨
        Exhausts t (.rest (n + 1) folder subs p)
  | [], p => .inl rfl
  | sub :: subs, p => by
    have hfirst : (visitOne t (parseFile t (n + 1) false) folder sub).exec p =
          (visitOne t (parseFile t n false) folder sub).exec p ∨
        Exhausts t (.rest (n + 1) folder (sub :: subs) p) := by
      unfold visitOne
      by_cases hfile : t.isFile (scriptIn folder sub) = true
      · rw [if_pos hfile, if_pos hfile]
        refine (hgo (scriptIn folder sub) p.below).imp exec_inSubfolder_congr fun h => ?_
        exact h.of_goes_into (.into hfile)
      · rw [if_neg hfile, if_neg hfile]
        exact .inl rfl
    rcases hfirst with heq | hdeep
    · rw [visitAll, exec_bind_eq_of_eq heq]
      refine exec_bind_eq_or fun _ q hq => ?_
      refine (visitAll_deeper folder subs q).imp_right fun h => ?_
      exact h.of_goes_past (.past (heq.trans hq))
    · exact .inr hdeep

theorem parseFile_deeper (top : Bool) (path : String) (p : Project) :
    (parseFile t (n + 2) top path).exec p = (parseFile t (n + 1) top path).exec p ∨
      Exhausts t (.script (n + 1) top path p) := by
  rw [parseFile_succ, parseFile_succ]
  refine exec_bind_eq_or fun _ q hown => ?_
  refine (visitAll_deeper hgo (folderOf t top path) q.subfolders q).imp exec_bind_eq_of_eq
    fun h => ?_
  exact h.of_goes_past (.own hown)

end Deeper

namespace Visit

/-- A higher limit changes the work on a script only where this goes down to the limit. -/
theorem run_deeper (n : Nat) (top : Bool) (path : String) (p : Project) :
    run t (.script (n + 1) top path p) = run t (.script n top path p) ∨
      Exhausts t (.script (n + 1) top path p) := by
  induction n generalizing top path p with
  | zero => exact parseFile_deeper (fun path p => .inr ⟨[], _, .start, rfl⟩) top path p
  | succ n ih => exact parseFile_deeper (fun path p => ih false path p) top path p

end Visit

section Main

variable {d k : Nat}

theorem exec_parseFile_of_nestsWithin {m} (h : NestsWithin (Goes t) (.script · top path p) d)
    (hm : d ≤ m) (hn : d ≤ n) :
    (parseFile t (m + 1) top path).exec p = (parseFile t (n + 1) top path).exec p :=
  h.run_eq_run (fun n => Visit.run t (.script n top path p))
    (fun n => Visit.run_deeper n top path p) hm hn

theorem subset_keys {ks} (h : Trail (Goes t) v ks w) : ks ⊆ t.entries.keys :=
  (h.subset (I := fun _ => True) (fun _ _ _ _ _ => trivial) (fun _ _ _ _ h => h.mem_keys) trivial).2

theorem nestsWithin_of_recursWithin (h : RecursWithin (Goes t) (.script · top path p) k) :
    NestsWithin (Goes t) (.script · top path p) (k * t.entries.size) := by
  have hsize : t.entries.size = t.entries.keys.length := by rw [Table.keys, length_map, Table.size]
  exact hsize ▸ h.nestsWithin fun _ _ _ => subset_keys

/-- If no script is open twice at once and there are fewer files than scripts may nest deep, then a
project is read as if there were no limit. -/
theorem exec_parse_of_nodup (h : ∀ n ks w, Trail (Goes t) (.script n true path p) ks w → ks.Nodup)
    (hn : t.entries.size < nesting) :
    ∀ n, t.entries.size ≤ n → (parseFile t (n + 1) true path).exec p = (parse t path).exec p := by
  have hnests := nestsWithin_of_recursWithin (recursWithin_one_iff.mpr h)
  rw [Nat.one_mul] at hnests
  obtain ⟨m, hm⟩ := Nat.exists_eq_succ_of_ne_zero (Nat.ne_of_gt (Nat.zero_lt_of_lt hn))
  rw [parse, hm]
  exact fun n hentries =>
    exec_parseFile_of_nestsWithin hnests hentries (Nat.le_of_lt_succ (hm ▸ hn))

end Main

/-- Scripts nest without bound exactly if some script is open without bound. If none is open more
than `k` times at once, they nest at most `k` times the number of entries of the file tree deep, and
a project gives the same however deep they may nest from there on, without ever coming to the limit.
-/
theorem subfolders_end_iff (t : FileTree) (path : String) (p : Project) :
    ((∃ d, NestsWithin (Goes t) (.script · true path p) d) ↔
      ∃ k, RecursWithin (Goes t) (.script · true path p) k) ∧
    ∀ k, RecursWithin (Goes t) (.script · true path p) k →
      NestsWithin (Goes t) (.script · true path p) (k * t.entries.size) ∧
      (∀ n, k * t.entries.size ≤ n →
        (parseFile t (n + 1) true path).exec p =
          (parseFile t (k * t.entries.size + 1) true path).exec p) ∧
      ∀ n ks w, k * t.entries.size < n →
        Trail (Goes t) (.script n true path p) ks w → 0 < w.limit := by
  refine ⟨exists_nestsWithin_iff fun _ _ _ => subset_keys, fun k hk => ?_⟩
  have hnests := nestsWithin_of_recursWithin hk
  refine ⟨hnests, fun n hn => exec_parseFile_of_nestsWithin hnests hn (Nat.le_refl _),
    fun n ks w hn htrail => ?_⟩
  refine hnests.limit_pos Visit.limit (fun v w h => ?_) (fun v k w h => ?_) htrail hn
  · cases h <;> rfl
  · cases h
    rfl

/-! ### A script that adds its folder once -/

/-- A workspace with one script. -/
def alone (script : String) : FileTree :=
  { entries := ⟨[("/", .folder), ("/ws", .folder), ("/ws/CMakeLists.txt", .file script 0.0)]⟩ }

def onceTree : FileTree := alone "add_subdirectory($\x7bNEXT\x7d)\nset(NEXT)\n"

/-- A project in which nothing has been read. The variable names the folder of the script. -/
def fresh : Project := make "/ws" "/ws/build" [] Table.empty ⟨[("NEXT", ".")]⟩

def seenOnce : Project := ((ownScript onceTree true "/ws/CMakeLists.txt").exec fresh).2

theorem subfolders_seenOnce : seenOnce.subfolders = ["."] := by decide +kernel

theorem subfolders_seenTwice :
    ((ownScript onceTree false "/ws/./CMakeLists.txt").exec seenOnce.below).2.subfolders = [] := by
  decide +kernel

/-- Where the work on the script can be, and inside of which files. -/
inductive Seeing : List String → Visit → Prop
  | first (n : Nat) : Seeing [] (.script n true "/ws/CMakeLists.txt" fresh)
  | added (n : Nat) :
    Seeing [] (.rest n (folderOf onceTree true "/ws/CMakeLists.txt") ["."] seenOnce)
  | again (n : Nat) :
      Seeing ["/ws/CMakeLists.txt"] (.script n false "/ws/./CMakeLists.txt" seenOnce.below)
  | done {ks : List String} {n : Nat} {folder : String} {q : Project} (h : ks.Nodup) :
      Seeing ks (.rest n folder [] q)

theorem Seeing.nodup {ks} (h : Seeing ks v) : ks.Nodup := by
  cases h with
  | first | added => exact List.Pairwise.nil
  | again => exact pairwise_singleton _ _
  | done h => exact h

theorem Seeing.goes {ks k} (h : Seeing ks v) (hgoes : Goes onceTree v k w) :
    Seeing (k.toList ++ ks) w := by
  cases h with
  | first n =>
    obtain ⟨hown⟩ := hgoes
    obtain rfl : seenOnce = _ := congrArg Prod.snd hown
    rw [subfolders_seenOnce]
    exact .added n
  | added n =>
    obtain _ | _ | _ := hgoes
    · exact .done List.Pairwise.nil
    · have hkey : onceTree.absolute (scriptIn (folderOf onceTree true "/ws/CMakeLists.txt") ".") =
          "/ws/CMakeLists.txt" := by decide +kernel
      have hpath : scriptIn (folderOf onceTree true "/ws/CMakeLists.txt") "." =
          "/ws/./CMakeLists.txt" := by decide +kernel
      rw [hkey, hpath]
      exact .again _
  | again n =>
    obtain ⟨hown⟩ := hgoes
    rw [← show _ = _ from congrArg (Project.subfolders ·.2) hown, subfolders_seenTwice]
    exact .done (pairwise_singleton _ _)
  | done h => cases hgoes

theorem recursWithin_onceTree :
    RecursWithin (Goes onceTree) (.script · true "/ws/CMakeLists.txt" fresh) 1 := by
  refine recursWithin_one_iff.mpr fun n ks v htrail => ?_
  have hseeing : Seeing ks v := by
    induction htrail with
    | start => exact .first n
    | past _ hstep ih | into _ hstep ih => exact ih.goes hstep
  exact hseeing.nodup

/-- The script is open twice at once, and no more. -/
theorem subfolders_end_iff_once :
    RecursWithin (Goes onceTree) (.script · true "/ws/CMakeLists.txt" fresh) 1 ∧
    NestsWithin (Goes onceTree) (.script · true "/ws/CMakeLists.txt" fresh) 3 ∧
    (∀ n, 3 ≤ n → (parseFile onceTree (n + 1) true "/ws/CMakeLists.txt").exec fresh =
      (parseFile onceTree 4 true "/ws/CMakeLists.txt").exec fresh) ∧
    (∀ n ks w, 3 < n →
      Trail (Goes onceTree) (.script n true "/ws/CMakeLists.txt" fresh) ks w → 0 < w.limit) ∧
    ((parse onceTree "/ws/CMakeLists.txt").exec fresh).1 = .ok () ∧
    ((parseFile onceTree 1 true "/ws/CMakeLists.txt").exec fresh).1 = .error .tooDeep := by
  obtain ⟨hnests, hsame, hfree⟩ :=
    (subfolders_end_iff onceTree "/ws/CMakeLists.txt" fresh).2 1 recursWithin_onceTree
  exact ⟨recursWithin_onceTree, hnests, hsame, hfree, by decide +kernel, by decide +kernel⟩

/-! ### A script that always adds its folder -/

def loopTree : FileTree := alone "add_subdirectory($\x7bCMAKE_SOURCE_DIR\x7d)\n"

def looping : Project := ((ownScript loopTree true "/ws/CMakeLists.txt").exec fresh).2

theorem exec_loop :
    (ownScript loopTree true "/ws/CMakeLists.txt").exec fresh = (.ok (), looping) ∧
    (ownScript loopTree false "/ws/CMakeLists.txt").exec looping.below = (.ok (), looping) ∧
    looping.subfolders = ["/ws"] := by
  decide +kernel

theorem path_loop :
    folderOf loopTree true "/ws/CMakeLists.txt" = "/ws" ∧
    folderOf loopTree false "/ws/CMakeLists.txt" = "/ws" ∧
    scriptIn "/ws" "/ws" = "/ws/CMakeLists.txt" ∧
    loopTree.absolute "/ws/CMakeLists.txt" = "/ws/CMakeLists.txt" ∧
    loopTree.isFile "/ws/CMakeLists.txt" = true := by
  decide +kernel

def loopRest (n : Nat) : Visit := .rest n "/ws" ["/ws"] looping

theorem goes_loop_first (n : Nat) :
    Goes loopTree (.script n true "/ws/CMakeLists.txt" fresh) none (loopRest n) := by
  obtain ⟨hfirst, -, hsubfolders⟩ := exec_loop
  have h := Goes.own (n := n) hfirst
  rwa [hsubfolders, path_loop.1] at h

theorem goes_loop_again (n : Nat) :
    Goes loopTree (.script n false "/ws/CMakeLists.txt" looping.below) none (loopRest n) := by
  obtain ⟨-, hagain, hsubfolders⟩ := exec_loop
  have h := Goes.own (n := n) hagain
  rwa [hsubfolders, path_loop.2.1] at h

theorem goes_loop_into (n : Nat) : Goes loopTree (loopRest (n + 1)) (some "/ws/CMakeLists.txt")
    (.script n false "/ws/CMakeLists.txt" looping.below) := by
  obtain ⟨-, -, hscript, habsolute, hfile⟩ := path_loop
  have h : Goes loopTree (loopRest (n + 1)) _ _ := .into (hscript ▸ hfile)
  rwa [hscript, habsolute] at h

theorem trail_loop (n : Nat) :
    Trail (Goes loopTree) (loopRest n) (replicate n "/ws/CMakeLists.txt") (loopRest 0) := by
  induction n with
  | zero => exact .start
  | succ n ih =>
    rw [replicate_succ']
    exact (ih.head_past (goes_loop_again n)).head_into (goes_loop_into n)

theorem run_loop (n : Nat) : ((loopRest n).run loopTree).1 = .error .tooDeep := by
  obtain ⟨-, -, hscript, -, hfile⟩ := path_loop
  induction n with
  | zero =>
    have hvisit : visitOne loopTree (parseFile loopTree 0 false) "/ws" "/ws" =
        inSubfolder (throw .tooDeep) := by
      rw [visitOne, hscript, if_pos hfile]
      rfl
    rw [loopRest, Visit.run, visitAll, hvisit,
      exec_bind_of_error (exec_inSubfolder_of_error (exec_throw _ _))]
  | succ n ih => exact (goes_loop_into n).error ((goes_loop_again n).error ih)

/-- A script that adds its own folder is gone into as often as the limit allows, whatever this is.
-/
theorem loop_never_ends :
    (¬ ∃ d, NestsWithin (Goes loopTree) (.script · true "/ws/CMakeLists.txt" fresh) d) ∧
    (∀ n, ((parseFile loopTree n true "/ws/CMakeLists.txt").exec fresh).1 = .error .tooDeep) ∧
    ((parse loopTree "/ws/CMakeLists.txt").exec fresh).1 = .error .tooDeep := by
  have hrun : ∀ n, ((parseFile loopTree n true "/ws/CMakeLists.txt").exec fresh).1 =
      .error .tooDeep := by
    intro n
    cases n with
    | zero => rfl
    | succ n => exact (goes_loop_first n).error (run_loop n)
  refine ⟨?_, hrun, hrun nesting⟩
  rintro ⟨d, hd⟩
  have hle := hd _ _ _ ((trail_loop (d + 1)).head_past (goes_loop_first (d + 1)))
  rw [length_replicate] at hle
  exact absurd hle (Nat.not_succ_le_self d)

end RosAudit.CMake.Project
