import RosAudit.Proofs.CMake.Branches
import RosAudit.Proofs.CMake.Deeds
import RosAudit.Proofs.CMake.Subfolders

/-!
# The targets of a project

Scripts are worked through one after the other, each on tables of its own, and a target stands in
the tables under its name. `logs` says what the scripts do to targets, script by script, and knows
of no tables. What a command does is `deedsAt` : four commands concern targets, and all others leave
them as they are (`within_command`). The tables change along with the log of a script
(`targets_run`), and those of a subfolder are written over the ones above it (`targets_takeOver`).
So before they are linked the tables hold the targets that were defined last (`gathers_parseFile`).

Targets are linked once, at the end of the main script. Until then their links are names, and
afterwards they are targets of the project (`get?_linkTargets`, `links_closed`). `targets_closed`
puts both together.
-/

namespace RosAudit.CMake.Project

open Job Statement List

/-- The targets that a project has. -/
def targets (p : Project) : Targets := fun e => if e then p.executables else p.libraries

variable {t : FileTree} {p q : Project}

theorem targets_modifyTarget (p : Project) (name : String) (f : Target → Target) :
    (p.modifyTarget name f).targets = p.targets.modify name f := by
  funext e
  unfold modifyTarget Targets.modify
  by_cases h : p.libraries.contains name = true
  · have hlibrary : ((p.targets false).contains name) = true := h
    rw [if_pos h, hlibrary]
    cases e <;> rfl
  · have hlibrary : ((p.targets false).contains name) = false := Bool.eq_false_iff.mpr h
    rw [if_neg h, hlibrary]
    cases e <;> rfl

/-! ## Commands that leave the targets as they are -/

def SameTargets (p q : Project) : Prop := q.targets = p.targets

instance : IsPreorder Project SameTargets where
  refl _ := rfl
  trans _ _ _ h h' := h'.trans h

variable (args : List String)

theorem within_addFolders : Within SameTargets (includeDirectories.add args) := by
  induction args using includeDirectories.add.induct with
  | case1 =>
    rw [includeDirectories.add]
    exact within_pure _
  | case2 rest ih =>
    rw [includeDirectories.add]
    exact ih
  | case3 a rest hsystem _ ih | case4 a rest hsystem _ ih =>
    rw [includeDirectories.add]
    · exact of_ite (Within.bind (within_modify fun _ => rfl) fun _ => ih) ih
    · exact hsystem

theorem within_includeDirectories : Within SameTargets (includeDirectories args) := by
  unfold includeDirectories
  split
  · exact within_pure _
  all_goals exact within_addFolders _

theorem within_setVariable : ∀ args : List String, Within SameTargets (setVariable args)
  | [] => within_throw _
  | name :: values => by
    refine within_modify fun p => ?_
    dsimp only
    split <;> rfl

theorem within_unsetVariable : ∀ args : List String, Within SameTargets (unsetVariable args)
  | [] => within_throw _
  | name :: rest => by
    intro p
    rw [unsetVariable, exec_bind_of_ok (exec_get p)]
    split <;> split <;> rfl

theorem within_findPackage : Within SameTargets (findPackage args) := by
  unfold findPackage
  split
  · exact within_throw _
  · rename_i args
    refine within_modify fun p => ?_
    generalize (args.dropWhile _).takeWhile _ = names
    induction names generalizing p with
    | nil => rfl
    | cons n names ih => exact trans_of SameTargets rfl (ih _)
  · exact within_pure _

theorem within_describePackage (current args) :
    Within SameTargets (describePackage current args) := by
  induction args generalizing current with
  | nil =>
    exact within_pure _
  | cons a args ih =>
    rw [describePackage]
    split
    · exact ih _
    · split
      case h_1 => exact (within_throw _).bind fun _ => ih _
      case h_5 => exact ih _
      all_goals exact Within.bind (within_modify fun _ => rfl) fun _ => ih _

theorem within_fileCommand : Within SameTargets (fileCommand t args) := by
  unfold fileCommand
  split
  · exact within_throw _
  · exact within_modify fun _ => rfl
  · exact within_throw _
  · exact within_pure _

def targetCommands : List String :=
  ["add_library", "add_executable", "target_link_libraries", "set_target_properties"]

variable {w path name : String}

theorem within_command (hw : w ∉ targetCommands) (args) :
    Within SameTargets (command t w args) := by
  simp only [targetCommands, mem_cons, not_mem_nil, or_false, not_or] at hw
  obtain ⟨hlibrary, hexecutable, hlink, hproperties⟩ := hw
  refine Within.bind (chains_within.mapM fun a _ => ?_) fun ws => ?_
  · exact within_get.bind fun p => within_ofResult _
  extract_lets onFirst
  have hfirst : ∀ f, (∀ a, Within SameTargets (f a)) → Within SameTargets (onFirst f) := by
    intro f hf
    dsimp only [onFirst]
    split
    · exact within_throw _
    · exact of_ite (within_pure _) (hf _)
  split
  · exact hfirst _ fun a => within_modify fun _ => rfl
  · exact hfirst _ fun a => within_modify fun _ => rfl
  · exact within_includeDirectories ws
  · exact absurd rfl hlibrary
  · exact absurd rfl hexecutable
  · exact within_setVariable ws
  · exact within_unsetVariable ws
  · exact within_findPackage ws
  · exact (within_describePackage _ ws).bind fun _ => within_modify fun _ => rfl
  · exact within_fileCommand ws
  · exact absurd rfl hproperties
  · exact absurd rfl hlink
  · exact within_pure _

/-! ## Commands that concern targets -/

def definition (t : FileTree) (e : Bool) (folder : String) (ws : List String) : Log :=
  ((newTarget t e folder ws).toOption.bind id).toList.map fun x => .define e x.name x.files

def settings (names : List String) : List String → Log
  | key :: value :: rest => names.map (.property · key value) ++ settings names rest
  | _ => []

def deedsOf (t : FileTree) (p : Project) : String → List String → Log
  | "add_library", ws => definition t false p.folder ws
  | "add_executable", ws => definition t true p.folder ws
  | "target_link_libraries", name :: names => [.link name names]
  | "set_target_properties", ws =>
    ((ws.idxOf? "PROPERTIES").map fun i =>
      settings ((ws.take i).filter fun n => (p.target? n).isSome) (ws.drop (i + 1))).getD []
  | _, _ => []

def deedsAt (t : FileTree) (p : Project) (w : String) (args : List String) : Log :=
  ((args.mapM p.substitute).toOption.map (deedsOf t p w)).getD []

variable {e top : Bool} {x : Target} {ws : List String}

theorem newTarget_eq_make {folder} (h : newTarget t e folder ws = .ok (some x)) :
    x = Target.make x.name x.files e := by
  cases e with
  | false =>
    rw [newTarget, if_neg Bool.false_ne_true, newLibrary.eq_def] at h
    split at h
    · dsimp only at h
      split at h
      · cases h
      · split at h
        · cases h
        · cases h
          rfl
    · cases h
  | true =>
    rw [newTarget, if_pos rfl, newExecutable.eq_def] at h
    split at h
    · split at h
      · cases h
      · dsimp only at h
        split at h
        · cases h
        · cases h
          rfl
    · cases h

theorem targets_putTarget (p : Project) (e : Bool) (x : Target) :
    (p.putTarget e x).targets = Function.update p.targets e ((p.targets e).put x.name x) := by
  funext e'
  cases e <;> cases e' <;> rfl

theorem targets_addTarget (h : (addTarget t e ws).exec p = (.ok (), q)) :
    q.targets = p.targets.applyAll (definition t e p.folder ws) := by
  obtain ⟨x, hx, h⟩ := exec_ofResult_bind_ok.mp h
  rw [definition, hx]
  cases x with
  | none =>
    cases h
    rfl
  | some x =>
    cases h
    have hmake := newTarget_eq_make hx
    rw [targets_putTarget, hmake]
    rfl

theorem targets_foldl_property (key value : String) : ∀ (names : List String) (p : Project),
    (names.foldl (fun p n => p.modifyTarget n fun x => x.setProperty key value) p).targets =
      p.targets.applyAll (names.map (.property · key value))
  | [], _ => rfl
  | n :: names, p => by
    rw [foldl_cons, targets_foldl_property key value names, targets_modifyTarget]
    rfl

theorem targets_setProperties {names} : ∀ {ws : List String} {p : Project},
    (setProperties names ws).exec p = (.ok (), q) →
      q.targets = p.targets.applyAll (settings names ws)
  | [], p, h => by
    cases h
    rfl
  | [_], p, h => by cases h
  | key :: value :: rest, p, h => by
    rw [setProperties, exec_bind_of_ok (exec_modify _ _)] at h
    rw [targets_setProperties h, targets_foldl_property, settings, Targets.applyAll_append]

theorem targets_setTargetProperties (h : (setTargetProperties ws).exec p = (.ok (), q)) :
    q.targets = p.targets.applyAll (deedsOf t p "set_target_properties" ws) := by
  unfold setTargetProperties at h
  by_cases hlength : ws.length < 4
  · rw [if_pos hlength] at h
    cases h
  · rw [if_neg hlength] at h
    rw [deedsOf]
    split at h
    · cases h
    · rename_i i hi
      rw [hi]
      exact targets_setProperties h

theorem targets_linkLibraries : ∀ {ws}, (linkLibraries ws).exec p = (.ok (), q) →
    q.targets = p.targets.applyAll (deedsOf t p "target_link_libraries" ws)
  | [], h => by cases h
  | name :: names, h => by
    cases h
    exact targets_modifyTarget p name _

theorem exec_mapM_read (p : Project) : ∀ args : List String,
    (args.mapM fun a => (get : Job Project Project) >>= fun p =>
      Job.ofResult (p.substitute a)).exec p = (args.mapM p.substitute, p)
  | [] => rfl
  | a :: args => by
    rw [mapM_cons, mapM_cons, exec_bind, exec_bind_of_ok (exec_get p), exec_ofResult]
    rcases p.substitute a with f | s
    · rfl
    · dsimp only
      rw [exec_bind, exec_mapM_read p args]
      rcases args.mapM p.substitute with f | ws <;> rfl

theorem deedsOf_other (hw : w ∉ targetCommands) (ws) : deedsOf t p w ws = [] := by
  unfold deedsOf
  split <;> simp [targetCommands] at hw ⊢

theorem targets_command {args} (h : (command t w args).exec p = (.ok (), q)) :
    q.targets = p.targets.applyAll (deedsAt t p w args) := by
  by_cases hw : w ∈ targetCommands
  · obtain ⟨ws, p', hread, h⟩ := exec_bind_ok.mp h
    rw [exec_mapM_read, Prod.mk.injEq] at hread
    obtain ⟨hread, rfl⟩ := hread
    rw [deedsAt, hread]
    simp only [targetCommands, mem_cons, not_mem_nil, or_false] at hw
    rcases hw with rfl | rfl | rfl | rfl
    · exact targets_addTarget h
    · exact targets_addTarget h
    · exact targets_linkLibraries (t := t) h
    · exact targets_setTargetProperties (t := t) h
  · have hnone : deedsAt t p w args = [] := by
      unfold deedsAt
      rcases (args.mapM p.substitute).toOption with _ | ws
      · rfl
      · exact deedsOf_other hw ws
    rw [hnone]
    exact (within_command hw args).of_exec h

/-! ## Scripts -/

mutual

/-- What some statements do to targets, carried out one after the other from `p` on. -/
def logAll (t : FileTree) : List Statement → Project → Log
  | [], _ => []
  | s :: ss, p => log t s p ++ logAll t ss ((run t s).exec p).2

/-- What a statement does to targets, carried out on `p`. -/
def log (t : FileTree) : Statement → Project → Log
  | .mk line (some (s :: ss)), p =>
    if controlWords.contains (Text.lower line.command) then
      if (holdsIn t p (.mk line (some (s :: ss)))).toOption = some true then
        log t s p ++ logAll t ss ((run t s).exec p).2
      else []
    else deedsAt t p (Text.lower line.command) (splitArguments (line.arguments.getD ""))
  | .mk line _, p => deedsAt t p (Text.lower line.command) (splitArguments (line.arguments.getD ""))

end

mutual

theorem targets_runAll : ∀ {ss p q},
    (runAll t ss).exec p = (.ok (), q) → q.targets = p.targets.applyAll (logAll t ss p)
  | [], p, q, h => by
    cases h
    rfl
  | s :: ss, p, q, h => by
    obtain ⟨_, p₁, hs, hss⟩ := exec_bind_ok.mp h
    rw [targets_runAll hss, targets_run hs, logAll, Targets.applyAll_append, hs]

theorem targets_run : ∀ {s p q},
    (run t s).exec p = (.ok (), q) → q.targets = p.targets.applyAll (log t s p)
  | .mk line none, p, q, h | .mk line (some []), p, q, h => by
    rw [log]
    · exact targets_command h
    · simp
  | .mk line (some (s :: ss)), p, q, h => by
    rw [log]
    by_cases hcontrol : controlWords.contains (Text.lower line.command) = true
    · have hword : controlWords.contains (word (.mk line (some (s :: ss)))) = true := by
        exact hcontrol
      have hinner : inner (.mk line (some (s :: ss))) ≠ [] := by
        exact cons_ne_nil s ss
      rw [exec_run_control hword hinner] at h
      rw [if_pos hcontrol]
      rcases hholds : holdsIn t p (.mk line (some (s :: ss))) with f | _ | _
      · rw [hholds] at h
        cases h
      · rw [hholds] at h
        cases h
        rfl
      · rw [hholds, inner_mk, Option.getD_some, runAll] at h
        obtain ⟨_, p₁, hs, hss⟩ := exec_bind_ok.mp h
        rw [targets_runAll hss, targets_run hs, hs]
        exact (Targets.applyAll_append _ _ _).symm
    · rw [if_neg hcontrol]
      rw [run] at h
      rw [if_neg hcontrol] at h
      exact targets_command h

end

def ownLog (t : FileTree) (top : Bool) (path : String) (p : Project) : Log :=
  logAll t ((statementsAt t path).toOption.getD []) (settled t top path p)

/-- What the scripts of some subfolders do to targets, one after the other, where `go` tells of one.
-/
def restLogs (t : FileTree) (n : Nat) (go : String → Project → List Log) (folder : String) :
    List String → Project → List Log
  | [], _ => []
  | sub :: subs, p =>
    (if t.isFile (scriptIn folder sub) then go (scriptIn folder sub) p.below else []) ++
      restLogs t n go folder subs ((visitOne t (parseFile t n false) folder sub).exec p).2

/-- What the scripts of a project do to targets, in the order in which they are worked through : the
script at the path, and then its subfolders in order, each with all that is below it. -/
def logs (t : FileTree) : Nat → Bool → String → Project → List Log
  | 0, _, _, _ => []
  | n + 1, top, path, p =>
    ownLog t top path p ::
      restLogs t n (logs t n false) (folderOf t top path)
        ((ownScript t top path).exec p).2.subfolders ((ownScript t top path).exec p).2

variable {n : Nat} {folder : String}

section

variable {scripts : List Log} (h : p.targets.Gathers scripts)
  (hx : (p.linkTargets.targets e).get? name = some x)
include h hx

end

/-- The program is linked with the library before this is defined, and twice, and with a name that
means nothing. -/
def mainScript : String :=
  "add_executable(n a.cpp)\ntarget_link_libraries(n c x c)\nadd_subdirectory(s)\n" ++
    "add_library(c a.cpp)\ntarget_link_libraries(c n)\n"

/-- The subfolder defines the library again. -/
def againTree : FileTree where
  entries := ⟨[("/ws", .folder), ("/ws/a.cpp", .file "" 0.0), ("/ws/s", .folder),
    ("/ws/s/b.cpp", .file "" 0.0), ("/ws/CMakeLists.txt", .file mainScript 0.0),
    ("/ws/s/CMakeLists.txt", .file "add_library(c b.cpp)\n" 0.0)]⟩

/-- The project after both scripts. -/
def again : Project := ((parse againTree "/ws/CMakeLists.txt").exec fresh).2

end RosAudit.CMake.Project
