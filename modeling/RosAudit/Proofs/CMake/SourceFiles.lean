import RosAudit.CMake.Project

/-!
# The source files of a target

The arguments of a target are split into paths, and each path is looked up where it stands in the
list : it may be a file, or the beginning of the name of one, and is taken out if it is neither. The
list is changed while it is gone through. `sourceFiles_eq_filterMap` : the files are what the paths
mean one by one, in order.
-/

namespace RosAudit.CMake.Target

open RosAudit.Text List

variable {t : FileTree} {path : String}

/-- A name in the folder of a path with which a file begins as the path does. -/
def Completes (t : FileTree) (path name : String) : Prop :=
  (Path.base path).toList <+: name.toList ∧ t.isFile (Path.join (Path.parent path) name) = true

/-- What a path means : itself if it is a file, or else the first file of its folder whose name
begins with its last part. -/
inductive Means (t : FileTree) (path : String) : Option String → Prop
  | itself (h : t.isFile path = true) : Means t path (some path)
  | beside {before after : List String} {name : String} (h : t.isFile path = false)
      (hne : Path.parent path ≠ "") (hfolder : t.isFolder (Path.parent path) = true)
      (hnames : t.names (Path.parent path) = before ++ name :: after)
      (hbefore : ∀ n ∈ before, ¬ Completes t path n) (hname : Completes t path name) :
      Means t path (some (Path.join (Path.parent path) name))
  | nothing (h : t.isFile path = false)
      (hnone : Path.parent path ≠ "" → t.isFolder (Path.parent path) = true →
        ∀ n ∈ t.names (Path.parent path), ¬ Completes t path n) : Means t path none

theorem means_sourceFile? (t : FileTree) (path : String) : Means t path (sourceFile? t path) := by
  have htest : ∀ name, ((Path.base path).toList.isPrefixOf name.toList &&
      t.isFile (Path.join (Path.parent path) name)) = true ↔ Completes t path name := fun name => by
    rw [Bool.and_eq_true, isPrefixOf_iff_prefix, Completes]
  unfold sourceFile?
  split
  · exact .itself ‹_›
  · rename_i hfile
    have hfile := Bool.eq_false_iff.mpr hfile
    dsimp only
    split
    · rename_i hfolder
      obtain ⟨hne, hfolder⟩ := Bool.and_eq_true_iff.mp hfolder
      cases hfind : (t.names (Path.parent path)).find? _ with
      | none =>
        rw [find?_eq_none] at hfind
        exact .nothing hfile fun _ _ n hn => mt (htest n).mpr (hfind n hn)
      | some name =>
        obtain ⟨hname, before, after, hnames, hbefore⟩ := find?_eq_some_iff_append.mp hfind
        refine .beside hfile (by simpa using hne) hfolder hnames (fun n hn h => ?_)
          ((htest _).mp hname)
        have hfalse := hbefore n hn
        rw [(htest n).mpr h] at hfalse
        cases hfalse
    · rename_i hfolder
      refine .nothing hfile fun hne hisFolder => absurd ?_ hfolder
      simpa using ⟨hne, hisFolder⟩

theorem Means.isFile {file} (h : Means t path (some file)) : t.isFile file = true := by
  cases h with
  | itself h => exact h
  | beside _ _ _ _ _ hname => exact hname.2

/-- The loop invariant : what stands before the index is settled, and what comes after it is still
to be looked up. -/
theorem settleFiles_eq (t done paths) :
    settleFiles t done.length (done ++ paths) = done ++ paths.filterMap (sourceFile? t) := by
  induction paths generalizing done with
  | nil => simp [settleFiles]
  | cons path paths ih =>
    rw [settleFiles]
    cases hfile : sourceFile? t path with
    | none => simpa [hfile, eraseIdx_append_of_length_le] using ih done
    | some file => simpa [hfile] using ih (done ++ [file])

/-- The paths that arguments name : the parts between semicolons that are not empty. -/
def paths (folder : String) (args : List String) : List String :=
  (args.flatMap fun a => (splitOnChar ';' a).filter fun f => !f.isEmpty).map (Path.join folder)

/-- The files of a target are what the paths of its arguments mean, each by itself, in the order of
the paths and as often. All of them are files. -/
theorem sourceFiles_eq_filterMap (t : FileTree) (folder : String) (args : List String) :
    ∃ meaning : String → Option String, (∀ path, Means t path (meaning path)) ∧
      sourceFiles t folder args = (paths folder args).filterMap meaning ∧
      ∀ file ∈ sourceFiles t folder args, t.isFile file = true := by
  have hall : sourceFiles t folder args = (paths folder args).filterMap (sourceFile? t) :=
    settleFiles_eq t [] _
  refine ⟨sourceFile? t, means_sourceFile? t, hall, fun file hmem => ?_⟩
  rw [hall] at hmem
  obtain ⟨path, -, hpath⟩ := mem_filterMap.mp hmem
  exact (hpath ▸ means_sourceFile? t path : Means t path (some file)).isFile

end RosAudit.CMake.Target
