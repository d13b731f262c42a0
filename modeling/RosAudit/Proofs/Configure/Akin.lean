import RosAudit.Proofs.Configure.Invariant

/-!
# Builders that are akin

What was asked of a builder leaves traces : the search for packages keeps what it found, and the
context keeps the packages and variables that were asked for. No later step reads them, and no step
reads the messages.

No step on a tag sees the difference (`Following`). Neither does the work on included files
(`blind_includeFile`) and at the end of a launch file (`blind_settleParams`).
-/

namespace RosAudit

open Job

/-! ## Searches -/

namespace Search

variable {t : FileTree} {s : Search}

def IsWhole (t : FileTree) (s : Search) : Prop :=
  s.found = none → (walkRoots t s.sought s.roots.reverse Table.empty).2 = none

def table (t : FileTree) (s : Search) : Table String String :=
  s.found.getD (walkRoots t s.sought s.roots.reverse Table.empty).1

theorem exec_all (h : s.IsWhole t) :
    (all t).exec s = (.ok (s.table t), { s with found := some (s.table t) }) := by
  obtain ⟨sought, roots, found⟩ := s
  unfold all
  rw [exec_bind_of_ok (exec_get _)]
  cases found with
  | some found => rfl
  | none =>
    have hfault : (walkRoots t sought roots.reverse Table.empty).2 = none := h rfl
    rw [exec_bind_of_ok (exec_set _ _), hfault]
    rfl

theorem exec_locate (h : s.IsWhole t) (name : String) : (locate t name).exec s =
    (((s.table t).get? name).elim (.error .noResource) .ok,
      { s with found := some (s.table t) }) := by
  unfold locate
  rw [exec_bind_of_ok (exec_all h)]
  cases (s.table t).get? name <;> rfl

end Search

namespace PackageSearch

variable {t : FileTree} {s s' : PackageSearch}

def answers (t : FileTree) : List String → PackageSearch → List (Result String)
  | [], _ => []
  | n :: ns, s => ((locate t n).exec s).1 :: answers t ns ((locate t n).exec s).2

/-- Two searches that say the same of all packages, in whatever order they are asked for. -/
def SameAnswers (t : FileTree) (s s' : PackageSearch) : Prop :=
    ∀ ns, answers t ns s = answers t ns s'

theorem blind_locate (n : String) : Blind (SameAnswers t) (locate t n) := by
  intro s s' h
  have hcons := fun ns => List.cons.inj (h (n :: ns))
  exact ⟨(hcons []).1, fun ns => (hcons ns).2⟩

def IsWhole (t : FileTree) (s : PackageSearch) : Prop :=
  s.packages.IsWhole t ∧ s.stackFolders.IsWhole t

def SameTables (t : FileTree) (s s' : PackageSearch) : Prop :=
  s.packages.table t = s'.packages.table t ∧ s.stackFolders.table t = s'.stackFolders.table t

theorem locate_of_isWhole (h : s.IsWhole t) (n : String) :
    ((locate t n).exec s).1 = (((s.packages.table t).get? n).elim
      (((s.stackFolders.table t).get? n).elim (.error .noResource) .ok) .ok) ∧
    IsWhole t ((locate t n).exec s).2 ∧ SameTables t ((locate t n).exec s).2 s := by
  have hmade : ∀ (x : Search) (T : Table String String),
      ({ x with found := some T } : Search).IsWhole t := fun x T hx => by cases hx
  unfold locate
  rw [exec_bind_of_ok (exec_get s)]
  rw [Search.exec_locate h.1, exec_bind_of_ok (exec_set _ _)]
  cases (s.packages.table t).get? n with
  | some folder => exact ⟨rfl, ⟨hmade _ _, h.2⟩, rfl, rfl⟩
  | none =>
    dsimp only [Option.elim]
    rw [Search.exec_locate h.2, exec_bind_of_ok (exec_set _ _), exec_ofResult]
    exact ⟨rfl, ⟨hmade _ _, hmade _ _⟩, rfl, rfl⟩

theorem sameAnswers_of_isWhole : ∀ {s s'}, s.IsWhole t → s'.IsWhole t →
    SameTables t s s' → SameAnswers t s s' := by
  intro s s' h h' hsame ns
  induction ns generalizing s s' with
  | nil => rfl
  | cons n ns ih =>
    obtain ⟨hres, hwhole, htables⟩ := locate_of_isWhole h n
    obtain ⟨hres', hwhole', htables'⟩ := locate_of_isWhole h' n
    have hnext : SameTables t ((locate t n).exec s).2 ((locate t n).exec s').2 :=
      ⟨htables.1.trans (hsame.1.trans htables'.1.symm),
        htables.2.trans (hsame.2.trans htables'.2.symm)⟩
    rw [answers, answers, hres, hres', hsame.1, hsame.2, ih hwhole hwhole' hnext]

theorem sameAnswers_locate (h : s.IsWhole t) (n : String) :
    SameAnswers t s ((locate t n).exec s).2 := by
  obtain ⟨-, hwhole, htables⟩ := locate_of_isWhole h n
  exact sameAnswers_of_isWhole h hwhole ⟨htables.1.symm, htables.2.symm⟩

end PackageSearch

/-! ## Builders -/

namespace Builder

/-- Two builders that differ only in what was asked of them, and in their messages. -/
structure Akin (b b' : Builder) : Prop where
  files : b'.files = b.files
  bench : b'.bench = b.bench
  configuration : b'.configuration = b.configuration
  catalogue : b'.catalogue = b.catalogue
  search : PackageSearch.SameAnswers b.files b.search b'.search
  foreign : b'.foreign = b.foreign
  specs : b'.specs = b.specs
  hints : b'.hints = b.hints
  context : b.context.Matches b'.context
  future : b'.future = b.future

/-- The second builder is like the first, but one message is missing there after those in `before`.
-/
structure Less (before : List String) (message : String) (b b' : Builder) : Prop
    extends Akin b b' where
  errors : ∃ after, b.errors = before ++ message :: after ∧ b'.errors = before ++ after

variable {before : List String} {message : String}

theorem blind_onBench {α : Type} (j : Job Workbench α) :
    Blind (Less before message) (onBench j) := by
  intro b b' h
  unfold Matching
  rw [exec_onBench, exec_onBench, h.bench]
  exact ⟨rfl, { h with bench := rfl }⟩

theorem blind_findPackage (name : String) : Blind (Less before message) (findPackage name) := by
  intro b b' h
  obtain ⟨hfound, hsearch⟩ := PackageSearch.blind_locate name _ _ h.search
  unfold findPackage Matching
  rw [exec_bind_of_ok (exec_get b), exec_bind_of_ok (exec_get b'), h.foreign, h.bench, h.files]
  dsimp only
  split
  · exact ⟨rfl, h⟩
  · -- both go on in the same way from where the package was looked for
    rw [← hfound]
    refine matching_set { h with files := rfl, bench := rfl, foreign := rfl, search := hsearch } ?_
    split
    · refine (blind_onBench _).bind fun p => Blind.bind (blind_modify ?_) fun _ => blind_pure p
      exact fun b b' h => { h with foreign := by rw [h.foreign] }
    all_goals exact blind_throw _

theorem blind_node : ∀ p : Program, Blind (Less before message) p.node
  | .known n => blind_pure n
  | .named _ _ => (blind_ofResult _).bind fun _ => blind_onBench _

theorem blind_linkNode (s : LaunchScope) (node : Ref .node) :
    Blind (Less before message) (linkNode s node) := by
  refine blind_get (fun b b' h => by rw [h.bench, h.specs, h.hints]) fun b => ?_
  refine (blind_ofResult _).bind fun hints => ?_
  refine (blind_onBench _).bind fun s' => blind_modify fun b b' h => ?_
  exact { h with future := by rw [h.future] }

instance : Following (Less before message) where
  reads h := ⟨h.files, h.bench, h.catalogue, h.context.arguments⟩
  context hj _ b b' h := by
    obtain ⟨hres, hcontext⟩ := hj _ _ h.context
    exact ⟨hres, { h with context := hcontext }⟩
  findPackage := blind_findPackage
  node := blind_node
  note text := by
    refine blind_modify fun b b' h => ?_
    obtain ⟨after, herrors, herrors'⟩ := h.errors
    exact { h with errors := ⟨after ++ [text], by simp [herrors], by simp [herrors']⟩ }
  arguments _ := blind_modify fun b b' h =>
    { h with context := { h.context with arguments := rfl } }
  setParam _ _ _ _ := blind_onBench _
  setDocument _ _ _ _ := blind_onBench _
  deleteParam _ _ _ := blind_onBench _
  rename _ _ _ := blind_onBench _
  makeNode _ _ _ _ _ := blind_onBench _
  linkNode := blind_linkNode

theorem Less.enter {b b'} (h : Less before message b b') (x : Included) :
    Less before message (b.enter x) (b'.enter x) := by
  have hcontext : (b.enter x).context.Matches (b'.enter x).context := by
    refine { h.context with arguments := rfl, folder := ?_, nameFor := fun n => ?_ }
    · rw [Builder.enter, Builder.enter, h.bench]
    · exact congrArg (Origin.anonymous · n) h.context.origin
  exact { h with context := hcontext }

theorem blind_includeFile : ∀ n x, Blind (Less before message) (includeFile n x)
  | 0, x => blind_throw _
  | n + 1, x => by
    intro b b' h
    unfold includeFile Matching
    rw [exec_bind_of_ok (exec_get b), exec_bind_of_ok (exec_get b')]
    refine matching_set (h.enter x) (Alongside.bind ?_ fun _ => ?_)
    · exact blind_analyse (blind_includeFile n) _ _
    · refine alongside_modify fun inner inner' hinner => ?_
      obtain ⟨harguments, henvironment, hpackages, hfolder, horigin, hname⟩ := h.context
      exact { hinner with
        context := ⟨harguments, henvironment, hpackages, hfolder, horigin, hname⟩ }

/-! ## Launch files -/

theorem blind_settleParams : Blind (Less before message) settleParams := by
  refine blind_get (fun b b' h => by rw [h.bench]) fun b => ?_
  refine Blind.bind (chains_blind.forIn (fun p _ _ => ?_) _) fun _ => ?_
  · exact (blind_onBench _).bind fun _ => blind_pure _
  · refine blind_get (fun b b' h => by rw [h.future]) fun b => ?_
    refine Blind.bind (chains_blind.forIn (fun f _ _ => ?_) _) fun _ => blind_pure _
    exact (blind_onBench _).bind fun _ => blind_pure _

end Builder

end RosAudit
