import RosAudit.Audit.Export
import RosAudit.Proofs.Job
import RosAudit.Proofs.Model.Collection

/-!
# What the statistics count

The statistics of some packages go through packages, files, violations and measurements one after
another, and each of them adds to some counters. `Counting` says that a step adds a tally to the
counters, whatever they were before, and a loop adds the sum of what its steps add
(`Counting.foldlM`). So the statistics of some packages are the sum of what each of them holds
(`statisticsOf_tally`), and those of a project the sum of those of its packages
(`summarise_counts`).

A package counts each of its violations once, and once in each of the exported lists. A violation
with both tags that sort issues counts twice among the sorted ones, every other one once
(`issueTally_sorted`).

Means are computed from integers here, and never fail on them (`Number.exists_mean`). What they are
is not said.
-/

namespace RosAudit

open List

/-! ## Arithmetic -/

namespace Number

theorem add_of_integer {x n} (a : Int) (h : integer? x = some n) :
    add (.int a) x = .ok (.int (a + n)) := by
  unfold add arithmetic
  rw [h]
  rfl

theorem add_int (a b : Int) : add (.int a) (.int b) = .ok (.int (a + b)) :=
  add_of_integer a rfl

theorem foldlM_add_int {α : Type} (f : α → Int) (xs : List α) (a : Int) :
    (xs.map fun x => Value.int (f x)).foldlM add (.int a) = .ok (.int (a + (xs.map f).sum)) := by
  induction xs generalizing a with
  | nil => simp [pure_eq_ok]
  | cons x xs ih =>
    rw [map_cons, foldlM_cons, add_int, ok_bind, ih, map_cons, sum_cons, Int.add_assoc]

theorem sum_map_int {α : Type} (f : α → Int) (xs : List α) :
    sum (xs.map fun x => Value.int (f x)) = .ok (.int (xs.map f).sum) := by
  rw [sum, foldlM_add_int, Int.zero_add]

theorem exists_foldlM_add {xs : List Value} (h : ∀ x ∈ xs, (integer? x).isSome) (a : Int) :
    ∃ n, xs.foldlM add (.int a) = .ok (.int n) := by
  induction xs generalizing a with
  | nil => exact ⟨a, rfl⟩
  | cons x xs ih =>
    obtain ⟨hx, hxs⟩ := forall_mem_cons.mp h
    obtain ⟨n, hn⟩ := Option.isSome_iff_exists.mp hx
    rw [foldlM_cons, add_of_integer a hn]
    exact ih hxs (a + n)

theorem exists_mean {xs} (h : ∀ x ∈ xs, (integer? x).isSome) : ∃ v, mean xs = .ok v := by
  unfold mean
  cases xs with
  | nil => exact ⟨_, rfl⟩
  | cons x xs =>
    obtain ⟨n, hn⟩ := exists_foldlM_add h 0
    refine ⟨.float (quotient n (x :: xs).length), ?_⟩
    rw [sum, hn]
    rfl

end Number

theorem Report.bump_int (test : Bool) (a : Int) :
    bump test (.int a) = .ok (.int (a + if test then 1 else 0)) := by
  cases test with
  | false => simp [bump, pure_eq_ok]
  | true => exact Number.add_int a 1

/-! ## Counters -/

/-- The statistics that count something. The others are means, or are not computed. -/
inductive Counter where
  | files | scripts | launches | paramFiles
  | issues | standardIssues | metricsIssues | otherIssues
  | nodes | nodelets
  | lines | commentLines | cppLines | pythonLines
  deriving DecidableEq

/-- What a counter shows. -/
def Counter.read : Counter → Statistics → Value
  | files => Statistics.files
  | scripts => Statistics.scripts
  | launches => Statistics.launches
  | paramFiles => Statistics.paramFiles
  | issues => Statistics.issues
  | standardIssues => Statistics.standardIssues
  | metricsIssues => Statistics.metricsIssues
  | otherIssues => Statistics.otherIssues
  | nodes => Statistics.nodes
  | nodelets => Statistics.nodelets
  | lines => Statistics.lines
  | commentLines => Statistics.commentLines
  | cppLines => Statistics.cppLines
  | pythonLines => Statistics.pythonLines

abbrev Tally := Counter → Int

def Statistics.Shows (s : Statistics) (t : Tally) : Prop :=
  ∀ c : Counter, c.read s = .int (t c)

namespace Report

/-- Samples of integers, of which all means exist. -/
structure Samples.Whole (k : Samples) : Prop where
  complexities : ∀ x ∈ k.complexities, (Number.integer? x).isSome
  functionLines : ∀ x ∈ k.functionLines, (Number.integer? x).isSome
  fileLines : ∀ x ∈ k.fileLines, (Number.integer? x).isSome

def Shown (sm : Statistics × Samples) (t : Tally) : Prop := sm.1.Shows t ∧ sm.2.Whole

def Counting {σ : Type} (Shows : σ → Tally → Prop) (t : Tally) (f : σ → Result σ) : Prop :=
  ∀ s u, Shows s u → ∃ s', f s = .ok s' ∧ Shows s' fun c => u c + t c

section Counting

variable {σ α : Type} {Shows : σ → Tally → Prop}

theorem Counting.bind {t u f g} (hf : Counting Shows t f) (hg : Counting Shows u g) :
    Counting Shows (fun c => t c + u c) fun s => f s >>= g := by
  intro s w hs
  obtain ⟨s₁, h₁, hs₁⟩ := hf s w hs
  obtain ⟨s₂, h₂, hs₂⟩ := hg s₁ _ hs₁
  refine ⟨s₂, by simp only [h₁, ok_bind, h₂], ?_⟩
  simpa only [Int.add_assoc] using hs₂

theorem Counting.foldlM (Shows : σ → Tally → Prop) {t : α → Tally} {f : σ → α → Result σ}
    {xs : List α} (h : ∀ x ∈ xs, Counting Shows (t x) fun s => f s x) :
    Counting Shows (fun c => (xs.map fun x => t x c).sum) fun s => xs.foldlM f s := by
  induction xs with
  | nil =>
    intro s u hs
    exact ⟨s, rfl, by simpa using hs⟩
  | cons x xs ih =>
    obtain ⟨hx, hxs⟩ := forall_mem_cons.mp h
    simpa only [map_cons, sum_cons, foldlM_cons] using
      hx.bind (ih hxs)

end Counting

/-! ## Violations -/

end Report

def Violation.isTagged (v : Violation) (tag : String) : Bool :=
  (v.rule.tags.has tag).toOption.getD false

def Violation.Sorted (v : Violation) : Prop := (Report.sortIssue v).isOk

instance (v : Violation) : Decidable v.Sorted := inferInstanceAs (Decidable (_ = true))

theorem Violation.Sorted.sortIssue_eq {v} (h : v.Sorted) :
    Report.sortIssue v = .ok (v.isTagged "code-standards", v.isTagged "metrics") := by
  unfold Sorted at h
  unfold Report.sortIssue at h ⊢
  unfold isTagged
  cases hs : v.rule.tags.has "code-standards" with
  | error e => simp [hs, bind, Except.bind, Except.toBool] at h
  | ok a =>
    cases hm : v.rule.tags.has "metrics" with
    | error e => simp [hs, hm, bind, Except.bind, Except.toBool] at h
    | ok b => rfl

/-- A violation is one issue, and one of each sort that its tags say. -/
def Violation.tally (v : Violation) : Tally
  | .issues => 1
  | .standardIssues => if v.isTagged "code-standards" then 1 else 0
  | .metricsIssues => if v.isTagged "metrics" then 1 else 0
  | .otherIssues => if !v.isTagged "code-standards" && !v.isTagged "metrics" then 1 else 0
  | _ => 0

variable {m : Model} {r : Report}

namespace Report

def issueTally (vs : List Violation) : Tally := fun c => (vs.map fun v => v.tally c).sum

@[simp] theorem issueTally_append (vs ws c) :
    issueTally (vs ++ ws) c = issueTally vs c + issueTally ws c := by
  simp [issueTally]

theorem issueTally_flatMap {α : Type} (f : α → List Violation) (xs : List α) (c : Counter) :
    issueTally (xs.flatMap f) c = (xs.map fun x => issueTally (f x) c).sum := by
  induction xs with
  | nil => rfl
  | cons x xs ih => simp [ih]

variable (vs : List Violation)

theorem issueTally_issues : issueTally vs .issues = vs.length := by
  simp [issueTally, Violation.tally]

theorem issueTally_cons (v vs c) : issueTally (v :: vs) c = v.tally c + issueTally vs c :=
  rfl

theorem issueTally_sorted :
    issueTally vs .standardIssues + issueTally vs .metricsIssues + issueTally vs .otherIssues =
      issueTally vs .issues +
        vs.countP fun v => v.isTagged "code-standards" && v.isTagged "metrics" := by
  induction vs with
  | nil => rfl
  | cons v vs ih =>
    have hv : v.tally .standardIssues + v.tally .metricsIssues + v.tally .otherIssues =
        v.tally .issues + if v.isTagged "code-standards" && v.isTagged "metrics" then 1 else 0 := by
      unfold Violation.tally
      cases v.isTagged "code-standards" <;> cases v.isTagged "metrics" <;> rfl
    have hcount :
        ((vs.countP fun v => v.isTagged "code-standards" && v.isTagged "metrics" : Nat) : Int) +
        (if v.isTagged "code-standards" && v.isTagged "metrics" then 1 else 0) =
          (v :: vs).countP fun v => v.isTagged "code-standards" && v.isTagged "metrics" := by
      rw [countP_cons]
      split <;> rfl
    simp only [issueTally_cons]
    omega

def sortedTally (v : Violation) : Tally := fun c => if c = .issues then 0 else v.tally c

theorem issueTally_eq (c : Counter) :
    issueTally vs c =
      (if c = .issues then (vs.length : Int) else 0) + (vs.map fun v => sortedTally v c).sum := by
  by_cases hc : c = .issues
  · simp [hc, sortedTally, issueTally_issues]
  · simp [hc, sortedTally, issueTally]

theorem counting_countIssues {f : Findings} (h : ∀ v ∈ f.violations, v.Sorted) :
    Counting Statistics.Shows (issueTally f.violations) (countIssues f) := by
  intro s u hs
  -- All issues are counted at once, then they are sorted one by one.
  have hissues : Number.add s.issues (.nat f.violations.length) =
      .ok (.int (u .issues + f.violations.length)) := by
    rw [show s.issues = .int (u .issues) from hs .issues]
    exact Number.add_int _ _
  unfold countIssues
  rw [hissues]
  refine (Counting.foldlM Statistics.Shows (t := sortedTally) (fun v hv s u hs => ?_) _
    (fun c => u c + if c = .issues then (f.violations.length : Int) else 0) fun c => ?_).imp
    fun s' h' => ⟨h'.1, ?_⟩
  · have hs₁ : s.standardIssues = .int _ := hs .standardIssues
    have hs₂ : s.metricsIssues = .int _ := hs .metricsIssues
    have hs₃ : s.otherIssues = .int _ := hs .otherIssues
    simp only [(h v hv).sortIssue_eq, hs₁, hs₂, hs₃, bump_int]
    refine ⟨_, rfl, fun c => ?_⟩
    have hc := hs c
    cases c <;> simp_all [Counter.read, sortedTally, Violation.tally]
  · have hc := hs c
    cases c <;> simp_all [Counter.read]
  · simpa only [issueTally_eq, Int.add_assoc] using h'.2

/-! ## Packages and files -/

/-- What a package adds to the counters, but for its violations and its files. -/
def packageTally (m : Model) (p : PackageReport) : Tally
  | .files => (m.package p.package).files.length
  | .nodes => (m.package p.package).nodes.length
  | .nodelets => ((m.package p.package).nodes.filter fun n => (m.node n).nodelet.isSome).length
  | _ => 0

theorem counting_countPackage {p} (h : ∀ v ∈ (r.findingsAt p.findings).violations, v.Sorted) :
    Counting Statistics.Shows
      (fun c => packageTally m p c + issueTally (r.findingsAt p.findings).violations c)
      fun s => countPackage m r s p := by
  intro s u hs
  have hfiles : s.files = .int _ := hs .files
  unfold countPackage
  simp only [hfiles, Value.nat]
  obtain ⟨s₁, h₁, hs₁⟩ := counting_countIssues h
    { s with files := .int (u .files + (m.package p.package).files.length) }
    (fun c => u c + if c = .files then ((m.package p.package).files.length : Int) else 0) (by
      intro c
      have hc := hs c
      cases c <;> simp_all [Counter.read])
  have hnodes : s₁.nodes = .int _ := hs₁ .nodes
  have hnodelets : s₁.nodelets = .int _ := hs₁ .nodelets
  simp only [h₁, ok_bind, hnodes, hnodelets, Number.add_int]
  refine ⟨_, rfl, fun c => ?_⟩
  have hc := hs₁ c
  cases c <;> simp_all [Counter.read, packageTally, Int.add_assoc] <;> omega

def commentLines (x : Measurement) : Int :=
  if x.metric.id == "comments" then (Number.integer? x.value).getD 0 else 0

def isMeasured (x : SourceFile) : Bool := x.language == "cpp" || x.language == "python"

def fileTally (x : SourceFile) (measured : List Measurement) : Tally
  | .lines => x.lines
  | .scripts => if Text.startsWith "scripts/".toList x.fullName.toList then 1 else 0
  | .cppLines => if x.language == "cpp" then x.lines else 0
  | .pythonLines => if x.language == "python" then x.lines else 0
  | .launches => if x.language == "launch" then 1 else 0
  | .paramFiles => if x.language == "yaml" then 1 else 0
  | .commentLines => if isMeasured x then (measured.map commentLines).sum else 0
  | _ => 0

def measuredTally (measured : List Measurement) : Tally := fun c =>
  (measured.map fun y => if c = .commentLines then commentLines y else 0).sum

theorem fileTally_eq (x measured c) :
    fileTally x measured c =
      fileTally x [] c + if isMeasured x then measuredTally measured c else 0 := by
  by_cases hc : c = .commentLines
  · subst hc
    simp [fileTally, measuredTally]
  · have hsame : fileTally x measured c = fileTally x [] c := by
      cases c <;> first | rfl | exact absurd rfl hc
    simp [hsame, measuredTally, hc]

/-- A measurement that statistics can take in : an integer, and at a place in the source if it
counts the lines of a function. -/
structure Measurable (x : Measurement) : Prop where
  integer : (Number.integer? x.value).isSome
  located : lineMetrics.contains x.metric.id →
    ∃ package file line function column,
      x.location = some (.source package file line function column)

theorem counting_takeMeasurement {x} (h : Measurable x) :
    Counting Shown (fun c => if c = .commentLines then commentLines x else 0)
      fun sm => takeMeasurement sm x := by
  rintro ⟨s, k⟩ u ⟨hs, hk⟩
  obtain ⟨n, hn⟩ := Option.isSome_iff_exists.mp h.integer
  unfold takeMeasurement
  by_cases hcomments : x.metric.id == "comments"
  · have hlines : s.commentLines = .int _ := hs .commentLines
    simp only [hcomments, hlines, Number.add_of_integer _ hn]
    refine ⟨_, rfl, fun c => ?_, hk⟩
    have hc := hs c
    cases c <;> simp_all [Counter.read, commentLines]
  · have hshows : s.Shows fun c => u c + if c = .commentLines then commentLines x else 0 := by
      simpa [commentLines, hcomments] using hs
    have hmore {xs : List Value} (hxs : ∀ y ∈ xs, (Number.integer? y).isSome) :
        ∀ y ∈ xs ++ [x.value], (Number.integer? y).isSome :=
      forall_mem_append.mpr ⟨hxs, forall_mem_singleton.mpr h.integer⟩
    simp only [hcomments]
    by_cases hcomplexity : x.metric.id == "cyclomatic_complexity"
    · simp only [hcomplexity]
      exact ⟨_, rfl, hshows, { hk with complexities := hmore hk.complexities }⟩
    by_cases hlines : lineMetrics.contains x.metric.id
    · obtain ⟨package, file, line, function, className, hl⟩ := h.located hlines
      simp only [hcomplexity, hlines, hl]
      cases function with
      | none => exact ⟨_, rfl, hshows, hk⟩
      | some f => exact ⟨_, rfl, hshows, { hk with functionLines := hmore hk.functionLines }⟩
    · simp only [hcomplexity, hlines]
      exact ⟨_, rfl, hshows, hk⟩

theorem countFindings {x : SourceFile} {found : Findings}
    (hsorted : ∀ v ∈ found.violations, v.Sorted)
    (hmeasurable : isMeasured x → ∀ y ∈ found.metrics, Measurable y) {s : Statistics} {k : Samples}
    {u : Tally} (hs : s.Shows u) (hk : k.Whole) :
    ∃ sm, (countIssues found s >>= fun s =>
        if x.language == "cpp" || x.language == "python" then
          found.metrics.foldlM takeMeasurement (s, k)
        else pure (s, k)) = .ok sm ∧
      Shown sm fun c => u c + issueTally found.violations c +
        if isMeasured x then measuredTally found.metrics c else 0 := by
  obtain ⟨s₁, h₁, hs₁⟩ := counting_countIssues hsorted s u hs
  rw [h₁]
  by_cases hx : isMeasured x
  · obtain ⟨sm, h₂, hs₂⟩ := Counting.foldlM Shown
      (fun y hy => counting_takeMeasurement (hmeasurable hx y hy)) (s₁, k) _ ⟨hs₁, hk⟩
    refine ⟨sm, (if_pos hx).trans h₂, ?_⟩
    simpa only [hx, if_true, measuredTally] using hs₂
  · refine ⟨(s₁, k), if_neg hx, ?_, hk⟩
    simpa [hx] using hs₁

theorem counting_countFile {f found} (hsorted : ∀ v ∈ found.violations, v.Sorted)
    (hmeasurable : isMeasured (m.file f) → ∀ y ∈ found.metrics, Measurable y) :
    Counting Shown (fun c => fileTally (m.file f) found.metrics c + issueTally found.violations c)
      fun sm => countFile m sm f found := by
  rintro ⟨s, k⟩ u ⟨hs, hk⟩
  have hlines : s.lines = .int _ := hs .lines
  have hscripts : s.scripts = .int _ := hs .scripts
  have hcpp : s.cppLines = .int _ := hs .cppLines
  have hpython : s.pythonLines = .int _ := hs .pythonLines
  have hlaunches : s.launches = .int _ := hs .launches
  have hparams : s.paramFiles = .int _ := hs .paramFiles
  have hite (b : Bool) (n : Int) :
      (if b then Value.int n else .int 0) = .int (if b then n else 0) := by
    split <;> rfl
  unfold countFile
  simp only [hlines, hscripts, hcpp, hpython, hlaunches, hparams, hite, bump_int]
  refine (countFindings hsorted hmeasurable (u := fun c => u c + fileTally (m.file f) [] c)
    (fun c => ?_) ⟨?_, ?_, ?_⟩).imp fun sm hsm => ⟨hsm.1, ?_⟩
  · have hc := hs c
    cases c <;> first | rfl | simpa [Counter.read, fileTally] using hc
  · exact hk.complexities
  · exact hk.functionLines
  · exact forall_mem_append.mpr ⟨hk.fileLines, forall_mem_singleton.mpr rfl⟩
  · convert hsm.2 using 2 with c
    rw [fileTally_eq]
    omega

/-! ## Statistics of packages -/

/-- The findings of a package and of its files are such that statistics can take them in. -/
structure Countable (m : Model) (r : Report) (p : PackageReport) : Prop where
  sorted : ∀ v ∈ r.allViolations p, v.Sorted
  measurable : ∀ e ∈ p.files, isMeasured (m.file e.1) →
    ∀ y ∈ (r.findingsAt e.2).metrics, Measurable y

def tally (m : Model) (r : Report) (p : PackageReport) : Tally := fun c =>
  packageTally m p c + (p.files.map fun e =>
    fileTally (m.file e.1) (r.findingsAt e.2).metrics c).sum + issueTally (r.allViolations p) c

theorem sum_tally (m : Model) (r : Report) (ps : List PackageReport) (c) :
    (ps.map fun p => packageTally m p c + issueTally (r.findingsAt p.findings).violations c).sum +
      ((ps.flatMap PackageReport.files).map fun e =>
        fileTally (m.file e.1) (r.findingsAt e.2).metrics c +
          issueTally (r.findingsAt e.2).violations c).sum =
      (ps.map fun p => tally m r p c).sum := by
  have hfiles (p : PackageReport) : issueTally ((r.fileFindings p).flatMap Findings.violations) c =
      (p.files.map fun e => issueTally (r.findingsAt e.2).violations c).sum := by
    rw [issueTally_flatMap, fileFindings, map_map]
    rfl
  induction ps with
  | nil => rfl
  | cons p ps ih =>
    simp only [map_cons, sum_cons, flatMap_cons, map_append, sum_append,
      tally, allViolations, issueTally_append, hfiles, sum_map_add] at ih ⊢
    omega

theorem statisticsOf_tally {ps : List PackageReport} (h : ∀ p ∈ ps, r.Countable m p) :
    ∃ s, statisticsOf m r ps = .ok s ∧ s.Shows fun c => (ps.map fun p => tally m r p c).sum := by
  have hpackages : ∀ p ∈ ps, ∀ v ∈ (r.findingsAt p.findings).violations, v.Sorted :=
    fun p hp v hv => (h p hp).sorted v (mem_append_left _ hv)
  have hfiles : ∀ e ∈ ps.flatMap PackageReport.files,
      (∀ v ∈ (r.findingsAt e.2).violations, v.Sorted) ∧
        (isMeasured (m.file e.1) → ∀ y ∈ (r.findingsAt e.2).metrics, Measurable y) := by
    intro e he
    obtain ⟨p, hp, he⟩ := mem_flatMap.mp he
    refine ⟨fun v hv => (h p hp).sorted v (mem_append_right _ ?_), (h p hp).measurable e he⟩
    exact mem_flatMap.mpr ⟨r.findingsAt e.2, mem_map.mpr ⟨e, he, rfl⟩, hv⟩
  obtain ⟨s₁, h₁, hs₁⟩ := Counting.foldlM Statistics.Shows
    (fun p hp => counting_countPackage (m := m) (hpackages p hp)) ({} : Statistics) (fun _ => 0)
    (fun c => by cases c <;> rfl)
  obtain ⟨⟨s₂, k⟩, h₂, hs₂, hk⟩ := Counting.foldlM Shown
    (fun e he => counting_countFile (hfiles e he).1 (hfiles e he).2) (s₁, ({} : Samples)) _
    ⟨hs₁, forall_mem_nil _, forall_mem_nil _, forall_mem_nil _⟩
  obtain ⟨complexity, hcomplexity⟩ := Number.exists_mean hk.complexities
  obtain ⟨functionLength, hfunction⟩ := Number.exists_mean hk.functionLines
  obtain ⟨fileLength, hfile⟩ := Number.exists_mean hk.fileLines
  refine ⟨{ s₂ with complexity, functionLength, fileLength }, ?_, fun c => ?_⟩
  · refine bind_eq_ok.mpr ⟨s₁, h₁, bind_eq_ok.mpr ⟨(s₂, k), h₂, ?_⟩⟩
    simp only [hcomplexity, hfunction, hfile]
    rfl
  · have hread : c.read { s₂ with complexity, functionLength, fileLength } = c.read s₂ := by
      cases c <;> rfl
    rw [hread, hs₂ c]
    simp only [Int.zero_add, sum_tally]

/-! ## The project -/

def graded (r : Report) (total : Statistics) (grade : PackageReport → Statistics) : Report :=
  { r with statistics := some total
           packages := r.packages.map fun p => { p with statistics := some (grade p) } }

variable {grade : PackageReport → Statistics}

theorem exec_summarisePackages {m r} :
    ∀ before after, ((before ++ after).map Prod.fst).Nodup →
      (∀ e ∈ after, statisticsOf m r [e.2] = .ok (grade e.2)) →
      (summarisePackages m after).exec { r with packages := ⟨before ++ after⟩ } =
        (.ok (), { r with packages := ⟨before ++ after.map fun e =>
          (e.1, { e.2 with statistics := some (grade e.2) })⟩ })
  | before, [], _, _ => by simp [summarisePackages]
  | before, (id, p) :: after, hkeys, hgrade => by
    obtain ⟨hp, hafter⟩ := forall_mem_cons.mp hgrade
    have hid : id ∉ before.map Prod.fst := by
      rw [map_append, nodup_append] at hkeys
      exact fun hmem => hkeys.2.2 _ hmem _ mem_cons_self rfl
    have hput (q q' : PackageReport) :
        Table.put ⟨before ++ (id, q) :: after⟩ id q' = ⟨before ++ (id, q') :: after⟩ :=
      congrArg Table.mk (Table.putEntry_append q' q after hid)
    have hp' : statisticsOf m
        { r with packages := ⟨before ++ (id, { p with statistics := none }) :: after⟩ }
        [p] = .ok (grade p) := hp
    have hrest :=
      exec_summarisePackages (before ++ [(id, { p with statistics := some (grade p) })]) after
      (by simpa using hkeys) hafter
    rw [summarisePackages, Job.exec_bind_of_ok (Job.exec_modify _ _),
      Job.exec_bind_of_ok (Job.exec_get _)]
    simp only [hput]
    rw [hp', Job.exec_bind_of_ok (Job.exec_ofResult _ _), Job.exec_bind_of_ok (Job.exec_modify _ _)]
    simp only [hput]
    simpa using hrest

theorem exec_summarise (hkeys : r.packages.keys.Nodup) {total}
    (htotal : statisticsOf m r r.packages.values = .ok total)
    (hgrade : ∀ p ∈ r.packages.values, statisticsOf m r [p] = .ok (grade p)) :
    (summarise m).exec r = (.ok (), r.graded total grade) := by
  rw [summarise, Job.exec_bind_of_ok (Job.exec_get _), htotal,
    Job.exec_bind_of_ok (Job.exec_ofResult _ _), Job.exec_bind_of_ok (Job.exec_set _ _)]
  refine exec_summarisePackages (r := { r with statistics := some total }) [] _ hkeys fun e he => ?_
  exact hgrade e.2 (mem_map.mpr ⟨e, he, rfl⟩)

/-! ## Exports -/

theorem foldl_counts (t : Table String Nat) (ht : t.keys.Nodup) :
    let counts := vs.foldl (fun t v => t.put v.rule.id (t.getD v.rule.id 0 + 1)) t
    counts.keys.Nodup ∧ counts.values.sum = t.values.sum + vs.length ∧
      ∀ id, counts.getD id 0 = t.getD id 0 + vs.countP fun v => v.rule.id == id := by
  induction vs generalizing t with
  | nil => simpa using ht
  | cons v vs ih =>
    obtain ⟨hkeys, hsum, hcounts⟩ :=
      ih _ (Table.nodup_keys_put ht v.rule.id (t.getD v.rule.id 0 + 1))
    refine ⟨hkeys, ?_, fun id => ?_⟩
    · rw [foldl_cons, hsum, Table.sum_values_put, length_cons]
      omega
    · rw [foldl_cons, hcounts]
      by_cases hid : v.rule.id = id
      · subst hid
        simp [Table.getD]
        omega
      · rw [Table.getD, Table.get?_put_of_ne _ _ (Ne.symm hid), ← Table.getD]
        simp [hid]

theorem violationCounts_eq :
    ∃ es, violationCounts vs = .record es ∧ Number.sum (es.map Prod.snd) = .ok (.nat vs.length) ∧
      ∀ e ∈ es, ∃ id, e = (.text id, .nat (vs.countP fun v => v.rule.id == id)) := by
  obtain ⟨hkeys, hsum, hcounts⟩ := foldl_counts vs Table.empty nodup_nil
  unfold violationCounts Value.ofTable Value.object
  generalize vs.foldl _ Table.empty = counts at hkeys hsum hcounts ⊢
  refine ⟨_, rfl, ?_, fun e he => ?_⟩
  · rw [map_map, map_map]
    refine (Number.sum_map_int (fun e => ((e.2 : Nat) : Int)) counts.entries).trans ?_
    have hlength : counts.values.sum = vs.length := hsum.trans (Nat.zero_add _)
    rw [Value.nat, ← hlength, Table.values, Nat.cast_list_sum, map_map]
    rfl
  · simp only [mem_map, exists_exists_and_eq_and] at he
    obtain ⟨⟨id, n⟩, hmem, rfl⟩ := he
    have hn : counts.getD id 0 = n := by
      rw [Table.getD, (Table.get?_eq_some_iff hkeys).mpr hmem, Option.getD_some]
    rw [← hn, hcounts]
    simp [Table.getD, Table.get?, Table.empty]

/-! ## The counts agree -/

/-- What the statistics of the package in a place of a report count as issues is what the package
has, and what is exported with it. -/
structure CountsIssues (m : Model) (r : Report) (i : Nat) (p : PackageReport) (s : Statistics) :
    Prop where
  issues : s.issues = .nat (r.allViolations p).length
  /-- An issue with both tags that sort issues counts twice. -/
  sorts : Number.sum [s.standardIssues, s.metricsIssues, s.otherIssues] =
    .ok (.nat ((r.allViolations p).length + (r.allViolations p).countP fun v =>
      v.isTagged "code-standards" && v.isTagged "metrics"))
  rules : ∃ (vs : List Value) (v : Value) (counts : List (Value × Value)),
    Export.packages m r = [("packages.json", .ok (.list vs))] ∧ vs[i]? = some v ∧
      (v.field "analysis").field? "violations" = some (.record counts) ∧
      Number.sum (counts.map Prod.snd) = .ok s.issues ∧
      ∀ e ∈ counts, ∃ id, e = (.text id, .nat ((r.allViolations p).countP fun v => v.rule.id == id))
  /-- The exported violations. -/
  source : ∃ vs, (Export.source m r)[i]? =
      some ((m.package p.package).name ++ ".json", .ok (.list vs)) ∧ s.issues = .nat vs.length

theorem countsIssues {i p s} (hp : r.packages.values[i]? = some p) (hs : s.Shows (tally m r p)) :
    CountsIssues m r i p s := by
  have hshows (c : Counter) (hc : packageTally m p c = 0)
      (hfile : ∀ x measured, fileTally x measured c = 0) :
      c.read s = .int (issueTally (r.allViolations p) c) := by
    rw [hs c]
    simp [tally, hc, hfile]
  have hissues : s.issues = .nat (r.allViolations p).length :=
    (hshows .issues rfl fun _ _ => rfl).trans (congrArg Value.int (issueTally_issues _))
  have hstandard : s.standardIssues = .int _ := hshows .standardIssues rfl fun _ _ => rfl
  have hmetrics : s.metricsIssues = .int _ := hshows .metricsIssues rfl fun _ _ => rfl
  have hother : s.otherIssues = .int _ := hshows .otherIssues rfl fun _ _ => rfl
  refine ⟨hissues, ?_, ?_, ?_⟩
  · rw [hstandard, hmetrics, hother]
    refine (Number.sum_map_int (issueTally (r.allViolations p))
      [.standardIssues, .metricsIssues, .otherIssues]).trans ?_
    have hsorted := issueTally_sorted (r.allViolations p)
    rw [issueTally_issues] at hsorted
    simp only [map_cons, map_nil, sum_cons, sum_nil]
    rw [Int.add_zero, ← Int.add_assoc, hsorted]
    rfl
  · obtain ⟨counts, hcounts, hsum, hrules⟩ := violationCounts_eq (r.allViolations p)
    refine ⟨_, Export.packageValue m r p, counts, rfl, ?_, ?_, ?_, hrules⟩
    · rw [List.getElem?_map, hp, Option.map_some]
    · exact congrArg some hcounts
    · rw [hsum, hissues]
  · refine ⟨(r.allViolations p).map (violationValue m), ?_, ?_⟩
    · rw [Export.source, List.getElem?_map, hp]
      rfl
    · rw [hissues, length_map]

/-- The statistics of a project are computed, each counter shows the sum of what it shows for the
packages, and the issues of a package are counted alike by its statistics and by the exports. -/
theorem summarise_counts (m : Model) (r : Report) (hkeys : r.packages.keys.Nodup)
    (hcount : ∀ p ∈ r.packages.values, r.Countable m p) :
    ∃ total grade, (summarise m).exec r = (.ok (), r.graded total grade) ∧
      (∀ c : Counter, Number.sum (r.packages.values.map fun p => c.read (grade p)) =
        .ok (c.read total)) ∧
      ∀ i p, (r.graded total grade).packages.values[i]? = some p →
        ∃ s, p.statistics = some s ∧ CountsIssues m (r.graded total grade) i p s := by
  obtain ⟨total, htotal, hshows⟩ := statisticsOf_tally hcount
  have hone : ∀ p : PackageReport, ∃ s, p ∈ r.packages.values →
      statisticsOf m r [p] = .ok s ∧ s.Shows (tally m r p) := by
    intro p
    by_cases hp : p ∈ r.packages.values
    · obtain ⟨s, h, hs⟩ := statisticsOf_tally (forall_mem_singleton.mpr (hcount p hp))
      exact ⟨s, fun _ => ⟨h, by simpa using hs⟩⟩
    · exact ⟨{}, fun h => absurd h hp⟩
  choose grade hgrade using hone
  refine ⟨total, grade, exec_summarise hkeys htotal fun p hp =>
    (hgrade p hp).1, fun c => ?_, fun i p hp => ?_⟩
  · rw [hshows c, ← Number.sum_map_int]
    exact congrArg _ (map_congr_left fun p hp => (hgrade p hp).2 c)
  · have hvalues : (r.graded total grade).packages.values =
        r.packages.values.map fun p => { p with statistics := some (grade p) } := by
      simp [graded, Table.map, Table.values]
    rw [hvalues, List.getElem?_map, Option.map_eq_some_iff] at hp
    obtain ⟨q, hq, rfl⟩ := hp
    refine ⟨grade q, rfl, countsIssues ?_ (hgrade q (mem_of_getElem? hq)).2⟩
    rw [hvalues, List.getElem?_map, hq, Option.map_some]

/-! ## A project with two packages -/

/-- A package with a source file and a package without files. -/
def quarry : Model :=
  { projects := #[{ name := "quarry", packages := [⟨0⟩, ⟨1⟩] }]
    packages := #[{ name := "drill", files := [⟨0⟩] }, { name := "belt" }]
    files := #[{ name := "bit.cpp", directory := "src", package := ⟨0⟩, packageName := "drill"
                 fullName := "src/bit.cpp", folder := "/drill/src", path := "/drill/src/bit.cpp"
                 language := "cpp", lines := 40 }] }

def quarryRule (id : String) (tags : List String) : Rule :=
  { id, name := .null, scope := .null, description := .null, tags := .texts tags }

def quarryMetric (id : String) : Metric :=
  { id, name := .null, scope := .null, description := .null }

/-- The file breaks a rule that has both tags, and two lines of it are comments. The other package
breaks a rule without tags. -/
def quarryReport : Report :=
  (((make quarry ⟨0⟩ "").addViolation 1
    { rule := quarryRule "long" ["code-standards", "metrics"] }).addMeasurement
    1 { metric := quarryMetric "comments", value := .int 2 }).addViolation
    2 { rule := quarryRule "worn" [] }

theorem summarise_counts_quarry :
    quarryReport.packages.keys.Nodup ∧
      (∀ p ∈ quarryReport.packages.values, quarryReport.Countable quarry p) ∧
      ∃ total grade, (summarise quarry).exec quarryReport =
        (.ok (), quarryReport.graded total grade) ∧
        (∀ c : Counter, Number.sum (quarryReport.packages.values.map fun p => c.read (grade p)) =
          .ok (c.read total)) ∧
        ∀ i < 2, ∃ p s, (quarryReport.graded total grade).packages.values[i]? = some p ∧
          p.statistics = some s ∧ CountsIssues quarry (quarryReport.graded total grade) i p s := by
  have hkeys : quarryReport.packages.keys.Nodup := by decide +kernel
  have hsorted :
      ∀ p ∈ quarryReport.packages.values, ∀ v ∈ quarryReport.allViolations p, v.Sorted := by
    decide +kernel
  have hmetrics : ∀ p ∈ quarryReport.packages.values, ∀ e ∈ p.files,
      ∀ y ∈ (quarryReport.findingsAt e.2).metrics,
        (Number.integer? y.value).isSome ∧ y.metric.id ∉ lineMetrics := by
    decide +kernel
  have hcount : ∀ p ∈ quarryReport.packages.values, quarryReport.Countable quarry p := by
    refine fun p hp => ⟨hsorted p hp, fun e he _ y hy => ?_⟩
    obtain ⟨hinteger, hline⟩ := hmetrics p hp e he y hy
    exact ⟨hinteger, fun h => absurd (contains_iff_mem.mp h) hline⟩
  obtain ⟨total, grade, hrun, hsum, hissues⟩ := summarise_counts quarry quarryReport hkeys hcount
  refine ⟨hkeys, hcount, total, grade, hrun, hsum, fun i hi => ?_⟩
  have hlength : (quarryReport.graded total grade).packages.values.length = 2 := rfl
  have hp := getElem?_eq_getElem (hlength ▸ hi)
  obtain ⟨s, hs, hcounts⟩ := hissues i _ hp
  exact ⟨_, s, hp, hs, hcounts⟩

end Report

end RosAudit
