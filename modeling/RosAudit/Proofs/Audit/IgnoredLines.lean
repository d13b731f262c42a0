import RosAudit.Proofs.Audit.Filing
import RosAudit.Proofs.Extract.IgnoredLines
import RosAudit.Proofs.Model.AbsoluteNames

/-!
# Reports on lines that are ignored

The lines to ignore are collected while the files of a package are listed, and a report on such a
line is dropped : nothing is filed, and nothing fails. Of every other report that is filed which
there is to file where no line is ignored (`Interface.unmuted`).

`ignored_lines_exact` says which reports are dropped. A report on a listed file is dropped exactly
if its line, or the line before it, asks for it. A report without a line is never dropped, and
neither is one on anything but a listed file, since nothing else has the identifier of one
(`id_ne_of_apart`).
-/

namespace RosAudit

open Job Text List

/-- The call is about an object, at a spot. -/
inductive ReportCall.About (s : Interface) (e : Entity) (at_ : Interface.Spot) : ReportCall → Prop
  | violation {id : String} {details : Value} {scope : Option Item} (h : s.subject scope = .ok e) :
      About s e at_ (.violation id details scope at_)
  | metric {id : String} {value : Value} {scope : Option Item} (h : s.subject scope = .ok e) :
      About s e at_ (.metric id value scope at_)

variable {s : Interface}

theorem ReportCall.About.unique {e e' at_ at_'} {c : ReportCall} (h : c.About s e at_)
    (h' : c.About s e' at_') : e = e' ∧ at_ = at_' := by
  cases h with
  | violation he =>
    cases h' with
    | violation he' => exact ⟨Except.ok.inj (he.symm.trans he'), rfl⟩
  | metric he =>
    cases h' with
    | metric he' => exact ⟨Except.ok.inj (he.symm.trans he'), rfl⟩

variable {id : String}

namespace Interface

/-! ## Dropped reports -/

/-- The same interface, but with no lines to ignore. -/
def unmuted (s : Interface) : Interface := { s with ignoredLines := Table.empty }

theorem placing_of_ignoresLine {given at_ e} (he : s.subject given = .ok e)
    (hid : s.model.id? e = some id) (h : s.ignoresLine id at_.line = true) :
    s.placing given at_ = .ok none := by
  unfold placing scopeId
  rw [he, ok_bind, hid]
  dsimp only
  rw [pure_eq_ok, ok_bind, if_pos h]
  rfl

theorem exec_run_of_ignoresLine {c : ReportCall} {e} {at_ : Spot} (hc : c.About s e at_)
    (hid : s.model.id? e = some id) (h : s.ignoresLine id at_.line = true) :
    c.run.exec s = (.ok (), s) := by
  rw [c.exec_run]
  cases hc with
  | violation he | metric he =>
    rw [filing, placing_of_ignoresLine he hid h]
    rfl

theorem placing_unmuted {given at_}
    (h : ∀ e id, s.subject given = .ok e → s.model.id? e = some id →
      s.ignoresLine id at_.line = false) :
    s.unmuted.placing given at_ = s.placing given at_ := by
  have hsubject : s.unmuted.subject given = s.subject given := rfl
  have hmodel : s.unmuted.model = s.model := rfl
  unfold placing
  rw [hsubject, hmodel]
  cases he : s.subject given with
  | error f => rfl
  | ok e =>
    rw [ok_bind, ok_bind]
    unfold scopeId
    cases hid : s.model.id? e with
    | none => rfl
    | some id =>
      dsimp only
      rw [pure_eq_ok, ok_bind, ok_bind, h e id he hid]
      rfl

theorem exec_run_unmuted {c}
    (h : ∀ e at_ id, c.About s e at_ → s.model.id? e = some id →
      s.ignoresLine id at_.line = false) :
    c.run.exec s = s.filed (s.unmuted.filing c) := by
  rw [c.exec_run]
  cases c with
  | violation id details scope at_ =>
    rw [filing, filing, placing_unmuted fun e id he => h e at_ id (.violation he)]
    rfl
  | runtime id details resources => rfl
  | metric id value scope at_ =>
    rw [filing, filing, placing_unmuted fun e id he => h e at_ id (.metric he)]
    rfl

/-! ## What is ignored -/

theorem ignoresLine_iff {ig : IgnoredLines}
    (hs : s.ignoredLines = ig.map fun t => (t.getD "*" []).map fun n => some (Int.ofNat n)) {line} :
    s.ignoresLine id line = true ↔ ∃ j ∈ ig.under id, line = some (j : Int) := by
  have hmap : s.ignoredLines.getD id [] = (ig.under id).map fun n => some (Int.ofNat n) := by
    rw [hs, Table.getD, Table.get?_map, IgnoredLines.under]
    cases ig.get? id <;> rfl
  rw [ignoresLine, hmap, contains_iff_mem, mem_map]
  exact exists_congr fun j => and_congr_right fun _ => eq_comm

/-- An object that has nothing in common with some files : it is equal to none of them, and if it is
a resource of a configuration, its name begins at the root. -/
structure Apart (m : Model) (fs : List (Ref .file)) (e : Entity) : Prop where
  differs : ∀ f ∈ fs, m.equal e f.entity = false
  absolute : (m.configurationOf? e).isSome → ∀ id, m.id? e = some id → IsAbsolute id

theorem id_ne_of_apart {m fs e} (he : Apart m fs e) {f} (hf : f ∈ fs) (hid : m.id? e = some id) :
    id ≠ (m.file f).id := by
  rintro rfl
  have hdiffers := he.differs f hf
  have hfile : (m.file f).id.toList.head? = some 'f' := by simp [SourceFile.id]
  obtain ⟨kind, i⟩ := e
  -- Identifiers of source objects have different leads, and names of resources have none.
  cases kind with
  | file =>
    have hequal : m.equal ⟨.file, i⟩ f.entity = (m.id? ⟨.file, i⟩ == some (m.file f).id) := rfl
    rw [hequal, hid, beq_self_eq_true] at hdiffers
    cases hdiffers
  | link | guards => cases hid
  | inst | topic | service | param =>
    have habsolute := he.absolute rfl _ hid
    rw [IsAbsolute, hfile] at habsolute
    cases habsolute
  | project | repository | package | node | configuration =>
    rw [← Option.some.inj hid] at hfile
    simp [Project.id, Repository.id, Package.id, Node.id] at hfile

/-- Reports on lines that ask to be ignored are dropped, and no others : what there is to file of
them is filed. -/
theorem ignored_lines_exact {t : FileTree} {pkg : Ref .package} {others : List (Ref .package)}
    {origin : Origin} {m m' : Model} {ig : IgnoredLines}
    (hlist : (Model.listSources t pkg others origin).exec (m, Table.empty) = (.ok true, (m', ig)))
    {s : Interface} (hmodel : ∀ f ∈ (m'.package pkg).files, s.model.file f = m'.file f)
    (hlines : s.ignoredLines = ig.map fun t => (t.getD "*" []).map fun n => some (Int.ofNat n)) :
    ∃ added, (m'.package pkg).files = (m.package pkg).files ++ added ∧
      (∀ f ∈ added, ∃ stored ls, t.stored (m'.file f).path = .ok stored ∧
        ls = keptLines (unixLines stored) ∧ IsLines (unixLines stored) ls ∧
        (m'.file f).lines = ls.length ∧
        (m'.file f).sloc = (ls.countP fun l => !l.toList.all isBlank) ∧
        ∀ c at_ n, ReportCall.About s f.entity at_ c → at_.line = some n →
          ((∃ k, ignoreMarks? (m'.file f).language = some k ∧ k.Covers ls n) →
            c.run.exec s = (.ok (), s)) ∧
          (¬ (∃ k, ignoreMarks? (m'.file f).language = some k ∧ k.Covers ls n) →
            c.run.exec s = s.filed (s.unmuted.filing c))) ∧
      ∀ c, (∀ e at_, ReportCall.About s e at_ c → at_.line = none ∨ Apart s.model added e) →
        c.run.exec s = s.filed (s.unmuted.filing c) := by
  obtain ⟨top, added, hlisted⟩ := Model.listed_of_listSources hlist
  have hfile (f : Ref .file) (hf : f ∈ added) : s.model.file f = m'.file f :=
    hmodel f (hlisted.files ▸ mem_append_right _ hf)
  refine ⟨added, hlisted.files, fun f hf => ?_, fun c hc =>
    exec_run_unmuted fun e at_ id he hid => ?_⟩
  · obtain ⟨text, hread, hcount, hsloc, hunder⟩ := hlisted.counted f hf
    obtain ⟨stored, hstored, htext⟩ := bind_eq_ok.mp hread
    cases htext
    have hid : s.model.id? f.entity = some (m'.file f).id := by
      rw [← hfile f hf]
      rfl
    -- The file ignores the lines that its marks cover.
    have hcovers (n : Int) : s.ignoresLine (m'.file f).id (some n) = true ↔
        ∃ k, ignoreMarks? (m'.file f).language = some k ∧
          k.Covers (keptLines (unixLines stored)) n := by
      rw [ignoresLine_iff hlines, hunder]
      constructor
      · rintro ⟨j, hj, hn⟩
        obtain ⟨k, hk, hcover⟩ := mem_countLines.mp hj
        cases hn
        exact ⟨k, hk, hcover⟩
      · rintro ⟨k, hk, hn⟩
        obtain ⟨j, rfl⟩ := hn.exists_nat
        exact ⟨j, mem_countLines.mpr ⟨k, hk, hn⟩, rfl⟩
    refine ⟨stored, _, hstored, rfl, isLines_keptLines _, hcount, hsloc, fun c at_ n hc hn =>
      ⟨fun h => ?_, fun h => ?_⟩⟩
    · refine exec_run_of_ignoresLine hc hid ?_
      rw [hn]
      exact (hcovers n).mpr h
    · refine exec_run_unmuted fun e at_' id he hid' => ?_
      obtain ⟨rfl, rfl⟩ := hc.unique he
      rw [← Option.some.inj (hid.symm.trans hid'), hn, Bool.eq_false_iff]
      exact fun hignored => h ((hcovers n).mp hignored)
  · rw [Bool.eq_false_iff, ne_eq, ignoresLine_iff hlines]
    rintro ⟨j, hj, hline⟩
    rcases hc e at_ he with hnone | hapart
    · rw [hnone] at hline
      cases hline
    · obtain ⟨f, hf, hfid⟩ := hlisted.owned id (ne_nil_of_mem hj)
      rw [← hfid, ← hfile f hf] at hid
      exact id_ne_of_apart hapart hf hid rfl

/-! ## A package with one source file -/

/-- The first line asks to be ignored, and the third that the fourth is. -/
def latheText : String := "x = 1  # haros:ignore-line\n\n# haros:ignore-next-line\ny = 2\n"

def latheTree : FileTree :=
  { entries := ⟨[("/", .folder), ("/lathe", .folder), ("/lathe/spin.py", .file latheText 0)]⟩ }

def latheListed : Result Bool × Model × IgnoredLines :=
  (Model.listSources latheTree ⟨0⟩ [⟨0⟩] {}).exec
    ({ packages := #[{ name := "lathe", path := some "/lathe" }] }, Table.empty)

/-- A rule that may be reported. -/
def latheRule : Rule :=
  { id := "style", name := .null, scope := .null, description := .null, tags := .null }

def latheAudit : Interface :=
  { model := latheListed.2.1, files := latheTree
    registry := { rules := ⟨[("style", latheRule)]⟩ }, allowedRules := ["style"]
    report := { project := ⟨0⟩, timestamp := "", store := #[{ scope := some ⟨.file, 0⟩ }]
                index := ⟨[("file:lathe//spin.py", 0)]⟩ }
    ignoredLines := latheListed.2.2.map fun t => (t.getD "*" []).map fun n => some (Int.ofNat n) }

/-- A violation of the rule on a line of the file. -/
def latheViolation (details : Value) (line : Int) : Violation :=
  { rule := latheRule, details, affected := [.entity ⟨.file, 0⟩]
    location := some (.source (latheListed.2.1.file ⟨0⟩).package (some ⟨0⟩) (some line) none none) }

/-- A report on the fourth line is dropped, one on the second is filed. -/
theorem ignored_lines_exact_lathe :
    latheListed.1 = .ok true ∧ (latheListed.2.1.package ⟨0⟩).files = [⟨0⟩] ∧ ∀ details,
      (reportViolation "style" details (some (.entity ⟨.file, 0⟩)) { line := some 4 }).exec
        latheAudit = (.ok (), latheAudit) ∧
      (reportViolation "style" details (some (.entity ⟨.file, 0⟩)) { line := some 2 }).exec
        latheAudit = (.ok (), latheAudit.file (.violation 0 (latheViolation details 2))) := by
  have hlist : latheListed.1 = .ok true ∧ (latheListed.2.1.package ⟨0⟩).files = [⟨0⟩] ∧
      (latheListed.2.1.file ⟨0⟩).language = "py" ∧
      (latheListed.2.1.file ⟨0⟩).id = "file:lathe//spin.py" ∧
      latheTree.stored (latheListed.2.1.file ⟨0⟩).path = .ok latheText := by
    decide +kernel
  obtain ⟨hdone, hfiles, hlanguage, hname, hstored⟩ := hlist
  have hrun : (Model.listSources latheTree ⟨0⟩ [⟨0⟩] {}).exec
      ({ packages := #[{ name := "lathe", path := some "/lathe" }] }, Table.empty) =
        (.ok true, (latheListed.2.1, latheListed.2.2)) := by
    rw [← hdone]
    rfl
  obtain ⟨added, hadded, hreports, -⟩ :=
    ignored_lines_exact (s := latheAudit) hrun (fun _ _ => rfl) rfl
  refine ⟨hdone, hfiles, fun details => ?_⟩
  have hmem : ⟨0⟩ ∈ added := by
    rw [hfiles] at hadded
    rw [show added = [⟨0⟩] from hadded.symm]
    exact mem_cons_self
  obtain ⟨stored, ls, hstored', rfl, -, -, -, hdrop⟩ := hreports ⟨0⟩ hmem
  cases hstored.symm.trans hstored'
  rw [hlanguage] at hdrop
  constructor
  · refine (hdrop (.violation _ _ _ _) _ 4 (.violation rfl) rfl).1 ?_
    refine ⟨_, rfl, .inr ⟨"# haros:ignore-next-line\n", by decide +kernel, ?_, fun h => ?_⟩⟩
    · exact occursIn_iff.mp (by decide +kernel)
    · exact absurd (occursIn_iff.mpr h) (by decide +kernel)
  · refine ((hdrop (.violation _ _ _ _) _ 2 (.violation rfl) rfl).2 ?_).trans ?_
    · rintro ⟨k, hk, ⟨l, hl, hmark⟩ | ⟨l, hl, hmark, -⟩⟩ <;> cases hk
      · cases (show lineAt? (keptLines (unixLines latheText)) 2 =
          some "\n" by decide +kernel).symm.trans hl
        exact absurd (occursIn_iff.mpr hmark) (by decide +kernel)
      · cases (show lineAt? (keptLines (unixLines latheText)) (2 - 1) =
          some "x = 1  # haros:ignore-line\n" by decide +kernel).symm.trans hl
        exact absurd (occursIn_iff.mpr hmark) (by decide +kernel)
    · have hid : latheAudit.unmuted.model.id? ⟨.file, 0⟩ = some "file:lathe//spin.py" :=
        congrArg some hname
      have hfiled :
          latheAudit.unmuted.filing (.violation "style" details (some (.entity ⟨.file, 0⟩))
          { line := some 2 }) = .ok (some (.violation 0 (latheViolation details 2))) :=
        filing_eq_some.mpr (.violation (placing_eq_some.mpr ⟨rfl, _, hid, rfl, rfl, rfl⟩) rfl)
      rw [hfiled]
      rfl

end Interface

end RosAudit
