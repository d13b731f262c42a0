import RosAudit.Extract.Sources
import RosAudit.Proofs.Job
import RosAudit.Proofs.Model.Quiet
import RosAudit.Proofs.Table
import RosAudit.Proofs.Text.Lines

/-!
# Lines that ask to be ignored

A line of a source file can ask to be ignored itself, or that the next line is
(`IgnoreMarks.Covers`). `mem_countLines` says that exactly these lines are collected while the lines
of a file are counted, and `countLines_counts` that all lines are counted, and those that are not
blank.

`Listed` says what listing the files of a package leaves : the package has the files that were
found, each with the counts of its text, and the lines to ignore are kept for each of them under its
identifier, for nothing else. A file is told apart from the others of its package by its identifier
(`SourceFile.Lies.of_id`), since names have no slashes, so no file takes the lines of another.
-/

namespace RosAudit

open Job Text List

/-! ## Marks -/

def lineAt? (ls : List String) (n : Int) : Option String :=
  if 1 ≤ n then ls[(n - 1).toNat]? else none

variable {l language name folder : String} {ls : List String} {k : IgnoreMarks}

theorem lineAt?_eq_some {n} : lineAt? ls n = some l ↔ ∃ i : Nat, n = i + 1 ∧ ls[i]? = some l := by
  unfold lineAt?
  constructor
  · intro h
    obtain ⟨hn, h⟩ := Option.ite_none_right_eq_some.mp h
    exact ⟨(n - 1).toNat, by omega, h⟩
  · rintro ⟨i, rfl, h⟩
    rw [if_pos (by omega), Int.add_sub_cancel, Int.toNat_natCast, h]

namespace IgnoreMarks

/-- A line is to be ignored : it says so itself, or the line before it says so and does not speak of
itself. -/
def Covers (k : IgnoreMarks) (ls : List String) (n : Int) : Prop :=
  (∃ l, lineAt? ls n = some l ∧ k.line.toList <:+: l.toList) ∨
    ∃ l, lineAt? ls (n - 1) = some l ∧ k.nextLine.toList <:+: l.toList ∧
      ¬ k.line.toList <:+: l.toList

theorem Covers.exists_nat {n} (h : k.Covers ls n) : ∃ j : Nat, n = j := by
  rcases h with ⟨l, hl, -⟩ | ⟨l, hl, -⟩
  · obtain ⟨i, hi, -⟩ := lineAt?_eq_some.mp hl
    exact ⟨i + 1, by omega⟩
  · obtain ⟨i, hi, -⟩ := lineAt?_eq_some.mp hl
    exact ⟨i + 2, by omega⟩

end IgnoreMarks

theorem isSolid_ignoreMarks (h : ignoreMarks? language = some k) :
    IsSolid k.line.toList ∧ IsSolid k.nextLine.toList := by
  unfold ignoreMarks? at h
  split at h
  · cases h
    exact ⟨⟨⟨'/', rfl, rfl⟩, ⟨'e', rfl, rfl⟩⟩, ⟨⟨'/', rfl, rfl⟩, ⟨'e', rfl, rfl⟩⟩⟩
  split at h
  · cases h
    exact ⟨⟨⟨'#', rfl, rfl⟩, ⟨'e', rfl, rfl⟩⟩, ⟨⟨'#', rfl, rfl⟩, ⟨'e', rfl, rfl⟩⟩⟩
  · cases h

/-! ## Counting lines -/

variable (marks : Option IgnoreMarks)

theorem lineStats_fst (n : Nat) (l : String) : (lineStats marks n l).1 = !l.toList.all isBlank := by
  unfold lineStats
  simp only [isEmpty_trimChars]
  cases l.toList.all isBlank with
  | true => rfl
  | false =>
    cases marks with
    | none => rfl
    | some k =>
      simp only [Bool.false_eq_true, if_false]
      split
      · rfl
      · split <;> rfl

theorem mem_lineStats (hline : IsSolid k.line.toList) (hnext : IsSolid k.nextLine.toList) {n j} :
    j ∈ (lineStats (some k) n l).2 ↔
      k.line.toList <:+: l.toList ∧ j = n ∨
        k.nextLine.toList <:+: l.toList ∧ ¬ k.line.toList <:+: l.toList ∧ j = n + 1 := by
  rw [← hline.infix_trimChars, ← hnext.infix_trimChars]
  unfold lineStats
  simp only [← occursIn_iff]
  split
  · rename_i hempty
    rw [List.isEmpty_iff.mp hempty]
    simp [occursIn, hline.ne_nil, hnext.ne_nil]
  · cases occursIn k.line.toList (trimChars l.toList) <;>
      cases occursIn k.nextLine.toList (trimChars l.toList) <;> simp

theorem countLines_counts (ls n) :
    (countLines marks n ls).1 = ls.length ∧
      (countLines marks n ls).2.1 = ls.countP fun l => !l.toList.all isBlank := by
  induction ls generalizing n with
  | nil => exact ⟨rfl, rfl⟩
  | cons l ls ih =>
    obtain ⟨hlines, hsloc⟩ := ih (n + 1)
    simp only [countLines]
    rw [hlines, hsloc, lineStats_fst, countP_cons]
    exact ⟨rfl, rfl⟩

theorem mem_countLines_from {marks n j} :
    j ∈ (countLines marks n ls).2.2 ↔ ∃ i l, ls[i]? = some l ∧
      j ∈ (lineStats marks (n + i) l).2 := by
  induction ls generalizing n with
  | nil => simp [countLines]
  | cons l ls ih =>
    simp only [countLines, mem_append, ih]
    constructor
    · rintro (h | ⟨i, l', hl', h⟩)
      · exact ⟨0, l, rfl, h⟩
      · exact ⟨i + 1, l', hl', by rwa [← Nat.add_right_comm] at h⟩
    · rintro ⟨_ | i, l', hl', h⟩
      · cases hl'
        exact .inl h
      · exact .inr ⟨i, l', hl', by rwa [← Nat.add_right_comm]⟩

theorem mem_countLines {j} :
    j ∈ (countLines (ignoreMarks? language) 1 ls).2.2 ↔
      ∃ k, ignoreMarks? language = some k ∧ k.Covers ls j := by
  rw [mem_countLines_from]
  cases hk : ignoreMarks? language with
  | none =>
    have hnone (n : Nat) (l : String) : (lineStats none n l).2 = [] := by
      unfold lineStats
      dsimp only
      split <;> rfl
    simp [hnone]
  | some k =>
    obtain ⟨hline, hnext⟩ := isSolid_ignoreMarks hk
    simp only [mem_lineStats hline hnext, Option.some.injEq, exists_eq_left', IgnoreMarks.Covers,
      lineAt?_eq_some]
    constructor
    · rintro ⟨i, l, hl, ⟨hmark, rfl⟩ | ⟨hmark, hno, rfl⟩⟩
      · exact .inl ⟨l, ⟨i, by omega, hl⟩, hmark⟩
      · exact .inr ⟨l, ⟨i, by omega, hl⟩, hmark, hno⟩
    · rintro (⟨l, ⟨i, hj, hl⟩, hmark⟩ | ⟨l, ⟨i, hj, hl⟩, hmark, hno⟩)
      · exact ⟨i, l, hl, .inl ⟨hmark, by omega⟩⟩
      · exact ⟨i, l, hl, .inr ⟨hmark, hno, by omega⟩⟩

/-! ## Files of a package -/

/-- Where a file of a package lies, and what tells its language. -/
structure SourceFile.Lies (f : SourceFile) (package top : String) : Prop where
  packageName : f.packageName = package
  path : f.path = Path.join (Path.join top f.directory) f.name
  language : f.language = languageOf f.name
  plain : '/' ∉ f.name.toList

theorem SourceFile.Lies.of_id {f g : SourceFile} {package top} (hf : f.Lies package top)
    (hg : g.Lies package top) (h : f.id = g.id) : f.path = g.path ∧ f.language = g.language := by
  have hid := congrArg String.toList h
  simp only [SourceFile.id, hf.packageName, hg.packageName, String.toList_append,
    append_assoc] at hid
  have hrest := append_cancel_left (append_cancel_left (append_cancel_left hid))
  obtain ⟨hdirectory, hname⟩ := append_cons_inj hf.plain hg.plain hrest
  rw [hf.path, hg.path, hf.language, hg.language, String.toList_inj.mp hdirectory,
    String.toList_inj.mp hname]
  exact ⟨rfl, rfl⟩

def IgnoredLines.under (ig : IgnoredLines) (id : String) : List Nat :=
  ((ig.get? id).map fun t => t.getD "*" []).getD []

theorem IgnoredLines.under_put (ig : IgnoredLines) (id : String) (lines : List Nat) (i : String) :
    IgnoredLines.under (if lines.isEmpty then ig else ig.put id (Table.ofList [("*", lines)])) i =
      if i = id ∧ lines ≠ [] then lines else ig.under i := by
  by_cases hlines : lines = []
  · simp [hlines]
  · rw [if_neg (by simpa using hlines)]
    by_cases hi : i = id
    · subst hi
      simp only [hlines, ne_eq, under, Table.get?_put_self]
      rfl
    · rw [if_neg (fun h => hi h.1), under, under, Table.get?_put_of_ne _ _ hi]

namespace Model

variable {m m' : Model} {pkg : Ref .package} {f f' : SourceFile} {t : FileTree}
  {packages : Table String (Option String)} {origin : Origin} {lines : List Nat} {ig : IgnoredLines}
  {top : String}

theorem makeFile_ok {name directory} (h : m.makeFile name directory pkg = .ok f)
    (hname : '/' ∉ name.toList) :
    ∃ top, (m.package pkg).path = some top ∧ f.Lies (m.package pkg).name top := by
  unfold makeFile at h
  dsimp only at h
  cases hpath : (m.package pkg).path with
  | none =>
    rw [hpath] at h
    cases h
  | some top =>
    rw [hpath] at h
    cases h
    exact ⟨top, rfl, rfl, rfl, rfl, hname⟩

theorem measure_ok (h : f.measure t = .ok (f', lines)) :
    ∃ text size time, t.read f.path = .ok text ∧
      f' = { f with size, timestamp := time, lines := (keptLines text).length
                    sloc := (keptLines text).countP fun l => !l.toList.all isBlank } ∧
      lines = (countLines (ignoreMarks? f.language) 1 (keptLines text)).2.2 := by
  obtain ⟨size, -, h⟩ := bind_eq_ok.mp h
  obtain ⟨time, -, h⟩ := bind_eq_ok.mp h
  obtain ⟨text, htext, h⟩ := bind_eq_ok.mp h
  obtain ⟨hlines, hsloc⟩ := countLines_counts (ignoreMarks? f.language) (keptLines text) 1
  refine ⟨text, size, .float time, htext, ?_⟩
  rw [← hlines, ← hsloc]
  cases h
  exact ⟨rfl, rfl⟩

/-- From `m` to `m'` nothing changes but the launch tree of a file. -/
structure SameButTree (r : Ref .file) (m m' : Model) : Prop where
  packages : m'.packages = m.packages
  size : m'.files.size = m.files.size
  others : ∀ f, f ≠ r → m'.file f = m.file f
  tree : ∃ tree, m'.file r = { m.file r with tree }

theorem sameButTree_refl (r : Ref .file) (m : Model) : SameButTree r m m :=
  ⟨rfl, rfl, fun _ _ => rfl, _, rfl⟩

theorem sameButTree_parseLaunch {r} (hr : r.index < m.files.size)
    (h : Scene.parseLaunch m t packages origin r = .ok m') : SameButTree r m m' := by
  obtain ⟨doc, -, h⟩ := bind_eq_ok.mp h
  split at h
  · cases h
    refine ⟨rfl, Array.size_modify .., fun f hf => ?_, _, getD_modify_self _ _ _ hr⟩
    exact getD_modify_ref_of_ne _ _ _ hf
  · cases h
    exact sameButTree_refl r m
  · cases h

/-- A file was added to a package : the package has it, it has the counts of its text, and its lines
to ignore are kept. -/
structure AddsSource (t : FileTree) (pkg : Ref .package) (s s' : Model × IgnoredLines)
    (r : Ref .file) (text : String) : Prop where
  ref : r.index = s.1.files.size
  size : s'.1.files.size = s.1.files.size + 1
  older : ∀ f : Ref .file, f.index < s.1.files.size → s'.1.file f = s.1.file f
  files : (s'.1.package pkg).files = (s.1.package pkg).files ++ [r]
  name : (s'.1.package pkg).name = (s.1.package pkg).name
  path : (s'.1.package pkg).path = (s.1.package pkg).path
  lies : ∃ top, (s.1.package pkg).path = some top ∧ (s'.1.file r).Lies (s.1.package pkg).name top
  read : t.read (s'.1.file r).path = .ok text
  lines : (s'.1.file r).lines = (keptLines text).length
  sloc : (s'.1.file r).sloc = (keptLines text).countP fun l => !l.toList.all isBlank
  ignored : ∀ lines,
    lines = (countLines (ignoreMarks? (s'.1.file r).language) 1 (keptLines text)).2.2 →
    ∀ i, s'.2.under i = if i = (s'.1.file r).id ∧ lines ≠ [] then lines else s.2.under i

theorem addsSource (hname : '/' ∉ name.toList) (hmake : m.makeFile name folder pkg = .ok f)
    (hmeasure : f.measure t = .ok (f', lines))
    (hm' : SameButTree ⟨m.files.size⟩ (m.addFile f').1 m') :
    ∃ r text, AddsSource t pkg (m, ig) (m'.updatePackage pkg fun p =>
      { p with files := p.files ++ [⟨m.files.size⟩], size := p.size + f'.size
               lines := p.lines + f'.lines, sloc := p.sloc + f'.sloc },
      if lines.isEmpty then ig else ig.put f'.id (Table.ofList [("*", lines)])) r text := by
  obtain ⟨top, htop, hlies⟩ := makeFile_ok hmake hname
  obtain ⟨text, size, time, hread, rfl, rfl⟩ := measure_ok hmeasure
  have hpackages : m'.packages = m.packages := hm'.packages
  have hpkg : pkg.index < m.packages.size := by
    by_contra hout
    have hdefault : m.package pkg = default := by simp [package, hout]
    rw [hdefault] at htop
    cases htop
  obtain ⟨tree, htree⟩ := hm'.tree
  rw [show (m.addFile _).1.file ⟨m.files.size⟩ = _ from getD_push_size _ _ _] at htree
  -- The package is where it was, with one more file.
  have hpackage (g : Package → Package) :
      (m'.updatePackage pkg g).package pkg = g (m.package pkg) := by
    refine (getD_modify_self _ _ _ ?_).trans ?_
    · rwa [hpackages]
    · rw [hpackages]
      rfl
  refine ⟨⟨m.files.size⟩, text, rfl, ?_, fun r hr => ?_, ?_, ?_, ?_,
    ⟨top, htop, ?_⟩, ?_, ?_, ?_, ?_⟩
  · exact hm'.size.trans (Array.size_push _)
  · refine (hm'.others r fun h => ?_).trans (getD_push_of_lt _ _ _ hr)
    rw [h] at hr
    exact Nat.lt_irrefl _ hr
  · rw [hpackage]
  · rw [hpackage]
  · rw [hpackage]
  all_goals rw [show (m'.updatePackage pkg _).file ⟨m.files.size⟩ = _ from htree]
  · exact ⟨hlies.packageName, hlies.path, hlies.language, hlies.plain⟩
  · exact hread
  · rintro lines rfl i
    exact IgnoredLines.under_put ..

theorem addSource_cases (hname : '/' ∉ name.toList) (s : Model × IgnoredLines) :
    ((addSource t pkg packages origin folder name).exec s).2 = s ∨
      ∃ r text,
        AddsSource t pkg s ((addSource t pkg packages origin folder name).exec s).2 r text := by
  obtain ⟨m, ig⟩ := s
  unfold addSource
  rw [exec_bind_of_ok (exec_get _)]
  dsimp only
  cases hmake : m.makeFile name folder pkg with
  | error e => exact .inl rfl
  | ok f =>
    rw [exec_bind_of_ok (exec_ofResult _ _)]
    cases hmeasure : f.measure t with
    | error e => exact .inl rfl
    | ok fl =>
      obtain ⟨f', lines⟩ := fl
      rw [exec_bind_of_ok (exec_ofResult _ _)]
      split
      · cases hparse : Scene.parseLaunch (m.addFile f').1 t packages origin (m.addFile f').2 with
        | error e => exact .inl rfl
        | ok m' =>
          refine .inr (addsSource hname hmake hmeasure (sameButTree_parseLaunch ?_ hparse))
          simp [addFile]
      · exact .inr (addsSource hname hmake hmeasure (sameButTree_refl _ _))

/-! ## Listing all files -/

/-- What listing the files of a package has left so far. -/
structure Listed (t : FileTree) (pkg : Ref .package) (top : String) (m₀ : Model)
    (added : List (Ref .file)) (s : Model × IgnoredLines) : Prop where
  files : (s.1.package pkg).files = (m₀.package pkg).files ++ added
  name : (s.1.package pkg).name = (m₀.package pkg).name
  path : (s.1.package pkg).path = some top
  lies : ∀ f ∈ added, f.index < s.1.files.size ∧ (s.1.file f).Lies (m₀.package pkg).name top
  counted : ∀ f ∈ added, ∃ text, t.read (s.1.file f).path = .ok text ∧
    (s.1.file f).lines = (keptLines text).length ∧
    (s.1.file f).sloc = ((keptLines text).countP fun l => !l.toList.all isBlank) ∧
    s.2.under (s.1.file f).id =
      (countLines (ignoreMarks? (s.1.file f).language) 1 (keptLines text)).2.2
  /-- No other lines are kept. -/
  owned : ∀ id, s.2.under id ≠ [] → ∃ f ∈ added, (s.1.file f).id = id

theorem Listed.add {m₀ : Model} {added} {s s' : Model × IgnoredLines} {r text}
    (h : Listed t pkg top m₀ added s) (ha : AddsSource t pkg s s' r text) :
    Listed t pkg top m₀ (added ++ [r]) s' := by
  have hold (f : Ref .file) (hf : f ∈ added) :
    s'.1.file f = s.1.file f := ha.older f (h.lies f hf).1
  have hnew : (s'.1.file r).Lies (m₀.package pkg).name top := by
    obtain ⟨top', htop', hlies⟩ := ha.lies
    rw [h.name] at hlies
    rwa [Option.some.inj (h.path.symm.trans htop')]
  obtain ⟨lines, hlines⟩ : ∃ lines, lines =
    (countLines (ignoreMarks? (s'.1.file r).language) 1 (keptLines text)).2.2 := ⟨_, rfl⟩
  have hunder := ha.ignored lines hlines
  -- A file with the identifier of the new one has the same text, so the same lines to ignore.
  have hsame (f : Ref .file) (hf : f ∈ added) (hid : (s'.1.file r).id = (s.1.file f).id) :
      s.2.under (s.1.file f).id = lines := by
    obtain ⟨text', hread, -, -, hunder'⟩ := h.counted f hf
    obtain ⟨hpath, hlanguage⟩ := hnew.of_id (h.lies f hf).2 hid
    rw [← hpath, ha.read] at hread
    cases hread
    rw [hunder', hlines, hlanguage]
  have hunderOld (f : Ref .file) (hf : f ∈ added) :
      s'.2.under (s.1.file f).id = s.2.under (s.1.file f).id := by
    rw [hunder]
    split
    · rename_i hid
      exact (hsame f hf hid.1.symm).symm
    · rfl
  have hunderNew : s'.2.under (s'.1.file r).id = lines := by
    rw [hunder]
    by_cases hempty : lines = []
    · rw [if_neg fun hne => hne.2 hempty, hempty]
      by_contra hne
      obtain ⟨f, hf, hid⟩ := h.owned _ hne
      rw [← hid] at hne
      exact hne ((hsame f hf hid.symm).trans hempty)
    · rw [if_pos ⟨rfl, hempty⟩]
  constructor
  · rw [ha.files, h.files, append_assoc]
  · rw [ha.name, h.name]
  · rw [ha.path, h.path]
  · refine forall_mem_append.mpr ⟨fun f hf => ?_, forall_mem_singleton.mpr ⟨?_, hnew⟩⟩
    · rw [hold f hf, ha.size]
      exact ⟨Nat.lt_succ_of_lt (h.lies f hf).1, (h.lies f hf).2⟩
    · rw [ha.ref, ha.size]
      exact Nat.lt_succ_self _
  · refine forall_mem_append.mpr ⟨fun f hf => ?_, forall_mem_singleton.mpr ?_⟩
    · rw [hold f hf, hunderOld f hf]
      exact h.counted f hf
    · exact ⟨text, ha.read, ha.lines, ha.sloc, hunderNew.trans hlines⟩
  · intro id hid
    rw [hunder] at hid
    split at hid
    · rename_i hr
      exact ⟨r, mem_append_right _ mem_cons_self, hr.1.symm⟩
    · obtain ⟨f, hf, rfl⟩ := h.owned id hid
      exact ⟨f, mem_append_left _ hf, by rw [hold f hf]⟩

end Model

variable {keep : String → List String → List String}

theorem FileTree.not_mem_of_mem_walkFrom {t : FileTree} :
    ∀ {fuel p visit}, visit ∈ t.walkFrom keep fuel p →
      ∀ name ∈ visit.files, '/' ∉ name.toList
  | 0, _, _, h => absurd h not_mem_nil
  | fuel + 1, p, visit, h => by
    intro name hname
    rcases mem_cons.mp h with rfl | h
    · exact not_mem_of_mem_names (mem_filter.mp hname).1
    · obtain ⟨n, -, hn⟩ := mem_flatMap.mp h
      exact not_mem_of_mem_walkFrom hn name hname

theorem FileTree.not_mem_of_mem_walk {t : FileTree} {p} {visit : Visit}
    (h : visit ∈ t.walk p keep) : ∀ name ∈ visit.files, '/' ∉ name.toList := by
  unfold walk at h
  split at h
  · exact not_mem_of_mem_walkFrom h
  · exact absurd h not_mem_nil

namespace Model

theorem listed_of_listSources {t pkg others origin} {m : Model} {m' ig}
    (h : (listSources t pkg others origin).exec (m, Table.empty) = (.ok true, (m', ig))) :
    ∃ top added, Listed t pkg top m added (m', ig) := by
  unfold listSources at h
  rw [exec_bind_of_ok (exec_get _)] at h
  dsimp only at h
  cases htop : nonEmpty? (m.package pkg).path with
  | none =>
    rw [htop] at h
    cases h
  | some top =>
    rw [htop] at h
    have hpath : (m.package pkg).path = some top := (Option.filter_eq_some_iff.mp htop).1
    obtain ⟨⟨⟩, s, hloop, hs⟩ := exec_bind_ok.mp h
    cases hs
    refine ⟨top, Within.of_exec (R := Keeping fun s => ∃ added, Listed t pkg top m added s) ?_
      hloop ?_⟩
    · refine chains_within.forIn (fun visit hvisit _ => ?_) _
      refine Within.bind (chains_within.forIn (fun name hname _ => ?_) _) fun _ => within_pure _
      refine Within.bind (fun s hs => ?_) fun _ => within_pure _
      obtain ⟨added, hs⟩ := hs
      rcases addSource_cases (FileTree.not_mem_of_mem_walk hvisit name hname) s with
        hkeep | ⟨r, text, hadd⟩
      · rw [hkeep]
        exact ⟨added, hs⟩
      · exact ⟨added ++ [r], hs.add hadd⟩
    · refine ⟨[], (append_nil _).symm, rfl, hpath, forall_mem_nil _, forall_mem_nil _, ?_⟩
      exact fun id hid => absurd rfl hid

end Model

end RosAudit
