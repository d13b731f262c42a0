import RosAudit.Audit.Run
import RosAudit.Proofs.Audit.Filing
import RosAudit.Proofs.Audit.Identifiers
import RosAudit.Proofs.Model.AbsoluteNames

/-!
# Reports that wait

While buffers are active what is reported waits, and `Interface.commit` files it in the end. A
report is filed directly with the findings of its scope, or else of what the scope belongs to. One
that waited is filed with those of the closest object of its location, and there is no other choice.

The two places are the same for all scopes but one (`findingsOf_of_placing`). A file without
findings of its own is reported about in its package, and has no place once it waited. So calls that
go through directly also go through the buffers, and end in the same state, exactly if no file of
this kind is among them (`commit_eq_direct`). The order of the filings is no obstacle : violations
and measurements are kept apart (`Filing.foldl_enter`).

This needs that the current report is about the object that leads to it, as it is once an audit has
turned to an object (`Interface.Orderly`).
-/

namespace RosAudit

open List

/-! ## The order in which things are filed -/

namespace Report

theorem addViolation_addMeasurement (r : Report) (i j v x) :
    (r.addMeasurement j x).addViolation i v = (r.addViolation i v).addMeasurement j x := by
  simp only [addViolation, addMeasurement, Report.mk.injEq, true_and, and_true]
  refine Array.ext (by simp) fun k _ _ => ?_
  simp only [Array.getElem_modify]
  split <;> split <;> rfl

def addViolations (r : Report) (ps : List (FindingsRef × Violation)) : Report :=
  ps.foldl (fun r p => r.addViolation p.1 p.2) r

def addMeasurements (r : Report) (ps : List (FindingsRef × Measurement)) : Report :=
  ps.foldl (fun r p => r.addMeasurement p.1 p.2) r

theorem addViolations_addMeasurement (r : Report) (j x ps) :
    (r.addMeasurement j x).addViolations ps = (r.addViolations ps).addMeasurement j x := by
  induction ps generalizing r with
  | nil => rfl
  | cons p ps ih =>
    calc ((r.addMeasurement j x).addViolation p.1 p.2).addViolations ps
        = ((r.addViolation p.1 p.2).addMeasurement j x).addViolations ps := by
          rw [addViolation_addMeasurement]
      _ = ((r.addViolation p.1 p.2).addViolations ps).addMeasurement j x := ih _

end Report

namespace Filing

def violation? : Filing → Option (FindingsRef × Violation)
  | violation i v => some (i, v)
  | measurement _ _ => none

def measurement? : Filing → Option (FindingsRef × Measurement)
  | violation _ _ => none
  | measurement i x => some (i, x)

theorem foldl_enter (es : List Filing) (r : Report) : es.foldl enter r =
    (r.addViolations (es.filterMap violation?)).addMeasurements (es.filterMap measurement?) := by
  induction es generalizing r with
  | nil => rfl
  | cons e es ih =>
    cases e with
    | violation i v => exact ih _
    | measurement i x =>
      refine (ih _).trans ?_
      change ((r.addMeasurement i x).addViolations _).addMeasurements _ = _
      rw [Report.addViolations_addMeasurement]
      rfl

end Filing

variable {s t : Interface}

namespace Interface

/-! ## Filing directly, and filing in buffers -/

def holding (s : Interface) (vs : List Violation) (xs : List Measurement) : Interface :=
  { s with buffers := { violations := some vs, metrics := some xs } }

theorem foldl_file_of_none (h : s.buffers = {}) (es : List Filing) :
    es.foldl file s = { s with report := es.foldl Filing.enter s.report } := by
  induction es generalizing s with
  | nil => rfl
  | cons e es ih =>
    have he : s.file e = { s with report := e.enter s.report } := by
      cases e with
      | violation i v => exact file_violation_of_none (congrArg Buffers.violations h) v
      | measurement i x => exact file_measurement_of_none (congrArg Buffers.metrics h) x
    rw [foldl_cons, he]
    exact ih h

theorem foldl_file_holding (s : Interface) (vs xs) (es : List Filing) :
    es.foldl file (s.holding vs xs) =
      s.holding (vs ++ (es.filterMap Filing.violation?).map Prod.snd)
        (xs ++ (es.filterMap Filing.measurement?).map Prod.snd) := by
  induction es generalizing vs xs with
  | nil => simp
  | cons e es ih =>
    cases e with
    | violation i v =>
      have hfile : (s.holding vs xs).file (.violation i v) = s.holding (vs ++ [v]) xs := rfl
      rw [foldl_cons, hfile, ih, append_assoc]
      rfl
    | measurement i x =>
      have hfile : (s.holding vs xs).file (.measurement i x) = s.holding vs (xs ++ [x]) := rfl
      rw [foldl_cons, hfile, ih, append_assoc]
      rfl

/-! ## Committing -/

theorem findingsOf_of_index {r} (h : r.index = s.report.index) (l) :
    ({ s with report := r } : Interface).findingsOf l = s.findingsOf l := by
  cases l with
  | none => rfl
  | some l => simp only [findingsOf, Report.placeOf, h]

/-- Files what waited in one buffer : each thing at its location. -/
def settle {α : Type} (locate : α → Option Location) (add : Report → FindingsRef → α → Report)
    (as : List α) : Job Interface PUnit :=
  forIn as PUnit.unit fun a _ => do
    let s ← get
    let i ← Job.ofResult (s.findingsOf (locate a))
    set { s with report := add s.report i a }
    pure (.yield PUnit.unit)

theorem exec_settle {α : Type} {locate add} (hadd : ∀ r i a, (add r i a).index = r.index)
    {as : List α} : (settle locate add as).exec s = (.ok ⟨⟩, t) ↔
      ∃ is, as.mapM (fun a => s.findingsOf (locate a)) = .ok is ∧
        t = { s with report := (is.zip as).foldl (fun r p => add r p.1 p.2) s.report } := by
  induction as generalizing s with
  | nil => simp [settle, pure_eq_ok, eq_comm]
  | cons a as ih =>
    have hcons : settle locate add (a :: as) = (do
        let s ← get
        let i ← Job.ofResult (s.findingsOf (locate a))
        set { s with report := add s.report i a }
        settle locate add as) := by
      simp only [settle, forIn_cons, bind_assoc, pure_bind]
    rw [hcons, Job.exec_bind_of_ok (Job.exec_get s), Job.exec_bind, Job.exec_ofResult, mapM_cons]
    cases s.findingsOf (locate a) with
    | error f => simp [bind, Except.bind]
    | ok i =>
      simp only [Job.exec_bind_of_ok (Job.exec_set _ _), ih, ok_bind,
        findingsOf_of_index (hadd s.report i a)]
      cases as.mapM fun a => s.findingsOf (locate a) with
      | error f => simp [bind, Except.bind]
      | ok is => simp [ok_bind, pure_eq_ok]

variable {s t : Interface} {vs : List Violation} {xs : List Measurement}

theorem exec_settle_violations :
    (settle Violation.location Report.addViolation vs).exec s = (.ok ⟨⟩, t) ↔
      ∃ is, vs.mapM (fun v => s.findingsOf v.location) = .ok is ∧
        t = { s with report := s.report.addViolations (is.zip vs) } :=
  exec_settle fun r i a => show (Report.addViolation r i a).index = r.index from rfl

theorem exec_settle_measurements :
    (settle Measurement.location Report.addMeasurement xs).exec s = (.ok ⟨⟩, t) ↔
      ∃ is, xs.mapM (fun x => s.findingsOf x.location) = .ok is ∧
        t = { s with report := s.report.addMeasurements (is.zip xs) } :=
  exec_settle fun r i a => show (Report.addMeasurement r i a).index = r.index from rfl

theorem index_addViolations (r : Report) (ps) : (r.addViolations ps).index = r.index := by
  induction ps generalizing r with
  | nil => rfl
  | cons p ps ih => exact ih _

/-- What waits is filed exactly if findings are there for each thing. The violations come first. -/
theorem exec_commit :
    commit.exec (s.holding vs xs) = (.ok (), t) ↔
      ∃ is js, vs.mapM (fun v => s.findingsOf v.location) = .ok is ∧
        xs.mapM (fun x => s.findingsOf x.location) = .ok js ∧
        t = { s with buffers := {}
                     report := (s.report.addViolations (is.zip vs)).addMeasurements
                       (js.zip xs) } := by
  -- what follows the violations is known by its effect where the measurements still wait
  obtain ⟨k, hcommit, hk⟩ : ∃ k : Job Interface Unit, commit.exec (s.holding vs xs) = Job.exec (do
      settle Violation.location Report.addViolation vs
      modify fun s => { s with buffers := { s.buffers with violations := none } }
      k) (s.holding vs xs) ∧ ∀ u : Interface, u.buffers.metrics = some xs → k.exec u = Job.exec (do
        settle Measurement.location Report.addMeasurement xs
        modify fun s => { s with buffers := { s.buffers with metrics := none } }) u := by
    refine ⟨_, Job.exec_bind_of_ok (Job.exec_get _), fun u hu => ?_⟩
    rw [Job.exec_bind_of_ok (Job.exec_get u), hu]
    rfl
  have hfound : ∀ is : List FindingsRef,
      xs.mapM (fun x => findingsOf { s with
        buffers := { metrics := some xs }
        report := s.report.addViolations (is.zip vs) } x.location) =
      xs.mapM fun x => s.findingsOf x.location := fun is =>
    congrArg xs.mapM (funext fun x => findingsOf_of_index (index_addViolations _ _) _)
  rw [hcommit]
  constructor
  · intro h
    obtain ⟨⟨⟩, s₁, hv, h⟩ := Job.exec_bind_ok.mp h
    obtain ⟨is, his, rfl⟩ := exec_settle_violations.mp hv
    rw [Job.exec_bind_of_ok (Job.exec_modify _ _), hk _ rfl] at h
    obtain ⟨⟨⟩, s₂, hx, h⟩ := Job.exec_bind_ok.mp h
    obtain ⟨js, hjs, rfl⟩ := exec_settle_measurements.mp hx
    cases h
    exact ⟨is, js, his, (hfound is).symm.trans hjs, rfl⟩
  · rintro ⟨is, js, his, hjs, rfl⟩
    refine Job.exec_bind_ok.mpr ⟨⟨⟩, _, exec_settle_violations.mpr ⟨is, his, rfl⟩, ?_⟩
    rw [Job.exec_bind_of_ok (Job.exec_modify _ _), hk _ rfl]
    exact Job.exec_bind_ok.mpr
      ⟨⟨⟩, _, exec_settle_measurements.mpr ⟨js, (hfound is).trans hjs, rfl⟩, rfl⟩

end Interface

/-! ## Where a report belongs -/

def Entity.isKept (e : Entity) : Bool :=
  e.kind = .package || e.kind = .file || e.kind = .configuration

/-- The file that a location is in. -/
def Location.file? : Location → Option (Ref .file)
  | .source _ f _ _ _ => f
  | .runtime _ => none

def Filing.file? (e : Filing) : Option (Ref .file) := e.location?.bind Location.file?

namespace Interface

/-- There are findings about packages, files and configurations only, and the current ones are
those of the object that they are about. -/
structure Orderly (s : Interface) : Prop where
  kept : ∀ e i, s.report.placeOf s.model e = some i → e.isKept = true
  current : ∀ i e, s.current = some i → (s.report.findingsAt i).scope = some e →
    s.report.placeOf s.model e = some i

/-- A file has findings of its own. -/
def HasFindings (s : Interface) (f : Ref .file) : Prop :=
  (s.report.placeOf s.model f.entity).isSome = true

variable {s : Interface} {e : Entity} {at_ : Spot} {l : Location} {i : FindingsRef} {id : String}
  {given : Option Item} {c : ReportCall}

/-- The location of a package or a configuration is closest to it and widest, that of a file is
closest to it. Any other location is closest to where it is widest. -/
theorem smallest_of_locate {m} (h : locate m e at_ = .ok l) :
    (e.isKept = false ∧ l.smallest = l.largest) ∨
      (l.smallest = e ∧ (l.largest = e ∨ ∃ f, l.file? = some f ∧ f.entity = e)) := by
  obtain ⟨k, n⟩ := e
  cases k <;> simp [locate, Model.locationOf, Model.configurationOf?, pure_eq_ok, throw, throwThe,
    MonadExceptOf.throw] at h <;> subst h <;>
    simp [Entity.isKept, Location.smallest, Location.largest, Location.file?, Ref.entity]

theorem findingsOf_eq_ok :
    s.findingsOf (some l) = .ok i ↔ s.report.placeOf s.model l.smallest = some i := by
  dsimp only [findingsOf]
  cases s.report.placeOf s.model l.smallest <;> simp [pure_eq_ok]

theorem hasFindings_of_findingsOf (h : s.findingsOf (some l) = .ok i) {f} (hf : l.file? = some f) :
    s.HasFindings f := by
  have hsmallest : l.smallest = f.entity := by
    cases l with
    | source p file line function className =>
      cases hf
      rfl
    | runtime c => cases hf
  rw [findingsOf_eq_ok, hsmallest] at h
  simp [HasFindings, h]

theorem findingsFor_eq_ok : s.findingsFor id l = .ok i ↔ s.report.index.get? id = some i ∨
    s.report.index.get? id = none ∧ s.report.placeOf s.model l.largest = some i := by
  rw [findingsFor]
  cases s.report.index.get? id with
  | some j => simp [pure_eq_ok]
  | none => cases s.report.placeOf s.model l.largest <;> simp [pure_eq_ok]

theorem placeOf_of_id (h : s.model.id? e = some id) :
    s.report.placeOf s.model e = s.report.index.get? id := by
  rw [Report.placeOf, h]
  rfl

/-- A report belongs to the findings of its closest object, unless this is a file without any. -/
theorem findingsOf_of_placing (hs : s.Orderly) (h : s.placing given at_ = .ok (some (e, l, i)))
    (hfile : ∀ f, l.file? = some f → s.HasFindings f) : s.findingsOf (some l) = .ok i := by
  obtain ⟨-, id, hid, -, hl, hi⟩ := placing_eq_some.mp h
  have hplace := placeOf_of_id hid
  rw [findingsOf_eq_ok]
  rcases smallest_of_locate hl with ⟨hkept, hsmall⟩ | ⟨hsmall, hwide⟩
  · -- a node or a resource : there are findings of what it belongs to alone
    rw [hsmall]
    rcases findingsFor_eq_ok.mp hi with hget | ⟨-, hlarge⟩
    · simp [hs.kept e i (hplace.trans hget)] at hkept
    · exact hlarge
  · rw [hsmall, hplace]
    rcases findingsFor_eq_ok.mp hi with hget | ⟨hget, hlarge⟩
    · exact hget
    · rcases hwide with hwide | ⟨f, hf, rfl⟩
      · rw [hwide, hplace] at hlarge
        exact hlarge
      · have hown := hfile f hf
        rw [HasFindings, hplace, hget] at hown
        cases hown

theorem Files.findingsOf (hs : s.Orderly) {e} (h : s.Files c e)
    (hfile : ∀ f, e.file? = some f → s.HasFindings f) : s.findingsOf e.location? = .ok e.place := by
  cases h with
  | violation hplace hrule => exact findingsOf_of_placing hs hplace hfile
  | runtime hcurrent hscope hwithin hrule =>
    exact findingsOf_eq_ok.mpr (hs.current _ _ hcurrent hscope)
  | metric hplace hmetric hvalue => exact findingsOf_of_placing hs hplace hfile

theorem Files.location {e} (h : s.Files c e) : ∃ l, e.location? = some l := by
  cases h <;> exact ⟨_, rfl⟩

end Interface

/-! ## Reports as they are made -/

def Model.Rooted (m : Model) : Prop :=
  ∀ e id, (m.configurationOf? e).isSome = true → m.id? e = some id → IsRooted id

def keptMarks : List (List Char) := [['p', 'a'], ['f', 'i'], ['c', 'o']]

theorem isKept_iff_mark {m : Model} (hm : m.Rooted) {e : Entity} {id : String}
    (h : m.id? e = some id) : e.isKept = true ↔ id.toList.take 2 ∈ keptMarks := by
  obtain ⟨k, n⟩ := e
  have hresource : (m.configurationOf? ⟨k, n⟩).isSome = true → id.toList.take 2 ∉ keptMarks := by
    intro hc
    rcases hm _ _ hc h with rfl | habsolute
    · decide
    · obtain ⟨cs, hcs⟩ := head?_eq_some_iff.mp habsolute
      rw [hcs]
      simp [keptMarks]
  cases k <;> try cases h
  case project => simp [Entity.isKept, Project.id, keptMarks]
  case repository => simp [Entity.isKept, Repository.id, keptMarks]
  case package => simp [Entity.isKept, Package.id, keptMarks]
  case file => simp [Entity.isKept, SourceFile.id, keptMarks]
  case node => simp [Entity.isKept, Node.id, keptMarks]
  case configuration => simp [Entity.isKept, keptMarks]
  all_goals exact iff_of_false Bool.false_ne_true (hresource rfl)

namespace Report

variable {m : Model} {r : Report} {i : FindingsRef} {e : Entity}

/-- An identifier leads to findings about a package, a file or a configuration with this
identifier. -/
def Indexed (m : Model) (r : Report) : Prop :=
  ∀ id i, r.index.get? id = some i →
    ∃ e, (r.findingsAt i).scope = some e ∧ e.isKept = true ∧ m.id? e = some id

theorem lt_of_scope (h : (r.findingsAt i).scope = some e) : i < r.store.size := by
  refine Nat.lt_of_not_le fun hi => ?_
  unfold findingsAt at h
  rw [Array.getD_eq_getD_getElem?, Array.getElem?_eq_none hi] at h
  cases h

theorem Indexed.lt_of_placeOf (h : r.Indexed m) (hplace : r.placeOf m e = some i) :
    i < r.store.size := by
  obtain ⟨id, -, hget⟩ := Option.bind_eq_some_iff.mp hplace
  obtain ⟨e', hscope, -⟩ := h id i hget
  exact lt_of_scope hscope

theorem indexed_make (m project timestamp) : (make m project timestamp).Indexed m := by
  obtain ⟨r, hlists, hstore, hindex, -⟩ := lists_make m project timestamp
  intro id i hi
  rw [hindex, hlists.index] at hi
  obtain hmem | hnone := Table.mem_of_get?_putAll hi
  · rw [mem_zipIdx_iff_getElem?, getElem?_map] at hmem
    obtain ⟨e, he, rfl⟩ := Option.map_eq_some_iff.mp hmem
    have hkept : ∀ e ∈ subjects m (m.project project), e.isKept = true ∧
        m.id? e = some (idOf m e) := by
      simp only [subjects, mem_append, mem_flatMap, mem_cons, mem_map]
      rintro e (⟨p, -, rfl | ⟨f, -, rfl⟩⟩ | ⟨c, -, rfl⟩) <;> exact ⟨rfl, rfl⟩
    refine ⟨e, ?_, hkept e (mem_of_getElem? he)⟩
    have hstored := congrArg (·[i]?) hlists.store
    simp only [getElem?_map, he, Array.getElem?_toList] at hstored
    rw [findingsAt, hstore, getD_push_of_lt _ _ _ (Array.getElem?_eq_some_iff.mp hstored).1,
      Array.getD_eq_getD_getElem?, hstored]
    rfl
  · cases hnone

end Report

theorem Interface.orderly_focus (hm : s.model.Rooted) (hr : s.report.Indexed s.model) {e i}
    (h : (Audit.focus e).exec s = (.ok i, t)) : t.Orderly := by
  unfold Audit.focus at h
  rw [Job.exec_bind_of_ok (Job.exec_get s)] at h
  cases hplace : s.report.placeOf s.model e with
  | none =>
    rw [hplace] at h
    cases h
  | some j =>
    rw [hplace] at h
    cases h
    refine ⟨fun e' i' h' => ?_, fun i' e' hi' hscope => ?_⟩
    · obtain ⟨id, hid, hget⟩ := Option.bind_eq_some_iff.mp h'
      obtain ⟨k, -, hkept, hk⟩ := hr id i' hget
      exact (isKept_iff_mark hm hid).mpr ((isKept_iff_mark hm hk).mp hkept)
    · cases hi'
      obtain ⟨id, hid, hget⟩ := Option.bind_eq_some_iff.mp hplace
      obtain ⟨k, hscope', -, hk⟩ := hr id i hget
      cases hscope'.symm.trans hscope
      exact Option.bind_eq_some_iff.mpr ⟨id, hk, hget⟩

namespace Interface

/-! ## Reporting through the buffers -/

theorem mem_filings {calls es} (h : s.filings calls = .ok es) (e : Filing) :
    e ∈ es ↔ ∃ c ∈ calls, s.Files c e := by
  obtain ⟨os, hos, rfl⟩ := map_eq_ok.mp h
  simp only [mem_filterMap, id_eq, exists_eq_right, mem_mapM_ok hos, filing_eq_some]

theorem mapM_places {α : Type} {f : α → Result FindingsRef} {ps : List (FindingsRef × α)}
    (h : ∀ p ∈ ps, f p.2 = .ok p.1) :
    (ps.map Prod.snd).mapM f = .ok (ps.map Prod.fst) := by
  rw [mapM_map]
  exact mapM_eq_ok_map h

/-- Reporting through the buffers is reporting directly, unless a file without findings is
reported about : then, and only then, the reports that waited are not filed. -/
theorem commit_eq_direct {s t : Interface} {calls : List ReportCall} (hs : s.Orderly)
    (hbuffers : s.buffers = {}) (hdirect : (calls.forM ReportCall.run).exec s = (.ok (), t)) :
    t.buffers = {} ∧ (Job.exec (do hold; calls.forM ReportCall.run; commit) s = (.ok (), t) ↔
      ∀ c ∈ calls, ∀ e, s.Files c e → ∀ f, e.file? = some f → s.HasFindings f) := by
  obtain ⟨es, hes, rfl⟩ := exec_calls.mp hdirect
  have hmem := mem_filings hes
  have hheld : (calls.forM ReportCall.run).exec (s.holding [] []) =
      (.ok (), s.holding ((es.filterMap Filing.violation?).map Prod.snd)
        ((es.filterMap Filing.measurement?).map Prod.snd)) :=
    exec_calls.mpr ⟨es, hes, foldl_file_holding s [] [] es⟩
  have hhold : hold.exec s = (.ok (), s.holding [] []) := Job.exec_modify _ s
  rw [foldl_file_of_none hbuffers, Filing.foldl_enter, Job.exec_bind_of_ok hhold,
    Job.exec_bind_of_ok hheld, exec_commit]
  refine ⟨hbuffers, ?_⟩
  constructor
  · rintro ⟨is, js, his, hjs, -⟩ c hc e he f hf
    have hfound : ∃ i, s.findingsOf e.location? = .ok i := by
      have hes : e ∈ es := (hmem e).mpr ⟨c, hc, he⟩
      cases e with
      | violation i v =>
        refine forall_of_mapM_ok his v (mem_map.mpr ⟨(i, v), ?_, rfl⟩)
        exact mem_filterMap.mpr ⟨_, hes, rfl⟩
      | measurement i x =>
        refine forall_of_mapM_ok hjs x (mem_map.mpr ⟨(i, x), ?_, rfl⟩)
        exact mem_filterMap.mpr ⟨_, hes, rfl⟩
    obtain ⟨i, hi⟩ := hfound
    obtain ⟨l, hl⟩ := he.location
    rw [Filing.file?, hl] at hf
    rw [hl] at hi
    exact hasFindings_of_findingsOf hi hf
  · intro hall
    have hplaced : ∀ e ∈ es, s.findingsOf e.location? = .ok e.place := by
      intro e he
      obtain ⟨c, hc, he⟩ := (hmem e).mp he
      exact he.findingsOf hs (hall c hc e he)
    have hviolations :
        ∀ p ∈ es.filterMap Filing.violation?, s.findingsOf p.2.location = .ok p.1 := by
      intro p hp
      obtain ⟨e, he, hp⟩ := mem_filterMap.mp hp
      cases e <;> cases hp
      exact hplaced _ he
    have hmeasurements : ∀ p ∈ es.filterMap Filing.measurement?,
        s.findingsOf p.2.location = .ok p.1 := by
      intro p hp
      obtain ⟨e, he, hp⟩ := mem_filterMap.mp hp
      cases e <;> cases hp
      exact hplaced _ he
    refine ⟨_, _, mapM_places hviolations, mapM_places hmeasurements, ?_⟩
    rw [← zip_of_prod rfl rfl, ← zip_of_prod rfl rfl, hbuffers]

/-! ## A file that the project does not list -/

/-- A package with a file, a node and a configuration, and a second package of the same name that
does not belong to the project. -/
def millModel : Model :=
  let file (name : String) (p : Ref .package) : SourceFile :=
    { name, directory := "src", package := p, packageName := "mill", fullName := "src/" ++ name
      folder := "", path := "", language := "cpp" }
  { projects := #[{ name := "farm", packages := [⟨0⟩], configurations := [⟨0⟩] }]
    packages := #[{ name := "mill", files := [⟨0⟩], nodes := [⟨0⟩] },
      { name := "mill", files := [⟨1⟩] }]
    files := #[file "wheel.cpp" ⟨0⟩, file "made.cpp" ⟨1⟩]
    nodes := #[{ name := "wheel", package := ⟨0⟩, packageName := "mill" }]
    configurations := #[{ name := "night" }]
    topics := #[{ configuration := ⟨0⟩, name := ⟨"flour", "/flour"⟩, guards := ⟨0⟩ }] }

theorem rooted_millModel : millModel.Rooted := by
  rintro ⟨k, n⟩ id hc hid
  cases k
  case topic =>
    cases hid
    cases n with
    | zero => exact .inr (by decide)
    | succ n => exact .inl rfl
  case inst | service | param =>
    cases hid
    exact .inl rfl
  case link => cases hid
  all_goals cases hc

def mill : Interface where
  model := millModel
  files := { entries := Table.empty }
  registry :=
    { rules := ⟨[("loose", { id := "loose", name := .null, scope := .null, description := .null
                             tags := .null })]⟩
      metrics := ⟨[("speed",
        { id := "speed", name := .null, scope := .null, description := .null })]⟩ }
  allowedRules := ["loose"]
  allowedMetrics := ["speed"]
  report := Report.make millModel ⟨0⟩ ""
  current := some 2

theorem orderly_mill : mill.Orderly :=
  orderly_focus (s := { mill with current := none }) rooted_millModel
    (Report.indexed_make millModel ⟨0⟩ "") (e := ⟨.configuration, 0⟩) (i := 2) rfl

def millCalls : List ReportCall :=
  [.violation "loose" .null (some (.entity ⟨.file, 0⟩)) { line := some 3 },
   .metric "speed" (.int 4) (some (.entity ⟨.node, 0⟩)) {},
   .violation "loose" .null (some (.entity ⟨.topic, 0⟩)) {},
   .runtime "loose" .null [.entity ⟨.topic, 0⟩]]

/-- None of these is about a file without findings, so all of them can wait. -/
theorem commit_eq_direct_mill :
    ∃ t, (millCalls.forM ReportCall.run).exec mill = (.ok (), t) ∧
      Job.exec (do hold; millCalls.forM ReportCall.run; commit) mill = (.ok (), t) ∧
      (t.report.store.toList.map fun f => (f.violations.length, f.metrics.length)) =
        [(0, 1), (1, 0), (2, 0), (0, 0)] := by
  have hdirect : (millCalls.forM ReportCall.run).exec mill =
    (.ok (), ((millCalls.forM ReportCall.run).exec mill).2) := rfl
  refine ⟨_, hdirect, (commit_eq_direct orderly_mill rfl hdirect).2.mpr ?_, rfl⟩
  intro c hc e he f hf
  have hfiling := filing_eq_some.mpr he
  simp only [millCalls, mem_cons, not_mem_nil, or_false] at hc
  rcases hc with rfl | rfl | rfl | rfl <;> cases hfiling <;> cases hf
  rfl

/-- The file of the second package is reported about in the findings of the first. Through the
buffers it cannot be. -/
theorem commit_ne_direct :
    let c : ReportCall := .violation "loose" .null (some (.entity ⟨.file, 1⟩)) { line := some 3 }
    mill.Orderly ∧ mill.buffers = {} ∧ (c.run.exec mill).1 = .ok () ∧
      ((c.run.exec mill).2.report.findingsAt 0).violations.length = 1 ∧
      (Job.exec (do hold; c.run; commit) mill).1 = .error .noField := by
  exact ⟨orderly_mill, rfl, rfl, rfl, rfl⟩

end Interface

end RosAudit
