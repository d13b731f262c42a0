import RosAudit.Audit.Interface
import RosAudit.Proofs.Job
import RosAudit.Proofs.Model.Quiet

/-!
# What a report files

A call by which a plugin reports does two things. It reads the interface to settle what there is to
file and with which findings (`Interface.filing`), and then files it (`Interface.file`) : in the
buffer if one is active, else with the findings. `ReportCall.exec_run` says that a call is no more
than this, and `exec_calls` the same of a sequence of calls.

What is filed changes nothing that a later call reads (`sameOutlook_file`, `SameOutlook.filing`), so
what a sequence of calls files can be told from the state in which it begins. `Files` says which
call files what, without the order in which the code asks.
-/

namespace RosAudit

/-- A call by which a plugin reports something. -/
inductive ReportCall where
  | violation (id : String) (details : Value) (scope : Option Item) (at_ : Interface.Spot)
  | runtime (id : String) (details : Value) (resources : List Item)
  | metric (id : String) (value : Value) (scope : Option Item) (at_ : Interface.Spot)

/-- Carries out a call. -/
def ReportCall.run : ReportCall → Job Interface Unit
  | .violation id details scope at_ => Interface.reportViolation id details scope at_
  | .runtime id details resources => Interface.reportRuntime id details resources
  | .metric id value scope at_ => Interface.reportMetric id value scope at_

/-- Something to be filed, and the findings to which it belongs. -/
inductive Filing where
  | violation (place : FindingsRef) (v : Violation)
  | measurement (place : FindingsRef) (x : Measurement)

namespace Filing

def place : Filing → FindingsRef
  | violation i _ => i
  | measurement i _ => i

def location? : Filing → Option Location
  | violation _ v => v.location
  | measurement _ x => x.location

def enter (r : Report) : Filing → Report
  | violation i v => r.addViolation i v
  | measurement i x => r.addMeasurement i x

def violations : Filing → List Violation
  | violation _ v => [v]
  | measurement _ _ => []

def measurements : Filing → List Measurement
  | violation _ _ => []
  | measurement _ x => [x]

theorem scope_enter (e : Filing) (r : Report) (j) :
    ((e.enter r).findingsAt j).scope = (r.findingsAt j).scope := by
  cases e <;> exact view_getD_modify _ _ Findings.scope (by simp) _ j

end Filing

theorem Job.exec_bind_of_reading {σ α β γ : Type} {j : Job σ α} {f s r g}
    (F : Result γ → Result β × σ) (hF : ∀ e, F (.error e) = (.error e, s)) (hj : j.exec s = (r, s))
    (hf : ∀ a, (f a).exec s = F (g a)) : (j >>= f).exec s = F (r >>= g) := by
  rw [exec_bind, hj]
  cases r with
  | error e => exact (hF e).symm
  | ok a => exact hf a

namespace Interface

/-! ## What there is to file -/

def currentScope? (s : Interface) : Result (Option Entity) :=
  match s.current with
  | none => throw .noField
  | some i => pure (s.report.findingsAt i).scope

/-- The object that a report is about. -/
def subject (s : Interface) (given : Option Item) : Result Entity := do
  match given.filter counts with
  | some (.entity e) => pure e
  | none =>
    match ← s.currentScope? with
    | some e => pure e
    | none => throw .noField
  | some _ => throw .noField

/-- The place of a report : its object, its location and its findings. Nothing if the line is
ignored. -/
def placing (s : Interface) (given : Option Item) (at_ : Spot) :
    Result (Option (Entity × Location × FindingsRef)) := do
  let e ← s.subject given
  let id ← scopeId s.model e
  if s.ignoresLine id at_.line then return none
  let l ← locate s.model e at_
  let i ← s.findingsFor id l
  return some (e, l, i)

/-- What a call has to file. Nothing if the line is ignored or the property may not be reported. -/
def filing (s : Interface) : ReportCall → Result (Option Filing)
  | .violation id details scope at_ => do
    match ← s.placing scope at_ with
    | none => pure none
    | some (e, l, i) =>
      let rule? ← s.property s.registry.rules s.allowedRules id
      pure (rule?.map fun rule =>
        .violation i { rule, location := some l, details, affected := [.entity e] })
  | .runtime id details resources => do
    match ← s.currentScope?, s.current with
    | some ⟨.configuration, c⟩, some i =>
      if resources.all (isWithin s.model ⟨c⟩) then
        let rule? ← s.property s.registry.rules s.allowedRules id
        pure (rule?.map fun rule =>
          .violation i { rule, location := some (.runtime ⟨c⟩), details
                         affected := .entity ⟨.configuration, c⟩ :: resources })
      else throw (.scope .foreignResource)
    | _, _ => throw (.scope .notAConfiguration)
  | .metric id value scope at_ => do
    match ← s.placing scope at_ with
    | none => pure none
    | some (_, l, i) =>
      match ← s.property s.registry.metrics s.allowedMetrics id with
      | none => pure none
      | some metric =>
        checkValue metric value
        pure (some (.measurement i { metric, location := some l, value }))

/-- Files something : in the buffer of its kind if there is one, else with the findings. -/
def file (s : Interface) : Filing → Interface
  | .violation i v =>
    match s.buffers.violations with
    | some vs => { s with buffers := { s.buffers with violations := some (vs ++ [v]) } }
    | none => { s with report := s.report.addViolation i v }
  | .measurement i x =>
    match s.buffers.metrics with
    | some xs => { s with buffers := { s.buffers with metrics := some (xs ++ [x]) } }
    | none => { s with report := s.report.addMeasurement i x }

section File

variable {s : Interface} {i : FindingsRef}

theorem file_violation_of_some {vs} (h : s.buffers.violations = some vs) (v : Violation) :
    s.file (.violation i v) =
      { s with buffers := { s.buffers with violations := some (vs ++ [v]) } } := by
  rw [file, h]

theorem file_violation_of_none (h : s.buffers.violations = none) (v : Violation) :
    s.file (.violation i v) = { s with report := s.report.addViolation i v } := by
  rw [file, h]

theorem file_measurement_of_some {xs} (h : s.buffers.metrics = some xs) (x) :
    s.file (.measurement i x) =
      { s with buffers := { s.buffers with metrics := some (xs ++ [x]) } } := by
  rw [file, h]

theorem file_measurement_of_none (h : s.buffers.metrics = none) (x) :
    s.file (.measurement i x) = { s with report := s.report.addMeasurement i x } := by
  rw [file, h]

/-- What is filed goes into the report, or to the end of what waits. -/
theorem file_cases (s : Interface) (e : Filing) :
    s.file e = { s with report := e.enter s.report } ∨
      ∃ b : Buffers, s.file e = { s with buffers := b } ∧
        b.violations.getD [] = s.buffers.violations.getD [] ++ e.violations ∧
        b.metrics.getD [] = s.buffers.metrics.getD [] ++ e.measurements := by
  cases e with
  | violation i v =>
    cases hbuffer : s.buffers.violations with
    | none => exact .inl (file_violation_of_none hbuffer v)
    | some vs => exact .inr ⟨_, file_violation_of_some hbuffer v, rfl, (List.append_nil _).symm⟩
  | measurement i x =>
    cases hbuffer : s.buffers.metrics with
    | none => exact .inl (file_measurement_of_none hbuffer x)
    | some xs => exact .inr ⟨_, file_measurement_of_some hbuffer x, (List.append_nil _).symm, rfl⟩

end File

def fileAny (s : Interface) (e : Option Filing) : Interface := e.elim s s.file

/-! ## What a call does -/

theorem exec_currentScope (s : Interface) : currentScope.exec s = (s.currentScope?, s) := by
  unfold currentScope currentScope?
  rw [Job.exec_bind_of_ok (Job.exec_get s)]
  cases s.current <;> rfl

theorem exec_scopeOr (given s) : (scopeOr given).exec s = (s.subject given, s) := by
  have hcurrent : (do
      match ← currentScope with
      | some e => pure e
      | none => throw Fault.noField : Job Interface Entity).exec s = (s.subject none, s) :=
    Job.exec_bind_of_reading (Prod.mk · s) (fun _ => rfl) (exec_currentScope s)
      fun scope => by cases scope <;> rfl
  unfold scopeOr subject
  cases given.filter counts with
  | none => exact hcurrent
  | some x => cases x <;> rfl

theorem exec_place (given at_ s) : (place given at_).exec s = (s.placing given at_, s) := by
  have step {α β : Type} {j : Job Interface α} {f : α → Job Interface β} {r : Result α}
      {g : α → Result β} := Job.exec_bind_of_reading (j := j) (f := f) (r := r) (g := g)
        (Prod.mk · s) (fun _ => rfl)
  refine step (exec_scopeOr given s) fun e => ?_
  refine step (Job.exec_ofResult _ s) fun id => ?_
  split
  · rfl
  · exact step (Job.exec_ofResult _ s) fun l => step (Job.exec_ofResult _ s) fun i => rfl

theorem scopeId_eq_ok {m e id} : scopeId m e = .ok id ↔ m.id? e = some id := by
  unfold scopeId
  cases m.id? e <;> simp [pure_eq_ok]

/-- The object of a report is known, and its line is ignored. -/
def IgnoresAt (s : Interface) (given : Option Item) (at_ : Spot) : Prop :=
  ∃ e id, s.subject given = .ok e ∧ s.model.id? e = some id ∧ s.ignoresLine id at_.line = true

variable {s : Interface}

theorem placing_cases {given at_ o} (h : s.placing given at_ = .ok o) :
    (o = none ∧ s.IgnoresAt given at_) ∨ ∃ e l i, o = some (e, l, i) ∧ s.subject given = .ok e ∧
      ∃ id, s.model.id? e = some id ∧ s.ignoresLine id at_.line = false ∧
        locate s.model e at_ = .ok l ∧ s.findingsFor id l = .ok i := by
  obtain ⟨e, he, h⟩ := bind_eq_ok.mp h
  obtain ⟨id, hid, h⟩ := bind_eq_ok.mp h
  split at h
  · rename_i hline
    cases h
    exact .inl ⟨rfl, e, id, he, scopeId_eq_ok.mp hid, hline⟩
  · rename_i hline
    obtain ⟨l, hl, h⟩ := bind_eq_ok.mp h
    obtain ⟨i, hi, h⟩ := bind_eq_ok.mp h
    cases h
    exact .inr ⟨e, l, i, rfl, he, id, scopeId_eq_ok.mp hid, Bool.eq_false_iff.mpr hline, hl, hi⟩

/-- A report has a place if it is about an object with an identifier and a location, its line is
not ignored, and there are findings for it. -/
theorem placing_eq_some {given at_ e l i} : s.placing given at_ = .ok (some (e, l, i)) ↔
      s.subject given = .ok e ∧ ∃ id, s.model.id? e = some id ∧ s.ignoresLine id at_.line = false ∧
        locate s.model e at_ = .ok l ∧ s.findingsFor id l = .ok i := by
  constructor
  · intro h
    rcases placing_cases h with ⟨hnone, -⟩ | ⟨e', l', i', hsome, hplace⟩
    · cases hnone
    · cases hsome
      exact hplace
  · rintro ⟨he, id, hid, hline, hl, hi⟩
    rw [placing, he, ok_bind, scopeId_eq_ok.mpr hid, ok_bind, hline, hl, ok_bind, hi]
    rfl

/-- A call files something : it has a place, and names a property that may be reported. -/
inductive Files (s : Interface) : ReportCall → Filing → Prop
  | violation {id : String} {details : Value} {scope : Option Item} {at_ : Spot} {e : Entity}
      {l : Location} {i : FindingsRef} {rule : Rule}
      (hplace : s.placing scope at_ = .ok (some (e, l, i)))
      (hrule : s.property s.registry.rules s.allowedRules id = .ok (some rule)) :
      Files s (.violation id details scope at_)
        (.violation i { rule, location := some l, details, affected := [.entity e] })
  | runtime {id : String} {details : Value} {resources : List Item} {c : Nat} {i : FindingsRef}
      {rule : Rule} (hcurrent : s.current = some i)
      (hscope : (s.report.findingsAt i).scope = some ⟨.configuration, c⟩)
      (hwithin : resources.all (isWithin s.model ⟨c⟩) = true)
      (hrule : s.property s.registry.rules s.allowedRules id = .ok (some rule)) :
      Files s (.runtime id details resources)
        (.violation i { rule, location := some (.runtime ⟨c⟩), details
                        affected := .entity ⟨.configuration, c⟩ :: resources })
  | metric {id : String} {value : Value} {scope : Option Item} {at_ : Spot} {e : Entity}
      {l : Location} {i : FindingsRef} {metric : Metric}
      (hplace : s.placing scope at_ = .ok (some (e, l, i)))
      (hmetric : s.property s.registry.metrics s.allowedMetrics id = .ok (some metric))
      (hvalue : checkValue metric value = .ok ()) :
      Files s (.metric id value scope at_) (.measurement i { metric, location := some l, value })

/-- The line of a call is ignored, or its rule or metric may not be reported. -/
def Skips (s : Interface) : ReportCall → Prop
  | .violation id _ scope at_ =>
    s.IgnoresAt scope at_ ∨ s.property s.registry.rules s.allowedRules id = .ok none
  | .runtime id _ _ => s.property s.registry.rules s.allowedRules id = .ok none
  | .metric id _ scope at_ =>
    s.IgnoresAt scope at_ ∨ s.property s.registry.metrics s.allowedMetrics id = .ok none

theorem filing_cases {c o} (h : s.filing c = .ok o) :
    (o = none ∧ s.Skips c) ∨ ∃ e, o = some e ∧ s.Files c e := by
  cases c with
  | violation id details scope at_ =>
    obtain ⟨found, hfound, h⟩ := bind_eq_ok.mp h
    rcases placing_cases hfound with ⟨rfl, hignored⟩ | ⟨x, l, i, rfl, -⟩
    · cases h
      exact .inl ⟨rfl, .inl hignored⟩
    · obtain ⟨rule, hrule, h⟩ := bind_eq_ok.mp h
      cases rule <;> cases h
      · exact .inl ⟨rfl, .inr hrule⟩
      · exact .inr ⟨_, rfl, .violation hfound hrule⟩
  | runtime id details resources =>
    obtain ⟨scope, hscope, h⟩ := bind_eq_ok.mp h
    split at h
    · rename_i c i hcurrent
      split at h
      · rename_i hwithin
        obtain ⟨rule, hrule, h⟩ := bind_eq_ok.mp h
        cases rule <;> cases h
        · exact .inl ⟨rfl, hrule⟩
        · rw [currentScope?, hcurrent] at hscope
          exact .inr ⟨_, rfl, .runtime hcurrent (Except.ok.inj hscope) hwithin hrule⟩
      · cases h
    · cases h
  | metric id value scope at_ =>
    obtain ⟨found, hfound, h⟩ := bind_eq_ok.mp h
    rcases placing_cases hfound with ⟨rfl, hignored⟩ | ⟨x, l, i, rfl, -⟩
    · cases h
      exact .inl ⟨rfl, .inl hignored⟩
    · obtain ⟨metric, hmetric, h⟩ := bind_eq_ok.mp h
      cases metric with
      | none =>
        cases h
        exact .inl ⟨rfl, .inr hmetric⟩
      | some metric =>
        obtain ⟨⟨⟩, hvalue, h⟩ := bind_eq_ok.mp h
        cases h
        exact .inr ⟨_, rfl, .metric hfound hmetric hvalue⟩

theorem filing_eq_some {c e} : s.filing c = .ok (some e) ↔ s.Files c e := by
  constructor
  · intro h
    rcases filing_cases h with ⟨hnone, -⟩ | ⟨e', hsome, he'⟩
    · cases hnone
    · cases hsome
      exact he'
  · intro h
    cases h with
    | violation hplace hrule =>
      rw [filing, hplace]
      rw [hrule]
      rfl
    | @runtime _ _ _ c i _ hcurrent hscope hwithin hrule =>
      have hnow : s.currentScope? = .ok (some ⟨.configuration, c⟩) := by
        rw [currentScope?, hcurrent]
        exact congrArg Except.ok hscope
      rw [filing, hnow, hcurrent, ok_bind]
      dsimp only
      rw [if_pos hwithin, hrule]
      rfl
    | metric hplace hmetric hvalue =>
      rw [filing, hplace, ok_bind]
      dsimp only
      rw [hmetric, ok_bind]
      dsimp only
      rw [hvalue]
      rfl

/-- What comes of a call : a fault, or the interface with what there is to file. -/
def filed (s : Interface) : Result (Option Filing) → Result Unit × Interface
  | .error f => (.error f, s)
  | .ok e => (.ok (), s.fileAny e)

end Interface

open Interface

theorem ReportCall.exec_run (c : ReportCall) (s : Interface) :
    c.run.exec s = s.filed (s.filing c) := by
  have step {α : Type} {j : Job Interface α} {f : α → Job Interface Unit} {r : Result α}
      {g : α → Result (Option Filing)} :=
        Job.exec_bind_of_reading (j := j) (f := f) (r := r) (g := g) s.filed (fun _ => rfl)
  cases c with
  | violation id details scope at_ =>
    refine step (exec_place scope at_ s) fun found => ?_
    rcases found with _ | ⟨e, l, i⟩
    · rfl
    · refine (Job.exec_bind_of_ok (Job.exec_get s)).trans
        (step (Job.exec_ofResult _ s) fun rule => ?_)
      cases rule <;> rfl
  | runtime id details resources =>
    refine step (exec_currentScope s) fun scope => ?_
    rw [Job.exec_bind_of_ok (Job.exec_get s)]
    rcases scope with _ | ⟨kind, c⟩
    · rfl
    cases kind with
    | configuration =>
      cases s.current with
      | none => rfl
      | some i =>
        dsimp only
        cases resources.all (isWithin s.model ⟨c⟩) with
        | false => rfl
        | true =>
          refine step (Job.exec_ofResult (s.property s.registry.rules s.allowedRules id) s)
            fun rule => ?_
          cases rule <;> rfl
    | _ => rfl
  | metric id value scope at_ =>
    refine step (exec_place scope at_ s) fun found => ?_
    rcases found with _ | ⟨e, l, i⟩
    · rfl
    · refine (Job.exec_bind_of_ok (Job.exec_get s)).trans
        (step (Job.exec_ofResult _ s) fun metric => ?_)
      cases metric with
      | none => rfl
      | some metric => exact step (Job.exec_ofResult _ s) fun _ => rfl

/-! ## A sequence of calls -/

namespace Interface

/-- Two states are alike in all that a call reads. -/
structure SameOutlook (s s' : Interface) : Prop where
  model : s'.model = s.model
  registry : s'.registry = s.registry
  allowedRules : s'.allowedRules = s.allowedRules
  allowedMetrics : s'.allowedMetrics = s.allowedMetrics
  ignoredLines : s'.ignoredLines = s.ignoredLines
  current : s'.current = s.current
  plugin : s'.plugin = s.plugin
  index : s'.report.index = s.report.index
  scope : s'.currentScope? = s.currentScope?

namespace SameOutlook

variable {s s' : Interface}

theorem refl (s : Interface) : SameOutlook s s :=
  ⟨rfl, rfl, rfl, rfl, rfl, rfl, rfl, rfl, rfl⟩

section

variable (h : SameOutlook s s')
include h

theorem placeOf (e : Entity) : s'.report.placeOf s'.model e = s.report.placeOf s.model e := by
  rw [Report.placeOf, Report.placeOf, h.model, h.index]

theorem findingsFor (id : String) (l : Location) : s'.findingsFor id l = s.findingsFor id l := by
  rw [Interface.findingsFor, Interface.findingsFor, h.index, h.placeOf]

theorem property {α : Type} (known : Table String α) (allowed : List String) (id : String) :
    s'.property known allowed id = s.property known allowed id := by
  rw [Interface.property, Interface.property, h.plugin]

theorem placing (given at_) : s'.placing given at_ = s.placing given at_ := by
  have hsubject : s'.subject given = s.subject given := by
    unfold subject
    rw [h.scope]
  have hignores : ∀ id, s'.ignoresLine id at_.line = s.ignoresLine id at_.line := by
    intro id
    rw [ignoresLine, ignoresLine, h.ignoredLines]
  unfold Interface.placing
  simp only [hsubject, hignores, h.model, h.findingsFor]

theorem filing (c : ReportCall) : s'.filing c = s.filing c := by
  cases c with
  | violation id details scope at_ =>
    simp only [Interface.filing, h.placing, h.property, h.registry, h.allowedRules]
  | runtime id details resources =>
    simp only [Interface.filing, h.scope, h.current, h.model, h.property, h.registry,
      h.allowedRules]
  | metric id value scope at_ =>
    simp only [Interface.filing, h.placing, h.property, h.registry, h.allowedMetrics]

end

end SameOutlook

theorem sameOutlook_file (s : Interface) (e : Filing) : SameOutlook s (s.file e) := by
  rcases s.file_cases e with h | ⟨b, h, -⟩ <;> rw [h]
  · refine ⟨rfl, rfl, rfl, rfl, rfl, rfl, rfl, by cases e <;> rfl, ?_⟩
    simp only [currentScope?, Filing.scope_enter]
  · exact ⟨rfl, rfl, rfl, rfl, rfl, rfl, rfl, rfl, rfl⟩

theorem sameOutlook_fileAny (s e) : SameOutlook s (s.fileAny e) := by
  cases e with
  | none => exact .refl s
  | some e => exact s.sameOutlook_file e

def filings (s : Interface) (calls : List ReportCall) : Result (List Filing) :=
  (calls.mapM s.filing).map (List.filterMap id)

theorem SameOutlook.filings {s s'} (h : SameOutlook s s') (calls) :
    s'.filings calls = s.filings calls := by
  unfold Interface.filings
  rw [funext h.filing]

theorem exec_calls {calls : List ReportCall} {s t : Interface} :
    (calls.forM ReportCall.run).exec s = (.ok (), t) ↔
      ∃ es, s.filings calls = .ok es ∧ es.foldl file s = t := by
  induction calls generalizing s with
  | nil => simp [filings, Except.map, pure_eq_ok]
  | cons c calls ih =>
    change (c.run >>= fun _ => calls.forM ReportCall.run).exec s = _ ↔ _
    rw [Job.exec_bind, ReportCall.exec_run]
    cases hc : s.filing c with
    | error f => simp [filings, hc, filed, Except.map, bind, Except.bind]
    | ok e =>
      refine ih.trans ?_
      rw [(s.sameOutlook_fileAny e).filings, filings, filings, List.mapM_cons, hc]
      cases calls.mapM s.filing with
      | error f => simp [Except.map, bind, Except.bind]
      | ok es => cases e <;> simp [Except.map, ok_bind, pure_eq_ok, fileAny]

end Interface

end RosAudit
