import RosAudit.Proofs.Audit.Buffering
import RosAudit.Proofs.Audit.Registration

/-!
# What is left out stays out

Settings may leave out rules and metrics. The decision is taken when these are registered
(`Registration.screens_register`) and looked up each time something is reported.

`Interface.Guarded g s` says that what `g` leaves out has not got into the report or the buffers of
`s`, and that what may be reported is screened. Whatever plugins do keeps it : to report, to let
reports wait, to commit them, by turns and also where an act fails half-way (`keeping_act`,
`Guarded.after`).

The other direction is `Interface.Heeds` : a call that names a known rule or metric that is not left
out, in full or as the plugin's own, at a valid scope and on a line that is not ignored, is never
dropped. One thing more is in the report or the buffers then. Only the value of a metric can be
refused, and that is by a fault.
-/

namespace RosAudit

open List

/-! ## All that was reported -/

theorem flatMap_modify_perm {α β : Type} (parts : α → List β) {f bs}
    (hf : ∀ a, parts (f a) = parts a ++ bs) {l : List α} {i} (hi : i < l.length) :
    ((l.modify i f).flatMap parts).Perm (bs ++ l.flatMap parts) := by
  rw [modify_eq_take_cons_drop hi]
  conv_rhs => rw [← take_append_drop i l, drop_eq_getElem_cons hi]
  simp only [flatMap_append, flatMap_cons, hf, append_assoc]
  exact ((perm_append_comm_assoc ..).append_left _).trans (perm_append_comm_assoc ..)

variable {e : Filing}

namespace Report

variable {r : Report}

def violations (r : Report) : List Violation := r.store.toList.flatMap Findings.violations

def measurements (r : Report) : List Measurement := r.store.toList.flatMap Findings.metrics

theorem violations_enter (hi : e.place < r.store.size) :
    (e.enter r).violations.Perm (e.violations ++ r.violations) := by
  cases e <;> simp only [violations, Filing.enter, addViolation, addMeasurement,
    Array.toList_modify]
  · exact flatMap_modify_perm Findings.violations (fun _ => rfl) hi
  · refine flatMap_modify_perm Findings.violations (fun f => ?_) hi
    exact (append_nil f.violations).symm

theorem measurements_enter (hi : e.place < r.store.size) :
    (e.enter r).measurements.Perm (e.measurements ++ r.measurements) := by
  cases e <;> simp only [measurements, Filing.enter, addViolation, addMeasurement,
    Array.toList_modify]
  · refine flatMap_modify_perm Findings.metrics (fun f => ?_) hi
    exact (append_nil f.metrics).symm
  · exact flatMap_modify_perm Findings.metrics (fun _ => rfl) hi

theorem violations_make (m project timestamp) :
    (make m project timestamp).violations = [] ∧ (make m project timestamp).measurements = [] := by
  obtain ⟨r, hlists, hstore, -⟩ := lists_make m project timestamp
  simp [violations, measurements, hstore, hlists.store]

end Report

namespace Interface

def violations (s : Interface) : List Violation :=
  s.report.violations ++ s.buffers.violations.getD []

def measurements (s : Interface) : List Measurement :=
  s.report.measurements ++ s.buffers.metrics.getD []

theorem violations_file {s : Interface} (hi : e.place < s.report.store.size) :
    (s.file e).violations.Perm (e.violations ++ s.violations) := by
  rcases s.file_cases e with h | ⟨b, h, hb, -⟩ <;> rw [h, violations, violations, ← append_assoc]
  · exact (Report.violations_enter hi).append_right _
  · dsimp only
    rw [hb, ← append_assoc, append_assoc e.violations]
    exact perm_append_comm

theorem measurements_file {s : Interface} (hi : e.place < s.report.store.size) :
    (s.file e).measurements.Perm (e.measurements ++ s.measurements) := by
  rcases s.file_cases e with h | ⟨b, h, -, hb⟩ <;>
    rw [h, measurements, measurements, ← append_assoc]
  · exact (Report.measurements_enter hi).append_right _
  · dsimp only
    rw [hb, ← append_assoc, append_assoc e.measurements]
    exact perm_append_comm

end Interface

/-! ## What plugins can do -/

/-- Something that happens in an audit : a call by which a plugin reports, the buffers begin or end,
it is another plugin's turn, or other findings become the current ones. -/
inductive Act where
  | report (c : ReportCall)
  | hold
  | commit
  | enter (plugin : String)
  | turn (current : Option FindingsRef)

def Act.run : Act → Job Interface Unit
  | report c => c.run
  | hold => Interface.hold
  | commit => Interface.commit
  | enter plugin => modify fun s => { s with plugin }
  | turn current => modify fun s => { s with current }

namespace Interface

/-- The state after a sequence of acts. A failure ends an act, not the sequence. -/
def after (s : Interface) (acts : List Act) : Interface :=
  acts.foldl (fun s a => (a.run.exec s).2) s

/-- Nothing that is left out was reported, nor can be. -/
structure Guarded (g : Ignored) (s : Interface) : Prop where
  screens : Registration.Screens g s.registry s.allowedRules s.allowedMetrics
  indexed : s.report.Indexed s.model
  violations : ∀ v ∈ s.violations, ¬ g.CoversRule v.rule
  measurements : ∀ x ∈ s.measurements, ¬ g.CoversMetric x.metric

variable {g : Ignored} {s : Interface} {i : FindingsRef}

theorem not_covers_of_property {α : Type} {covers : α → Prop} {known : Table String α}
    {allowed : List String} (h : Screened covers known allowed) {id : String} {a : α}
    (hproperty : s.property known allowed id = .ok (some a)) : ¬ covers a := by
  unfold property at hproperty
  dsimp only at hproperty
  split at hproperty
  · cases hproperty
  · rename_i b hb
    rw [pure_eq_ok, Except.ok.injEq] at hproperty
    obtain ⟨hmem, hab⟩ := Option.ite_none_right_eq_some.mp hproperty
    cases hab
    exact (h.mem_iff _ _ hb).mp (contains_iff_mem.mp hmem)

/-- A scope is valid and its line is not ignored : there are findings about it, or about what it
belongs to. -/
structure Placed (s : Interface) (given : Option Item) (at_ : Spot) (e : Entity) (l : Location)
    (i : FindingsRef) : Prop where
  subject : s.subject given = .ok e
  known : (s.model.id? e).isSome = true
  noticed : ∀ id, s.model.id? e = some id → s.ignoresLine id at_.line = false
  location : locate s.model e at_ = .ok l
  findings : s.report.placeOf s.model e = some i ∨
    s.report.placeOf s.model e = none ∧ s.report.placeOf s.model l.largest = some i

theorem placing_iff_placed {given at_ e l} :
    s.placing given at_ = .ok (some (e, l, i)) ↔ s.Placed given at_ e l i := by
  rw [placing_eq_some]
  constructor
  · rintro ⟨he, id, hid, hline, hl, hi⟩
    refine ⟨he, Option.isSome_of_eq_some hid, fun id' hid' => ?_, hl, ?_⟩
    · cases hid.symm.trans hid'
      exact hline
    · rw [placeOf_of_id hid]
      exact findingsFor_eq_ok.mp hi
  · intro h
    obtain ⟨id, hid⟩ := Option.isSome_iff_exists.mp h.known
    refine ⟨h.subject, id, hid, h.noticed id hid, h.location, findingsFor_eq_ok.mpr ?_⟩
    rw [← placeOf_of_id hid]
    exact h.findings

section

variable {c : ReportCall} {e : Filing}

theorem Files.place_lt (h : s.report.Indexed s.model) (he : s.Files c e) :
    e.place < s.report.store.size := by
  have hplaced : ∀ {given at_ x l i}, s.placing given at_ = .ok (some (x, l, i)) →
      i < s.report.store.size := fun hplace =>
    (placing_iff_placed.mp hplace).findings.elim h.lt_of_placeOf fun hlarge =>
      h.lt_of_placeOf hlarge.2
  cases he with
  | violation hplace hrule => exact hplaced hplace
  | runtime hcurrent hscope hwithin hrule => exact Report.lt_of_scope hscope
  | metric hplace hmetric hvalue => exact hplaced hplace

/-- What is filed is not left out. -/
def Passes (g : Ignored) (e : Filing) : Prop :=
  (∀ v ∈ e.violations, ¬ g.CoversRule v.rule) ∧ ∀ x ∈ e.measurements, ¬ g.CoversMetric x.metric

theorem passes_violation {v} (h : ¬ g.CoversRule v.rule) : Passes g (.violation i v) :=
  ⟨forall_mem_singleton.mpr h, forall_mem_nil _⟩

theorem passes_measurement {x} (h : ¬ g.CoversMetric x.metric) : Passes g (.measurement i x) :=
  ⟨forall_mem_nil _, forall_mem_singleton.mpr h⟩

end

namespace Guarded

section

variable (h : s.Guarded g) {e : Filing}
include h

theorem enter (hi : e.place < s.report.store.size) (he : Passes g e) :
    Guarded g { s with report := e.enter s.report } where
  screens := h.screens
  indexed id j hj := by
    have hindex : (e.enter s.report).index = s.report.index := by cases e <;> rfl
    obtain ⟨x, hscope, hkept⟩ := h.indexed id j (hindex ▸ hj)
    exact ⟨x, (e.scope_enter s.report j).trans hscope, hkept⟩
  violations v hv := by
    have hperm := (Report.violations_enter hi).append_right (s.buffers.violations.getD [])
    rw [append_assoc] at hperm
    exact forall_mem_append.mpr ⟨he.1, h.violations⟩ v (hperm.mem_iff.mp hv)
  measurements x hx := by
    have hperm := (Report.measurements_enter hi).append_right (s.buffers.metrics.getD [])
    rw [append_assoc] at hperm
    exact forall_mem_append.mpr ⟨he.2, h.measurements⟩ x (hperm.mem_iff.mp hx)

theorem buffering {b} (hv : ∀ v ∈ b.violations.getD [], ¬ g.CoversRule v.rule)
    (hx : ∀ x ∈ b.metrics.getD [], ¬ g.CoversMetric x.metric) :
    Guarded g { s with buffers := b } where
  screens := h.screens
  indexed := h.indexed
  violations := forall_mem_append.mpr ⟨(forall_mem_append.mp h.violations).1, hv⟩
  measurements := forall_mem_append.mpr ⟨(forall_mem_append.mp h.measurements).1, hx⟩

theorem waitingViolations : ∀ v ∈ s.buffers.violations.getD [], ¬ g.CoversRule v.rule :=
  (forall_mem_append.mp h.violations).2

theorem waitingMetrics : ∀ x ∈ s.buffers.metrics.getD [], ¬ g.CoversMetric x.metric :=
  (forall_mem_append.mp h.measurements).2

theorem passes {c : ReportCall} (he : s.Files c e) : Passes g e := by
  cases he with
  | violation hplace hrule => exact passes_violation (not_covers_of_property h.screens.rules hrule)
  | runtime hcurrent hscope hwithin hrule =>
    exact passes_violation (not_covers_of_property h.screens.rules hrule)
  | metric hplace hmetric hvalue =>
    exact passes_measurement (not_covers_of_property h.screens.metrics hmetric)

theorem file {c} (he : s.Files c e) : (s.file e).Guarded g := by
  have hpasses := h.passes he
  rcases s.file_cases e with hfile | ⟨b, hfile, hv, hx⟩ <;> rw [hfile]
  · exact h.enter (he.place_lt h.indexed) hpasses
  · refine h.buffering ?_ ?_
    · rw [hv]
      exact forall_mem_append.mpr ⟨h.waitingViolations, hpasses.1⟩
    · rw [hx]
      exact forall_mem_append.mpr ⟨h.waitingMetrics, hpasses.2⟩

end

end Guarded

theorem keeping_report (c : ReportCall) : Job.Within (Job.Keeping (Guarded g)) c.run := by
  intro s hs
  rw [ReportCall.exec_run]
  cases hfiling : s.filing c with
  | error e => exact hs
  | ok o =>
    cases o with
    | none => exact hs
    | some e => exact hs.file (filing_eq_some.mp hfiling)

theorem keeping_settle {α : Type} {locate : α → Option Location}
    {add : Report → FindingsRef → α → Report} {as : List α}
    (hadd : ∀ a ∈ as, ∀ s i, Guarded g s → i < s.report.store.size →
      Guarded g { s with report := add s.report i a }) :
    Job.Within (Job.Keeping (Guarded g)) (settle locate add as) := by
  refine Job.chains_within.forIn (fun a ha _ => Job.within_keeping_get fun s hs => ?_) _
  cases hfound : s.findingsOf (locate a) with
  | error e => exact hs
  | ok i =>
    refine hadd a ha s i hs ?_
    cases hlocate : locate a with
    | none =>
      rw [hlocate] at hfound
      cases hfound
    | some l =>
      rw [hlocate] at hfound
      exact hs.indexed.lt_of_placeOf (findingsOf_eq_ok.mp hfound)

theorem keeping_commit : Job.Within (Job.Keeping (Guarded g)) commit := by
  refine Job.within_keeping_get fun s hs => ?_
  cases hbuffer : s.buffers.violations with
  | none => exact hs
  | some vs =>
    have hvs := hs.waitingViolations
    rw [hbuffer] at hvs
    refine Job.Within.bind (keeping_settle fun v hv s i hs hi =>
      hs.enter (e := .violation i v) hi (passes_violation (hvs v hv)))
      (fun _ => Job.Within.bind (Job.within_modify fun s hs => ?_) fun _ => ?_) s hs
    · exact hs.buffering (forall_mem_nil _) hs.waitingMetrics
    refine Job.within_keeping_get fun s hs => ?_
    cases hbuffer : s.buffers.metrics with
    | none => exact hs
    | some xs =>
      have hxs := hs.waitingMetrics
      rw [hbuffer] at hxs
      refine Job.Within.bind (keeping_settle fun x hx s i hs hi =>
        hs.enter (e := .measurement i x) hi (passes_measurement (hxs x hx)))
        (fun _ => Job.within_modify fun s hs => ?_) s hs
      exact hs.buffering hs.waitingViolations (forall_mem_nil _)

theorem keeping_act (a : Act) : Job.Within (Job.Keeping (Guarded g)) a.run := by
  cases a with
  | report c => exact keeping_report c
  | hold => exact fun s hs => hs.buffering (forall_mem_nil _) (forall_mem_nil _)
  | commit => exact keeping_commit
  | enter _ | turn _ => exact fun s hs => ⟨hs.screens, hs.indexed, hs.violations, hs.measurements⟩

theorem Guarded.after (h : s.Guarded g) (acts : List Act) : (s.after acts).Guarded g := by
  induction acts generalizing s with
  | nil => exact h
  | cons a acts ih => exact ih (keeping_act a s h)

end Interface

/-! ## What has to be recorded -/

def Metric.Admits (k : Metric) (v : Value) : Prop :=
  (∀ x, k.maximum = some x → Value.less (.float x) v = false) ∧
    ∀ x, k.minimum = some x → Value.less v (.float x) = false

/-- A value can be compared with the bounds of a metric : it is a number, or there are none. -/
def Metric.Compares (k : Metric) (v : Value) : Prop :=
  v.isNumber = true ∨ (k.minimum = none ∧ k.maximum = none)

namespace Interface

variable {g : Ignored} {s : Interface}

def outOfBounds (k : Metric) (v : Value) : Fault :=
  .invalidValue ("metric value outside bounds: " ++ k.id ++ ", " ++ v.display)

theorem exceeds_number {a b} (ha : a.isNumber = true) (hb : b.isNumber = true) :
    exceeds a b = .ok (Value.less b a) := by
  simp [exceeds, ha, hb, pure_eq_ok]

theorem exceeds_other {a b} (h : (a.isNumber && b.isNumber) = false) :
    exceeds a b = .error .wrongKind := by
  rw [exceeds, h]
  rfl

theorem checkValue_number (k : Metric) {v} (hv : v.isNumber = true) :
    checkValue k v =
      bif (k.maximum.any fun x => Value.less (.float x) v) ||
          k.minimum.any fun x => Value.less v (.float x)
      then .error (outOfBounds k v) else .ok () := by
  have hmax (x : Float) : exceeds v (.float x) = .ok (Value.less (.float x) v) :=
    exceeds_number hv rfl
  have hmin (x : Float) : exceeds (.float x) v = .ok (Value.less v (.float x)) :=
    exceeds_number rfl hv
  unfold checkValue
  cases k.maximum with
  | none =>
    cases k.minimum with
    | none => rfl
    | some y =>
      simp only [hmin, Option.any_some]
      cases Value.less v (.float y) <;> rfl
  | some x =>
    simp only [hmax, Option.any_some]
    cases Value.less (.float x) v with
    | true => rfl
    | false =>
      cases k.minimum with
      | none => rfl
      | some y =>
        simp only [hmin, Option.any_some]
        cases Value.less v (.float y) <;> rfl

/-- Values within the bounds pass, values out of bounds do not. What is no number cannot be compared
with a bound. -/
theorem checkValue_cases (k : Metric) (v : Value) :
    (k.Compares v ∧ k.Admits v ∧ checkValue k v = .ok ()) ∨
      (k.Compares v ∧ ¬ k.Admits v ∧ checkValue k v = .error (outOfBounds k v)) ∨
      (¬ k.Compares v ∧ checkValue k v = .error .wrongKind) := by
  by_cases hv : v.isNumber = true
  · have hadmits : k.Admits v ↔ ((k.maximum.any fun x => Value.less (.float x) v) ||
        k.minimum.any fun x => Value.less v (.float x)) = false := by
      unfold Metric.Admits
      cases k.maximum <;> cases k.minimum <;> simp
    rw [checkValue_number k hv, hadmits]
    cases (k.maximum.any fun x => Value.less (.float x) v) ||
        k.minimum.any fun x => Value.less v (.float x) with
    | true => exact .inr (.inl ⟨.inl hv, by decide, rfl⟩)
    | false => exact .inl ⟨.inl hv, rfl, rfl⟩
  · have hcompares : k.Compares v ↔ k.minimum = none ∧ k.maximum = none := by
      simp [Metric.Compares, hv]
    rw [hcompares]
    unfold checkValue Metric.Admits
    have hmax (x : Float) : exceeds v (.float x) = .error .wrongKind := exceeds_other (by simp [hv])
    have hmin (x : Float) : exceeds (.float x) v = .error .wrongKind := exceeds_other (by simp [hv])
    cases k.maximum with
    | none =>
      cases k.minimum with
      | none => exact .inl ⟨⟨rfl, rfl⟩, by simp, rfl⟩
      | some y =>
        simp only [hmin]
        exact .inr (.inr ⟨by simp, rfl⟩)
    | some x =>
      simp only [hmax]
      exact .inr (.inr ⟨by simp, rfl⟩)

/-- An identifier names a thing for the plugin whose turn it is : in full, or without the name of
the plugin if nothing has the short identifier. -/
def Named {α : Type} (s : Interface) (known : Table String α) (id : String) (a : α) : Prop :=
  known.get? id = some a ∨ known.get? id = none ∧ known.get? (s.plugin ++ ":" ++ id) = some a

theorem Named.property {α : Type} {covers : α → Prop} {known : Table String α}
    {allowed : List String}
    (h : Screened covers known allowed) {id : String} {a : α} (hnamed : s.Named known id a)
    (ha : ¬ covers a) : s.property known allowed id = .ok (some a) := by
  unfold Interface.property
  dsimp only
  rcases hnamed with hget | ⟨hnone, hget⟩
  · have hmem := contains_iff_mem.mpr ((h.mem_iff _ _ hget).mpr ha)
    rw [Table.contains, hget, Option.isSome_some, if_pos rfl, hget, hmem]
    rfl
  · have hmem := contains_iff_mem.mpr ((h.mem_iff _ _ hget).mpr ha)
    rw [Table.contains, hnone, Option.isSome_none, if_neg Bool.false_ne_true, hget, hmem]
    rfl

/-- The call files something, and there is one thing more in the report and the buffers. -/
def Records (s : Interface) (c : ReportCall) (e : Filing) : Prop :=
  c.run.exec s = (.ok (), s.file e) ∧
    match e with
    | .violation _ v => (s.file e).violations.Perm (v :: s.violations)
    | .measurement _ x => (s.file e).measurements.Perm (x :: s.measurements)

theorem Files.records (h : s.report.Indexed s.model) {c e} (he : s.Files c e) : s.Records c e := by
  constructor
  · rw [ReportCall.exec_run, filing_eq_some.mpr he]
    rfl
  · have hi := he.place_lt h
    cases he with
    | violation hplace hrule => exact violations_file hi
    | runtime hcurrent hscope hwithin hrule => exact violations_file hi
    | metric hplace hmetric hvalue => exact measurements_file hi

/-- No call is dropped that names something known that is not left out, at a valid scope. A
violation is recorded. So is a value within the bounds of its metric ; any other value is refused by
a fault, and nothing changes. -/
structure Heeds (g : Ignored) (s : Interface) : Prop where
  violation {id : String} {rule : Rule} {scope : Option Item} {at_ : Spot} {e : Entity}
    {l : Location} {i : FindingsRef} (details : Value) :
    s.Named s.registry.rules id rule → ¬ g.CoversRule rule → s.Placed scope at_ e l i →
    s.Records (.violation id details scope at_)
      (.violation i { rule, location := some l, details, affected := [.entity e] })
  runtime {id : String} {rule : Rule} {resources : List Item} {c : Ref .configuration}
    {i : FindingsRef} (details : Value) : s.Named s.registry.rules id rule → ¬ g.CoversRule rule →
    s.current = some i → (s.report.findingsAt i).scope = some c.entity →
    (∀ x ∈ resources, ∃ e, x = .entity e ∧ s.model.configurationOf? e = some c) →
    s.Records (.runtime id details resources)
      (.violation i { rule, location := some (.runtime c), details
                      affected := .entity c.entity :: resources })
  metric {id : String} {metric : Metric} {scope : Option Item} {at_ : Spot} {e : Entity}
    {l : Location} {i : FindingsRef} (value : Value) : s.Named s.registry.metrics id metric →
    ¬ g.CoversMetric metric → s.Placed scope at_ e l i →
    (metric.Compares value ∧ metric.Admits value ∧ s.Records (.metric id value scope at_)
      (.measurement i { metric, location := some l, value })) ∨
    (metric.Compares value ∧ ¬ metric.Admits value ∧
      (ReportCall.metric id value scope at_).run.exec s = (.error (outOfBounds metric value), s)) ∨
    (¬ metric.Compares value ∧
      (ReportCall.metric id value scope at_).run.exec s = (.error .wrongKind, s))

theorem Guarded.heeds (h : s.Guarded g) : s.Heeds g where
  violation details hnamed hrule hplaced :=
    Files.records h.indexed
      (.violation (placing_iff_placed.mpr hplaced) (hnamed.property h.screens.rules hrule))
  runtime {id rule resources c i} details hnamed hrule hcurrent hscope hwithin := by
    refine Files.records h.indexed
      (.runtime hcurrent hscope ?_ (hnamed.property h.screens.rules hrule))
    rw [all_eq_true]
    intro x hx
    obtain ⟨e, rfl, he⟩ := hwithin x hx
    simp [isWithin, he]
  metric {id metric scope at_ e l i} value hnamed hmetric hplaced := by
    have hproperty := hnamed.property h.screens.metrics hmetric
    have hrefused : ∀ f, checkValue metric value = .error f →
        (ReportCall.metric id value scope at_).run.exec s = (.error f, s) := by
      intro f hf
      have hfiling : s.filing (.metric id value scope at_) = .error f := by
        rw [filing, (placing_iff_placed.mpr hplaced), ok_bind]
        dsimp only
        rw [hproperty, ok_bind]
        dsimp only
        rw [hf]
        rfl
      rw [ReportCall.exec_run, hfiling]
      rfl
    rcases checkValue_cases metric value with ⟨hc, ha, hok⟩ | ⟨hc, ha, herr⟩ | ⟨hc, herr⟩
    · exact .inl ⟨hc, ha,
        Files.records h.indexed (.metric (placing_iff_placed.mpr hplaced) hproperty hok)⟩
    · exact .inr (.inl ⟨hc, ha, hrefused _ herr⟩)
    · exact .inr (.inr ⟨hc, hrefused _ herr⟩)

/-- What is left out never gets into a report or a buffer, and all else that is reported does. -/
theorem ignored_never_reported {g : Ignored} {xs : List Registration} {rules metrics : List String}
    {registry : Registry}
    (hregister : (Registration.runAll g xs).exec {} = (.ok (rules, metrics), registry))
    (hrules : (xs.flatMap Registration.ruleIds).Nodup)
    (hmetrics : (xs.flatMap Registration.metricIds).Nodup) {s : Interface} {project : Ref .project}
    {timestamp : String} (hregistry : s.registry = registry) (hallowedRules :
      s.allowedRules = rules)
    (hallowedMetrics : s.allowedMetrics = metrics)
    (hreport : s.report = Report.make s.model project timestamp) (hbuffers : s.buffers = {})
    (acts : List Act) :
    (∀ v ∈ (s.after acts).violations, ¬ g.CoversRule v.rule) ∧
      (∀ x ∈ (s.after acts).measurements, ¬ g.CoversMetric x.metric) ∧ (s.after acts).Heeds g := by
  subst hregistry hallowedRules hallowedMetrics
  obtain ⟨hnoViolations, hnoMeasurements⟩ := Report.violations_make s.model project timestamp
  have hstart : s.Guarded g := by
    refine ⟨Registration.screens_register hregister hrules hmetrics, ?_, ?_, ?_⟩
    · rw [hreport]
      exact Report.indexed_make s.model project timestamp
    · rw [violations, hreport, hnoViolations, hbuffers]
      exact forall_mem_nil _
    · rw [measurements, hreport, hnoMeasurements, hbuffers]
      exact forall_mem_nil _
  have h := hstart.after acts
  exact ⟨h.violations, h.measurements, h.heeds⟩

/-! ## A plugin with rules of its own -/

def ruleData (tags : List String) : Value :=
  .object [("name", .null), ("description", .null), ("tags", .texts tags)]

/-- Common rules, of which one has an ignored tag and one an ignored name, and the rule and the
metric of a plugin. -/
def millDefinitions : List Registration :=
  [.rules "" (.object [("loose", ruleData ["style", "code"]), ("old", ruleData [])]),
   .rules "grinder:" (.object [("dull", ruleData ["code"])]),
   .metrics "grinder:" (.object [("speed", .object [("name", .null), ("description", .null)])])]

def millIgnored : Ignored := { rules := .text "old", tags := .text "style" }

def millAudit : Interface :=
  { mill with registry := ((Registration.runAll millIgnored millDefinitions).exec {}).2
              allowedRules := ["grinder:dull"], allowedMetrics := ["grinder:speed"] }

/-- The plugin reports each rule, some of them while reports wait. -/
def millActs : List Act :=
  let node : Option Item := some (.entity ⟨.node, 0⟩)
  [.enter "grinder", .report (.violation "loose" .null node {}), .hold,
   .report (.violation "old" .null node {}), .report (.violation "dull" .null node {}), .commit,
   .report (.metric "speed" (.int 4) none {})]

theorem ignored_never_reported_mill :
    (Registration.runAll millIgnored millDefinitions).exec {} =
        (.ok (millAudit.allowedRules, millAudit.allowedMetrics), millAudit.registry) ∧
      (millDefinitions.flatMap Registration.ruleIds).Nodup ∧
      (∀ v ∈ (millAudit.after millActs).violations, ¬ millIgnored.CoversRule v.rule) ∧
      (millAudit.after millActs).violations.map (·.rule.id) = ["grinder:dull"] ∧
      (millAudit.after millActs).measurements.map (·.metric.id) = ["grinder:speed"] := by
  have hregister : (Registration.runAll millIgnored millDefinitions).exec {} =
    (.ok (["grinder:dull"], ["grinder:speed"]), millAudit.registry) := rfl
  have hrules : (millDefinitions.flatMap Registration.ruleIds).Nodup := by decide +kernel
  have hmetrics : (millDefinitions.flatMap Registration.metricIds).Nodup := by decide +kernel
  exact ⟨hregister, hrules, (ignored_never_reported hregister hrules hmetrics rfl rfl rfl rfl rfl
    millActs).1, rfl, rfl⟩

end Interface

end RosAudit
