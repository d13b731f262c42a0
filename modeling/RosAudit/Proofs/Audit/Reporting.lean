import RosAudit.Proofs.Audit.Filing

/-!
# Jobs that only report

While reports wait, a job that only reports leaves everything as it is but the reports that wait.
So it cannot tell two states apart that differ in these alone : it gives the same result from both,
and they still look the same afterwards (`Reporting.tame`).

`Interface.seen` is what such a job can see, and `Interface.Shows` says what a state looks like
through a view, which trace it has, and that reports wait in it. `Reporting` spans the jobs : any
sequence of reports, chosen by whatever can be seen, and a failure at any point.
-/

namespace RosAudit

namespace Interface

/-! ## Views -/

def Holds (s : Interface) : Prop :=
  s.buffers.violations.isSome ∧ s.buffers.metrics.isSome

def seen (s : Interface) : Interface := { s with buffers := {}, trace := [] }

/-- Through a view the state looks like `v`. Its trace is `t`, and reports wait. -/
def Shows (view : Interface → Interface) (v : Interface) (t : List Value) (s : Interface) : Prop :=
  s.Holds ∧ view s = v ∧ s.trace = t

/-! ## Jobs that do not look at what waits -/

/-- The job gives the same from all states that look the same, and they look the same afterwards.
It adds nothing to the trace, and of what it sees it changes the state of the plugin alone. -/
def Tame {α : Type} (j : Job Interface α) : Prop :=
  ∀ v, ∃ r x, ∀ t, Job.Gives (Shows seen v t) j r (Shows seen { v with state := x } t)

variable {α β : Type}

theorem tame_ofResult (r : Result α) : Tame (Job.ofResult r : Job Interface α) :=
  fun v => ⟨r, v.state, fun _ => Job.gives_ofResult r⟩

theorem Tame.bind {j : Job Interface α} {f : α → Job Interface β} (hj : Tame j)
    (hf : ∀ a, Tame (f a)) : Tame (j >>= f) := by
  intro v
  obtain ⟨r, x, hj⟩ := hj v
  cases r with
  | error e => exact ⟨.error e, x, fun t => (hj t).bind_error⟩
  | ok a =>
    obtain ⟨r', x', hf⟩ := hf a { v with state := x }
    exact ⟨r', x', fun t => (hj t).bind (hf t)⟩

theorem Tame.attempt {j : Job Interface α} (hj : Tame j) : Tame (Job.attempt j) := by
  intro v
  obtain ⟨r, x, hj⟩ := hj v
  exact ⟨.ok r, x, fun t => (hj t).attempt⟩

theorem tame_get {f : Interface → Job Interface α} (hf : ∀ s, f s = f s.seen)
    (h : ∀ v, Tame (f v)) : Tame (get >>= f) := by
  intro v
  obtain ⟨r, x, hv⟩ := h v v
  refine ⟨r, x, fun t => Job.gives_get ?_ (hv t)⟩
  rintro s ⟨-, rfl, -⟩
  exact hf s

theorem tame_remember (x : Value) : Tame (modify fun s => { s with state := x }) := by
  refine fun v => ⟨.ok ⟨⟩, x, fun t => Job.gives_modify ?_⟩
  rintro s ⟨hs, rfl, rfl⟩
  exact ⟨hs, rfl, rfl⟩

/-! ## The reports -/

theorem sameOutlook_seen (s : Interface) : SameOutlook s.seen s :=
  ⟨rfl, rfl, rfl, rfl, rfl, rfl, rfl, rfl, rfl⟩

theorem holds_file {s : Interface} (hs : s.Holds) (e : Filing) :
    (s.file e).Holds ∧ (s.file e).seen = s.seen ∧ (s.file e).trace = s.trace := by
  cases e with
  | violation i v =>
    obtain ⟨vs, hvs⟩ := Option.isSome_iff_exists.mp hs.1
    rw [file_violation_of_some hvs]
    exact ⟨⟨rfl, hs.2⟩, rfl, rfl⟩
  | measurement i x =>
    obtain ⟨xs, hxs⟩ := Option.isSome_iff_exists.mp hs.2
    rw [file_measurement_of_some hxs]
    exact ⟨⟨hs.1, rfl⟩, rfl, rfl⟩

theorem tame_report (c : ReportCall) : Tame c.run := by
  refine fun v => ⟨(v.filing c).map fun _ => (), v.state, fun t => ?_⟩
  rintro s ⟨hs, rfl, rfl⟩
  rw [ReportCall.exec_run, (sameOutlook_seen s).filing]
  rcases s.seen.filing c with f | _ | e
  · exact ⟨rfl, hs, rfl, rfl⟩
  · exact ⟨rfl, hs, rfl, rfl⟩
  · exact ⟨rfl, holds_file hs e⟩

end Interface

/-! ## Whatever reports -/

/-- The jobs that only report. They may look at all but what waits, keep a state of their own, fail
at any point and go on after a failure. -/
inductive Reporting : {α : Type} → Job Interface α → Prop
  | pure {α : Type} (a : α) : Reporting (pure a : Job Interface α)
  | throw {α : Type} (f : Fault) : Reporting (throw f : Job Interface α)
  | bind {α β : Type} {j : Job Interface α} {f : α → Job Interface β} :
      Reporting j → (∀ a, Reporting (f a)) → Reporting (j >>= f)
  | attempt {α : Type} {j : Job Interface α} : Reporting j → Reporting (Job.attempt j)
  | look {α : Type} {f : Interface → Job Interface α} :
      (∀ v, Reporting (f v)) → Reporting (get >>= fun s => f s.seen)
  | remember (x : Value) : Reporting (modify fun s => { s with state := x })
  | violation (rule : String) (details : Value) (scope : Option Item) (at_ : Interface.Spot) :
      Reporting (Interface.reportViolation rule details scope at_)
  | runtime (rule : String) (details : Value) (resources : List Item) :
      Reporting (Interface.reportRuntime rule details resources)
  | metric (metric : String) (value : Value) (scope : Option Item) (at_ : Interface.Spot) :
      Reporting (Interface.reportMetric metric value scope at_)

theorem Reporting.tame {α : Type} {j : Job Interface α} (h : Reporting j) : Interface.Tame j := by
  induction h with
  | pure a => exact Interface.tame_ofResult (.ok a)
  | throw f => exact Interface.tame_ofResult (.error f)
  | bind _ _ hj hf => exact hj.bind hf
  | attempt _ hj => exact hj.attempt
  | look _ hf => exact Interface.tame_get (fun _ => rfl) fun v => hf v.seen
  | remember x => exact Interface.tame_remember x
  | violation rule details scope at_ =>
    exact Interface.tame_report (.violation rule details scope at_)
  | runtime rule details resources => exact Interface.tame_report (.runtime rule details resources)
  | metric metric value scope at_ => exact Interface.tame_report (.metric metric value scope at_)

end RosAudit
