import RosAudit.Proofs.Audit.Suppression

/-!
# Reports are filed whole or not at all

A call by which a plugin reports has one of three outcomes (`ReportCall.run_atomic`). It fails, and
nothing has changed. It returns, and nothing has changed : the line is ignored, or the rule or
metric may not be reported. Or one datum is filed : it stands at the end of what waits, or of the
findings of its scope (`Interface.IsHome`), and all else is as it was. A measurement that is filed
lies within the bounds of its metric (`Metric.Bounds`).
-/

namespace RosAudit

/-- A number lies between the bounds of a metric. Floats are compared as such, and other numbers
`n / 2 ^ i` with bounds that are numbers `p / 2 ^ j`. -/
def Metric.Bounds (k : Metric) : Value → Prop
  | .float y => (∀ x, k.maximum = some x → ¬ x < y) ∧ ∀ x, k.minimum = some x → ¬ y < x
  | v => ∀ n i x p j, v.magnitude? = some (n, i) → Value.magnitude? (.float x) = some (p, j) →
      (k.maximum = some x → n * Int.pow 2 j ≤ p * Int.pow 2 i) ∧
      (k.minimum = some x → p * Int.pow 2 i ≤ n * Int.pow 2 j)

theorem Metric.Admits.bounds {k : Metric} {v} (h : k.Admits v) : k.Bounds v := by
  cases v with
  | float y =>
    exact ⟨fun x hx => of_decide_eq_false (h.1 x hx), fun x hx => of_decide_eq_false (h.2 x hx)⟩
  | _ =>
    intro n i x p j hn hp
    refine ⟨fun hx => ?_, fun hx => ?_⟩
    · have hless := h.1 x hx
      unfold Value.less at hless
      dsimp only at hless
      rw [hn, hp] at hless
      exact Int.not_lt.mp (of_decide_eq_false hless)
    · have hless := h.2 x hx
      unfold Value.less at hless
      dsimp only at hless
      rw [hn, hp] at hless
      exact Int.not_lt.mp (of_decide_eq_false hless)

namespace Interface

variable {s : Interface} {c : ReportCall} {e : Filing}

/-- The findings are those of the scope of a call, or of what the scope belongs to. -/
def IsHome (s : Interface) (i : FindingsRef) : ReportCall → Prop
  | .violation _ _ scope at_ => ∃ e l, s.Placed scope at_ e l i
  | .runtime _ _ _ =>
    s.current = some i ∧ ∃ c, (s.report.findingsAt i).scope = some ⟨.configuration, c⟩
  | .metric _ _ scope at_ => ∃ e l, s.Placed scope at_ e l i

theorem Files.isHome (h : s.Files c e) : s.IsHome e.place c := by
  cases h with
  | violation hplace hrule => exact ⟨_, _, placing_iff_placed.mp hplace⟩
  | runtime hcurrent hscope hwithin hrule => exact ⟨hcurrent, _, hscope⟩
  | metric hplace hmetric hvalue => exact ⟨_, _, placing_iff_placed.mp hplace⟩

theorem Files.bounds (h : s.Files c e) : ∀ x ∈ e.measurements, x.metric.Compares x.value ∧
    x.metric.Admits x.value ∧ x.metric.Bounds x.value := by
  cases h with
  | violation hplace hrule => exact List.forall_mem_nil _
  | runtime hcurrent hscope hwithin hrule => exact List.forall_mem_nil _
  | metric hplace hmetric hvalue =>
    refine List.forall_mem_singleton.mpr ?_
    rcases checkValue_cases _ _ with ⟨hc, ha, -⟩ | ⟨-, -, herr⟩ | ⟨-, herr⟩
    · exact ⟨hc, ha, ha.bounds⟩
    · cases hvalue.symm.trans herr
    · cases hvalue.symm.trans herr

end Interface

open Interface

/-- A call fails and changes nothing, or returns and changes nothing because it is skipped, or one
datum is filed. A measurement that is filed lies within the bounds of its metric. -/
theorem ReportCall.run_atomic (c : ReportCall) {s : Interface} (hindex : s.report.Indexed s.model) :
    (∃ f, c.run.exec s = (.error f, s)) ∨ (c.run.exec s = (.ok (), s) ∧ s.Skips c) ∨
      ∃ e, c.run.exec s = (.ok (), s.file e) ∧ s.Files c e ∧ s.IsHome e.place c ∧
        e.place < s.report.store.size ∧
        (s.file e).violations.Perm (e.violations ++ s.violations) ∧
        (s.file e).measurements.Perm (e.measurements ++ s.measurements) ∧
        ∀ x ∈ e.measurements, x.metric.Compares x.value ∧ x.metric.Admits x.value ∧
          x.metric.Bounds x.value := by
  rw [exec_run]
  cases hc : s.filing c with
  | error f => exact .inl ⟨f, rfl⟩
  | ok o =>
    rcases filing_cases hc with ⟨rfl, hskips⟩ | ⟨e, rfl, hfiles⟩
    · exact .inr (.inl ⟨rfl, hskips⟩)
    · have hi := hfiles.place_lt hindex
      exact .inr (.inr ⟨e, rfl, hfiles, hfiles.isHome, hi, violations_file hi, measurements_file hi,
        hfiles.bounds⟩)

def speedCall : ReportCall := .metric "speed" (.int 4) (some (.entity ⟨.node, 0⟩)) {}

/-- A measurement at a node goes to the findings of its package. -/
theorem ReportCall.run_atomic_mill : ∃ e, speedCall.run.exec mill = (.ok (), mill.file e) ∧
    mill.IsHome e.place speedCall ∧
    (mill.file e).measurements.Perm (e.measurements ++ mill.measurements) := by
  have hfiled : ((speedCall.run.exec mill).2.report.findingsAt 0).metrics.length = 1 := rfl
  have hnone : (mill.report.findingsAt 0).metrics.length = 0 := rfl
  have hindex : mill.report.Indexed mill.model := Report.indexed_make millModel ⟨0⟩ ""
  rcases run_atomic speedCall hindex with ⟨f, hfault⟩ | ⟨hsame, -⟩ | ⟨e, hexec, -, hhome, -, -,
    hadded, -⟩
  · rw [hfault] at hfiled
    cases hnone.symm.trans hfiled
  · rw [hsame] at hfiled
    cases hnone.symm.trans hfiled
  · exact ⟨e, hexec, hhome, hadded⟩

end RosAudit
