import RosAudit.Audit.Registry
import RosAudit.Proofs.Job
import RosAudit.Proofs.Table

/-!
# What registering allows

Rules and metrics are registered under a lead, and the answer is which of them may be reported. All
of them become known, also those that are left out : a rule by its identifier or one of its tags, a
metric by its identifier (`Ignored.CoversRule`, `Ignored.CoversMetric`).

`Screened covers known allowed` says that what is allowed is exactly what is known and not left out.
It holds after any sequence of registrations in which no identifier comes twice, whatever the leads
are (`screens_register`). Of an identifier that comes twice only the last thing would be known, and
the first one might be what was allowed.
-/

namespace RosAudit

open List

/-- One value has another as an item, as a key or as a part. Nothing is listed by what counts as
false. -/
def Value.Lists (v x : Value) : Prop := v.truthy = true ∧ v.holds x = .ok true

namespace Ignored

/-- The rule is left out of reports : by its identifier, or by one of its tags. -/
def CoversRule (g : Ignored) (rule : Rule) : Prop :=
  g.rules.Lists (.text rule.id) ∨ ∃ ts, rule.tags.each = .ok ts ∧ ∃ t ∈ ts, g.tags.Lists t

/-- The metric is left out of reports. -/
def CoversMetric (g : Ignored) (metric : Metric) : Prop := g.metrics.Lists (.text metric.id)

end Ignored

/-- What may be reported is what is known and not left out. -/
structure Screened {α : Type} (covers : α → Prop) (known : Table String α) (allowed : List String) :
    Prop where
  known_of_mem : ∀ id ∈ allowed, ∃ a, known.get? id = some a
  mem_iff : ∀ id a, known.get? id = some a → (id ∈ allowed ↔ ¬ covers a)

theorem screened_empty {α : Type} (covers : α → Prop) : Screened covers Table.empty [] where
  known_of_mem := forall_mem_nil _
  mem_iff id a h := by cases h

theorem Screened.put {α : Type} {covers} {known : Table String α} {allowed}
    (h : Screened covers known allowed) {id} (hnew : known.get? id = none) {a} {o : Option String}
    (ho : (covers a ∧ o = none) ∨ (¬ covers a ∧ o = some id)) :
    Screened covers (known.put id a) (allowed ++ o.toList) := by
  have hfresh : id ∉ allowed := by
    intro hid
    obtain ⟨b, hb⟩ := h.known_of_mem id hid
    rw [hnew] at hb
    cases hb
  constructor
  · intro i hi
    by_cases heq : i = id
    · exact ⟨a, heq ▸ known.get?_put_self id a⟩
    · rw [known.get?_put_of_ne a heq]
      refine h.known_of_mem i ((mem_append.mp hi).resolve_right fun hi => heq ?_)
      rcases ho with ⟨-, rfl⟩ | ⟨-, rfl⟩
      · cases hi
      · exact mem_singleton.mp hi
  · intro i b hb
    by_cases heq : i = id
    · subst heq
      cases (known.get?_put_self i a).symm.trans hb
      rcases ho with ⟨hcovers, rfl⟩ | ⟨hcovers, rfl⟩ <;> simp [hfresh, hcovers]
    · rw [known.get?_put_of_ne a heq] at hb
      rcases ho with ⟨-, rfl⟩ | ⟨-, rfl⟩ <;> simp [h.mem_iff i b hb, heq]

/-- What may be reported is in step with what is known, and what is `coming` is new. -/
structure Expects {α : Type} (covers : α → Prop) (known : Table String α)
    (allowed coming : List String) : Prop extends Screened covers known allowed where
  nodup : coming.Nodup
  new : ∀ id ∈ coming, known.get? id = none

theorem Expects.put {α : Type} {covers} {known : Table String α} {id allowed coming}
    (h : Expects covers known allowed (id :: coming)) {a} {o : Option String}
    (ho : (covers a ∧ o = none) ∨ (¬ covers a ∧ o = some id)) :
    Expects covers (known.put id a) (allowed ++ o.toList) coming where
  toScreened := h.toScreened.put (h.new id mem_cons_self) ho
  nodup := h.nodup.of_cons
  new i hi := by
    rw [known.get?_put_of_ne a (ne_of_mem_of_not_mem hi h.nodup.notMem)]
    exact h.new i (mem_cons_of_mem id hi)

namespace Registry

/-! ## One rule, one metric -/

theorem isIgnored_ok {v id b} (h : isIgnored v id = .ok b) : b = true ↔ v.Lists (.text id) := by
  unfold isIgnored at h
  split at h
  · rename_i htruthy
    change v.holds (.text id) = .ok b at h
    simp [Value.Lists, htruthy, h]
  · rename_i htruthy
    cases h
    simp [Value.Lists, htruthy]

theorem anyIgnored_ok {v ts b} (h : anyIgnored v ts = .ok b) :
    b = true ↔ ∃ t ∈ ts, v.holds t = .ok true := by
  induction ts with
  | nil =>
    cases h
    simp
  | cons t ts ih =>
    obtain ⟨held, ht, h⟩ := bind_eq_ok.mp h
    cases held with
    | true =>
      cases h
      simp [ht]
    | false => simp [ht, ih h]

/-- A way to register one thing : it becomes known under its identifier, is allowed unless it is
left out, and nothing changes among things of the other kind. -/
def Adds {α β : Type} (known : Registry → Table String α) (other : Registry → Table String β)
    (covers : α → Prop) (lead : String) (add : Value → Value →
      Job Registry (Option String)) : Prop :=
  ∀ name data r o r', (add name data).exec r = (.ok o, r') →
    ∃ id a, leadId lead name = .ok id ∧ known r' = (known r).put id a ∧ other r' = other r ∧
      ((covers a ∧ o = none) ∨ (¬ covers a ∧ o = some id))

theorem adds_rule (lead : String) (g : Ignored) :
    Adds Registry.rules Registry.metrics g.CoversRule lead (addRule lead g) := by
  intro name data r o r' h
  obtain ⟨rule, hread, h⟩ := Job.exec_ofResult_bind_ok.mp h
  have hid : leadId lead name = .ok rule.id := by
    obtain ⟨id, hid, hread⟩ := bind_eq_ok.mp hread
    obtain ⟨tags, -, hread⟩ := bind_eq_ok.mp hread
    obtain ⟨title, -, hread⟩ := bind_eq_ok.mp hread
    obtain ⟨scope, -, hread⟩ := bind_eq_ok.mp hread
    obtain ⟨description, -, hread⟩ := bind_eq_ok.mp hread
    obtain ⟨query, -, hread⟩ := bind_eq_ok.mp hread
    cases hread
    exact hid
  refine ⟨rule.id, rule, hid, ?_⟩
  obtain ⟨byId, hbyId, h⟩ := Job.exec_ofResult_bind_ok.mp h
  have hlisted := isIgnored_ok hbyId
  cases byId with
  | true =>
    cases h
    exact ⟨rfl, rfl, .inl ⟨.inl (hlisted.mp rfl), rfl⟩⟩
  | false =>
    have hunlisted : ¬ g.rules.Lists (.text rule.id) :=
      fun hl => Bool.false_ne_true (hlisted.mpr hl)
    rw [if_neg Bool.false_ne_true] at h
    split at h
    · rename_i htruthy
      obtain ⟨byTag, hbyTag, h⟩ := Job.exec_ofResult_bind_ok.mp h
      obtain ⟨ts, hts, hany⟩ := bind_eq_ok.mp hbyTag
      have htagged := anyIgnored_ok hany
      cases byTag with
      | true =>
        cases h
        obtain ⟨t, ht, hheld⟩ := htagged.mp rfl
        exact ⟨rfl, rfl, .inl ⟨.inr ⟨ts, hts, t, ht, htruthy, hheld⟩, rfl⟩⟩
      | false =>
        cases h
        refine ⟨rfl, rfl, .inr ⟨?_, rfl⟩⟩
        rintro (hl | ⟨ts', hts', t, ht, -, hheld⟩)
        · exact hunlisted hl
        · cases hts.symm.trans hts'
          exact Bool.false_ne_true (htagged.mpr ⟨t, ht, hheld⟩)
    · rename_i htruthy
      cases h
      refine ⟨rfl, rfl, .inr ⟨?_, rfl⟩⟩
      rintro (hl | ⟨ts, -, t, -, htruthy', -⟩)
      · exact hunlisted hl
      · exact htruthy htruthy'

theorem adds_metric (lead : String) (g : Ignored) :
    Adds Registry.metrics Registry.rules g.CoversMetric lead (addMetric lead g) := by
  intro name data r o r' h
  obtain ⟨metric, hread, h⟩ := Job.exec_ofResult_bind_ok.mp h
  have hid : leadId lead name = .ok metric.id := by
    obtain ⟨id, hid, hread⟩ := bind_eq_ok.mp hread
    obtain ⟨low, -, hread⟩ := bind_eq_ok.mp hread
    obtain ⟨minimum, -, hread⟩ := bind_eq_ok.mp hread
    obtain ⟨high, -, hread⟩ := bind_eq_ok.mp hread
    obtain ⟨maximum, -, hread⟩ := bind_eq_ok.mp hread
    obtain ⟨title, -, hread⟩ := bind_eq_ok.mp hread
    obtain ⟨scope, -, hread⟩ := bind_eq_ok.mp hread
    obtain ⟨description, -, hread⟩ := bind_eq_ok.mp hread
    cases hread
    exact hid
  refine ⟨metric.id, metric, hid, ?_⟩
  obtain ⟨byId, hbyId, h⟩ := Job.exec_ofResult_bind_ok.mp h
  have hlisted := isIgnored_ok hbyId
  cases byId with
  | true =>
    cases h
    exact ⟨rfl, rfl, .inl ⟨hlisted.mp rfl, rfl⟩⟩
  | false =>
    cases h
    exact ⟨rfl, rfl, .inr ⟨fun hl => Bool.false_ne_true (hlisted.mpr hl), rfl⟩⟩

/-! ## Many rules and metrics -/

def entryIds (lead : String) (es : List (Value × Value)) : List String :=
  es.filterMap fun e => (leadId lead e.1).toOption

section Entries

variable {α β : Type} {known : Registry → Table String α} {other : Registry → Table String β}
  {covers : α → Prop} {lead : String} {add : Value → Value → Job Registry (Option String)}
  {r r' : Registry}

theorem Adds.expects (hadd : Adds known other covers lead add) {es : List (Value × Value)}
    {os : List (Option String)} {allowed coming}
    (h : (es.mapM fun (name, data) => add name data).exec r = (.ok os, r'))
    (hr : Expects covers (known r) allowed (entryIds lead es ++ coming)) :
    Expects covers (known r') (allowed ++ os.filterMap id) coming ∧ other r' = other r := by
  induction es generalizing r os allowed with
  | nil =>
    cases h
    exact ⟨by simpa [entryIds] using hr, rfl⟩
  | cons e es ih =>
    rw [mapM_cons] at h
    obtain ⟨o, r₁, ho, h⟩ := Job.exec_bind_ok.mp h
    obtain ⟨os', r₂, hos, h⟩ := Job.exec_bind_ok.mp h
    cases h
    obtain ⟨key, a, hkey, hput, hother, hcovers⟩ := hadd _ _ _ _ _ ho
    have hcons : entryIds lead (e :: es) = key :: entryIds lead es := by
      simp [entryIds, hkey, Except.toOption]
    rw [hcons] at hr
    obtain ⟨hmore, hother'⟩ := ih hos (hput ▸ hr.put hcovers)
    have hos' : (o :: os').filterMap id = o.toList ++ os'.filterMap id := by
      cases o <;> rfl
    refine ⟨?_, hother'.trans hother⟩
    rwa [hos', ← append_assoc]

end Entries

end Registry

/-- Rules or metrics that are registered together. -/
inductive Registration where
  | rules (lead : String) (data : Value)
  | metrics (lead : String) (data : Value)

namespace Registration

def ids (lead : String) (data : Value) : List String :=
  (data.pairs.toOption.map (Registry.entryIds lead)).getD []

def ruleIds : Registration → List String
  | rules lead data => ids lead data
  | metrics _ _ => []

def metricIds : Registration → List String
  | rules _ _ => []
  | metrics lead data => ids lead data

def run (g : Ignored) : Registration → Job Registry (List String × List String)
  | rules lead data => do return (← Registry.addRules lead g data, [])
  | metrics lead data => do return ([], ← Registry.addMetrics lead g data)

def runAll (g : Ignored) : List Registration → Job Registry (List String × List String)
  | [] => pure ([], [])
  | x :: xs => do
    let (rs, ms) ← x.run g
    let (rs', ms') ← runAll g xs
    return (rs ++ rs', ms ++ ms')

/-- Both kinds are screened. -/
structure Screens (g : Ignored) (r : Registry) (rules metrics : List String) : Prop where
  rules : Screened g.CoversRule r.rules rules
  metrics : Screened g.CoversMetric r.metrics metrics

theorem expects_entries {α β : Type} {known : Registry → Table String α}
    {other : Registry → Table String β} {covers : α → Prop} {lead : String}
    {add : Value → Value → Job Registry (Option String)}
    (hadd : Registry.Adds known other covers lead add) {data : Value}
    {more allowed coming : List String} (h : (Registry.addEntries add data).exec r = (.ok more, r'))
    (hr : Expects covers (known r) allowed (ids lead data ++ coming)) :
    Expects covers (known r') (allowed ++ more) coming ∧ other r' = other r := by
  obtain ⟨es, hes, h⟩ := Job.exec_ofResult_bind_ok.mp h
  obtain ⟨os, r₂, hos, h⟩ := Job.exec_bind_ok.mp h
  cases h
  have hentries : ids lead data = Registry.entryIds lead es := by
    simp [ids, hes, Except.toOption]
  rw [hentries] at hr
  exact hadd.expects hos hr

/-- Registrations keep what is allowed in step with what is known, as long as no identifier comes
twice. -/
theorem screens_runAll {g : Ignored} {xs : List Registration}
    {rules metrics moreRules moreMetrics : List String}
    (h : (Registration.runAll g xs).exec r = (.ok (moreRules, moreMetrics), r'))
    (hrules : Expects g.CoversRule r.rules rules (xs.flatMap ruleIds))
    (hmetrics : Expects g.CoversMetric r.metrics metrics (xs.flatMap metricIds)) :
    Screens g r' (rules ++ moreRules) (metrics ++ moreMetrics) := by
  induction xs generalizing r rules metrics moreRules moreMetrics with
  | nil =>
    cases h
    rw [append_nil, append_nil]
    exact ⟨hrules.toScreened, hmetrics.toScreened⟩
  | cons x xs ih =>
    obtain ⟨⟨rules₁, metrics₁⟩, r₁, hx, h⟩ := Job.exec_bind_ok.mp h
    obtain ⟨⟨rules₂, metrics₂⟩, r₂, hxs, h⟩ := Job.exec_bind_ok.mp h
    cases h
    rw [← append_assoc, ← append_assoc]
    cases x with
    | rules lead data =>
      obtain ⟨more, r₃, hmore, h⟩ := Job.exec_bind_ok.mp hx
      cases h
      obtain ⟨hrules, hother⟩ := expects_entries (Registry.adds_rule lead g) hmore hrules
      refine ih hxs hrules ?_
      rw [hother, append_nil]
      exact hmetrics
    | metrics lead data =>
      obtain ⟨more, r₃, hmore, h⟩ := Job.exec_bind_ok.mp hx
      cases h
      obtain ⟨hmetrics, hother⟩ := expects_entries (Registry.adds_metric lead g) hmore hmetrics
      refine ih hxs ?_ hmetrics
      rw [hother, append_nil]
      exact hrules

theorem screens_register {g xs r rules metrics}
    (h : (runAll g xs).exec {} = (.ok (rules, metrics), r)) (hrules : (xs.flatMap ruleIds).Nodup)
    (hmetrics : (xs.flatMap metricIds).Nodup) :
    Screens g r rules metrics := by
  exact screens_runAll h ⟨screened_empty _, hrules, fun _ _ => rfl⟩
    ⟨screened_empty _, hmetrics, fun _ _ => rfl⟩

end Registration

end RosAudit
