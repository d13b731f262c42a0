import RosAudit.Audit.Run
import RosAudit.Audit.Script
import RosAudit.Proofs.Audit.Reporting

/-!
# Plugins do not see each other's reports

When the findings are processed, what the plugins report waits until all of them are done. So each
plugin is called with the findings that were there at the beginning, whatever the plugins before it
report and wherever they fail.

`Plugin.watched` notes every call of a hook in the trace, with the report at that moment, before the
hook itself goes to work. `Audit.schedule` lists the calls that the findings ask for. The trace
of the whole phase is put together from what each plugin notes when it is the only one
(`processing_isolated`).
-/

namespace RosAudit

open List

open Interface (Shows seen)

abbrev HookCall := String × Subject

/-- How a call is noted: by the plugin, the hook, what it is called with and the report. -/
abbrev Note := String → String → Subject → Report → Value

def processingHooks : List String :=
  ["process_file_violation", "process_file_metric", "process_package_violation",
   "process_package_metric", "process_configuration_violation", "process_configuration_metric",
   "post_process"]

variable {p : Plugin}

namespace Plugin

/-- Processing with the plugin only reports. The hook that prepares a state is not given the
interface, so it can but give a state or fail. -/
structure Reports (p : Plugin) : Prop where
  prepares : ∀ f, p.hook "pre_process" = some f → ∃ r, f .nothing = Job.ofResult r
  processes : ∀ h ∈ processingHooks, ∀ f, p.hook h = some f → ∀ x, Reporting (f x)

def noted (note : Note) (plugin h : String) (f : Subject → Job Interface Value) (x : Subject) :
    Job Interface Value := do
  Script.trace (note plugin h x (← get).report)
  f x

/-- The plugin, with each call of a hook noted in the trace. -/
def watched (note : Note) (p : Plugin) : Plugin :=
  { p with hook := fun h => (p.hook h).map (noted note p.name h) }

theorem hook_watched (note : Note) (p : Plugin) (h : String) :
    (p.watched note).hook h = (p.hook h).map (noted note p.name h) :=
  rfl

def heeds (p : Plugin) (cs : List HookCall) : List HookCall :=
  cs.filter fun c => (p.hook c.1).isSome

/-- What is noted for some calls. -/
def notes (note : Note) (p : Plugin) (r : Report) (cs : List HookCall) : List Value :=
  (p.heeds cs).map fun c => note p.name c.1 c.2 r

theorem notes_append (note) (p : Plugin) (r cs ds) :
    p.notes note r (cs ++ ds) = p.notes note r cs ++ p.notes note r ds := by
  simp [notes, heeds]

theorem notes_of_none {note r c} (h : p.hook c.1 = none) : p.notes note r [c] = [] := by
  simp [notes, heeds, h]

theorem notes_of_some {note r c f} (h : p.hook c.1 = some f) :
    p.notes note r [c] = [note p.name c.1 c.2 r] := by
  simp [notes, heeds, h]

end Plugin

variable {h kind folder : String} {s v : Interface} {j k : Job Interface Unit} {cs : List HookCall}

namespace Audit

/-! ## Views -/

def between (s : Interface) : Interface := { s.seen with current := none }

def ground (s : Interface) : Interface :=
  { between s with plugin := "", folder := "", state := .null }

/-! ## The schedule -/

def callsOn (s : Interface) (kind : String) (e : Entity) : List HookCall :=
  match s.report.placeOf s.model e with
  | none => []
  | some i =>
    (s.report.findingsAt i).violations.map
        (fun v => ("process_" ++ kind ++ "_violation", .violation v)) ++
      (s.report.findingsAt i).metrics.map
        (fun x => ("process_" ++ kind ++ "_metric", .measurement x))

/-- The calls after a plugin has started: about the files, the packages and the configurations of
the project, and one at the end. -/
def agenda (s : Interface) : List HookCall :=
  let p := s.model.project s.report.project
  (p.packages.flatMap fun k => (s.model.package k).files).flatMap
      (fun f => callsOn s "file" f.entity) ++
    (p.packages.flatMap (fun k => callsOn s "package" k.entity) ++
      (p.configurations.flatMap (fun c => callsOn s "configuration" c.entity) ++
        [("post_process", .nothing)]))

/-- All calls that a plugin may expect. -/
def schedule (s : Interface) : List HookCall := ("pre_process", .nothing) :: agenda s

/-! ## Jobs that make calls one after another -/

section Follows

variable {note : Note} {p : Plugin} {view : Interface → Interface} {v : Interface}

/-- From all states that look like `v` through a view, the job gives the same result and makes the
same calls. They are the beginning of `cs`, and all of `cs` if the job does not fail. Of what the
view shows, the state of the plugin alone may change. -/
def Follows (note : Note) (p : Plugin) (view : Interface → Interface) (v : Interface)
    (j : Job Interface Unit) (cs : List HookCall) : Prop :=
  ∃ r x cs', cs' <+: cs ∧ (r = .ok () → cs' = cs) ∧ ∀ t, Job.Gives (Shows view v t) j r
    (Shows view { v with state := x } (t ++ p.notes note v.report cs'))

theorem follows_ofResult (r : Result Unit) : Follows note p view v (Job.ofResult r) [] := by
  refine ⟨r, v.state, [], prefix_rfl, fun _ => rfl, fun t => ?_⟩
  rw [show t ++ p.notes note v.report [] = t from append_nil t]
  exact Job.gives_ofResult r

theorem Follows.seq {cs ds} (hj : Follows note p view v j cs)
    (hk : ∀ x, Follows note p view { v with state := x } k ds) :
    Follows note p view v (j >>= fun _ => k) (cs ++ ds) := by
  obtain ⟨r, x, cs', hcs, hall, hj⟩ := hj
  cases r with
  | error e =>
    exact ⟨.error e, x, cs', hcs.trans (prefix_append cs ds), nofun,
      fun t => (hj t).bind_error⟩
  | ok u =>
    -- the first job did not fail, so all its calls were made
    obtain rfl := hall rfl
    obtain ⟨r, x', ds', hds, hall, hk⟩ := hk x
    refine ⟨r, x', cs' ++ ds', (prefix_append_right_inj cs').mpr hds, fun hr => ?_,
      fun t => (hj t).bind ?_⟩
    · rw [hall hr]
    · have h := hk (t ++ p.notes note v.report cs')
      rwa [append_assoc, ← Plugin.notes_append] at h

theorem Follows.done (hj : Follows note p view v j cs) :
    Follows note p view v (j >>= fun _ => pure ()) cs := by
  have h := hj.seq fun _ => follows_ofResult (.ok ())
  rwa [append_nil] at h

theorem follows_forIn {α : Type} {f : α → Job Interface Unit} {cs : α → List HookCall}
    (hf : ∀ a x, Follows note p view { v with state := x } (f a) (cs a)) :
    ∀ (l : List α) (x : Value), Follows note p view { v with state := x }
      (forIn l PUnit.unit fun a _ => do f a; pure (.yield PUnit.unit)) (l.flatMap cs)
  | [], x => follows_ofResult (.ok ())
  | a :: l, x => by
    rw [forIn_cons, bind_assoc]
    refine (hf a x).seq fun x' => ?_
    exact follows_forIn hf l x'

theorem Follows.of_exec (hj : Follows note p view v j cs)
    (h : ∀ s, view s = v → k.exec s = j.exec s) : Follows note p view v k cs := by
  obtain ⟨r, x, cs', hcs, hall, hj⟩ := hj
  refine ⟨r, x, cs', hcs, hall, fun t s hs => ?_⟩
  rw [h s hs.2.1]
  exact hj t s hs

theorem Follows.focused {c} (hj : Follows note p seen { v with current := c } j cs) :
    Follows note p between v (do modify (fun s => { s with current := c }); j) cs := by
  obtain ⟨r, x, cs', hcs, hall, hj⟩ := hj
  refine ⟨r, x, cs', hcs, hall, fun t => ?_⟩
  rintro s ⟨hs, rfl, rfl⟩
  obtain ⟨hr, hs', hv, ht⟩ := hj s.trace { s with current := c } ⟨hs, rfl, rfl⟩
  rw [Job.exec_bind_of_ok (Job.exec_modify _ s)]
  refine ⟨hr, hs', ?_, ht⟩
  unfold between
  rw [hv]
  rfl

end Follows

/-! ## The calls of one plugin -/

section Calls

variable (note : Note) {p : Plugin} {v : Interface}

theorem follows_idle {x} (hf : p.hook h = none) : Follows note p seen v (pure ()) [(h, x)] := by
  refine ⟨.ok (), v.state, [(h, x)], prefix_rfl, fun _ => rfl, fun t => ?_⟩
  rw [Plugin.notes_of_none hf, append_nil]
  exact Job.gives_ofResult (.ok ())

section

variable (hp : p.Reports) (hh : h ∈ processingHooks)
include hp hh

theorem exists_hook {f} (hf : p.hook h = some f) (x : Subject) :
    ∃ r y, ∀ t, Job.Gives (Shows seen v t) (Plugin.noted note p.name h f x) r
      (Shows seen { v with state := y } (t ++ p.notes note v.report [(h, x)])) := by
  obtain ⟨r, y, hr⟩ := (hp.processes h hh f hf x).tame v
  refine ⟨r, y, fun t => ?_⟩
  rw [Plugin.notes_of_some hf]
  have hnote : Job.Gives (Shows seen v t) (Script.trace (note p.name h x v.report)) (.ok ())
      (Shows seen v (t ++ [note p.name h x v.report])) := by
    refine Job.gives_modify ?_
    rintro s ⟨hs, rfl, rfl⟩
    exact ⟨hs, rfl, rfl⟩
  refine Job.gives_get ?_ (hnote.seq (hr _))
  rintro s ⟨-, rfl, -⟩
  rfl

theorem follows_call (x : Subject) :
    Follows note p seen v (call (p.watched note) h x) [(h, x)] := by
  unfold call
  rw [Plugin.hook_watched]
  cases hf : p.hook h with
  | none => exact follows_idle note hf
  | some f =>
    obtain ⟨r, y, hr⟩ := exists_hook note (v := v) hp hh hf x
    refine ⟨r.map fun _ => (), y, [(h, x)], prefix_rfl, fun _ => rfl, fun t => ?_⟩
    cases r with
    | error e => exact (hr t).bind_error
    | ok a => exact (hr t).bind (Job.gives_ofResult (.ok ()))

theorem follows_callAfter :
    Follows note p seen v (callAfter (p.watched note) h) [(h, .nothing)] := by
  unfold callAfter callBefore
  rw [Plugin.hook_watched]
  cases hf : p.hook h with
  | none => exact follows_idle note hf
  | some f =>
    obtain ⟨r, y, hr⟩ := exists_hook note (v := v) hp hh hf .nothing
    have hend : ∀ t, Job.Gives (Shows seen v t)
        (Job.attempt (Plugin.noted note p.name h f .nothing) >>= fun r =>
          Job.ofResult (prepared r)) (prepared r)
        (Shows seen { v with state := y } (t ++ p.notes note v.report [(h, .nothing)])) :=
      fun t => (hr t).attempt.bind (Job.gives_ofResult (prepared r))
    refine ⟨(prepared r).map fun _ => (), y, [(h, .nothing)], prefix_rfl, fun _ => rfl,
      fun t => ?_⟩
    cases hr' : prepared r with
    | error e => exact (hr' ▸ hend t).bind_error
    | ok a => exact (hr' ▸ hend t).bind (Job.gives_ofResult (.ok ()))

theorem follows_calls {α : Type} (g : α → Subject) (l : List α) : Follows note p seen v
      (forIn l PUnit.unit fun a _ => do call (p.watched note) h (g a); pure (.yield PUnit.unit))
      (l.map fun a => (h, g a)) := by
  rw [map_eq_flatMap]
  exact follows_forIn (fun a x => follows_call note hp hh (g a)) l v.state

end

theorem exec_focus_of_none {e} (h : s.report.placeOf s.model e = none) :
    (focus e).exec s = (.error .noKey, s) := by
  unfold focus
  rw [Job.exec_bind_of_ok (Job.exec_get s), h, Job.exec_throw]

theorem exec_focus_of_some {e i} (h : s.report.placeOf s.model e = some i) :
    (focus e).exec s = (.ok i, { s with current := some i }) := by
  unfold focus
  rw [Job.exec_bind_of_ok (Job.exec_get s), h]
  exact Job.exec_bind_of_ok (Job.exec_set s _)

theorem follows_processFindings (hp : p.Reports)
    (hkind : kind ∈ ["file", "package", "configuration"]) (e : Entity) :
    Follows note p between v (processFindings (p.watched note) kind e) (callsOn v kind e) := by
  have hv : "process_" ++ kind ++ "_violation" ∈ processingHooks := by
    revert kind
    decide
  have hx : "process_" ++ kind ++ "_metric" ∈ processingHooks := by
    revert kind
    decide
  unfold callsOn
  cases hi : v.report.placeOf v.model e with
  | none =>
    refine (follows_ofResult (.error .noKey)).of_exec ?_
    rintro s rfl
    exact Job.exec_bind_of_error (exec_focus_of_none hi)
  | some i =>
    have hviolations := follows_calls note (v := { v with current := some i }) hp hv .violation
      (v.report.findingsAt i).violations
    have hcalls := hviolations.seq fun y => (follows_calls note hp hx .measurement
      (v.report.findingsAt i).metrics).done
    refine hcalls.focused.of_exec ?_
    rintro s rfl
    unfold processFindings
    rw [Job.exec_bind_of_ok (exec_focus_of_some (s := s) hi)]
    rfl

theorem follows_rounds (hp : p.Reports) (hkind : kind ∈ ["file", "package", "configuration"])
    {k : EntityKind} (l : List (Ref k)) :
    Follows note p between v
      (forIn l PUnit.unit fun e _ => do
        processFindings (p.watched note) kind e.entity
        pure (.yield PUnit.unit))
      (l.flatMap fun e => callsOn v kind e.entity) :=
  follows_forIn (fun e _ => follows_processFindings note hp hkind e.entity) l v.state

theorem follows_processAll (hp : p.Reports) :
    Follows note p between v (processAll (p.watched note)) (agenda v) := by
  let project := v.model.project v.report.project
  have hcalls : Follows note p between v (do
      for f in project.packages.flatMap fun k => (v.model.package k).files do
        processFindings (p.watched note) "file" f.entity
      for k in project.packages do processFindings (p.watched note) "package" k.entity
      for c in project.configurations do processFindings (p.watched note) "configuration" c.entity
      modify fun s => { s with current := none }
      callAfter (p.watched note) "post_process") (agenda v) := by
    refine (follows_rounds note hp (by decide) _).seq fun _ => ?_
    refine (follows_rounds note hp (by decide) _).seq fun _ => ?_
    refine (follows_rounds note hp (by decide) _).seq fun _ => ?_
    exact (follows_callAfter note hp (by decide)).focused
  refine hcalls.of_exec ?_
  rintro s rfl
  rfl

theorem exists_prepared (hp : p.Reports) : ∃ r : Result Value, ∀ s : Interface,
    (callBefore (p.watched note) "pre_process").exec s =
      (r, { s with trace := s.trace ++ p.notes note s.report [("pre_process", .nothing)] }) := by
  unfold callBefore
  rw [Plugin.hook_watched]
  cases hf : p.hook "pre_process" with
  | none =>
    refine ⟨.ok .null, fun s => ?_⟩
    rw [Plugin.notes_of_none hf, append_nil]
    rfl
  | some f =>
    obtain ⟨r, hr⟩ := hp.prepares f hf
    refine ⟨prepared r, fun s => ?_⟩
    rw [Plugin.notes_of_some hf]
    simp [Plugin.noted, Script.trace, hr, Job.exec_bind]

/-- One plugin makes the calls of its schedule until it fails, and leaves all that the others find
as it was. -/
theorem exists_processWith (hp : p.Reports) (folder : String) : ∃ r cs, cs <+: schedule v ∧
    (r = .ok () → cs = schedule v) ∧ ∀ t, Job.Gives (Shows ground v t)
      (processWith (p.watched note) folder) r
      (Shows ground v (t ++ p.notes note v.report cs)) := by
  obtain ⟨r, hr⟩ := exists_prepared note hp
  cases r with
  | error e =>
    refine ⟨.error e, [("pre_process", .nothing)], ⟨agenda v, rfl⟩, nofun, fun t => ?_⟩
    rintro s ⟨hs, rfl, rfl⟩
    unfold processWith start
    rw [Job.exec_bind_of_error (Job.exec_bind_of_error (hr s))]
    exact ⟨rfl, hs, rfl, rfl⟩
  | ok x =>
    -- what is left of the plugin before is the current report, which `between` does not show
    obtain ⟨r, y, cs, hcs, hall, hgives⟩ := follows_processAll note
      (v := { v with plugin := p.name, folder, state := x }) hp
    have hstart : ∀ t, Job.Gives (Shows ground v t) (start (p.watched note) folder "pre_process")
        (.ok ()) (Shows between { v with plugin := p.name, folder, state := x }
          (t ++ p.notes note v.report [("pre_process", .nothing)])) := by
      rintro t s ⟨hs, rfl, rfl⟩
      unfold start
      rw [Job.exec_bind_of_ok (hr s)]
      exact ⟨rfl, hs, rfl, rfl⟩
    refine ⟨r, ("pre_process", .nothing) :: cs, cons_prefix_cons.mpr ⟨rfl, hcs⟩,
      fun h => congrArg _ (hall h), fun t s hs => ?_⟩
    unfold processWith
    obtain ⟨hr', hs', hv, ht⟩ := ((hstart t).seq (hgives _)) s hs
    obtain ⟨-, rfl, rfl⟩ := hs
    refine ⟨hr', hs', ?_, ?_⟩
    · unfold ground
      rw [hv]
      rfl
    · rw [ht, append_assoc]
      exact congrArg _ (Plugin.notes_append note p _ _ _).symm

end Calls

/-! ## One plugin after another -/

theorem gives_within {α : Type} (hfolder : v.files.isFolder folder = true) {j : Job Interface α}
    {r t t'} (hj : Job.Gives
      (Shows ground { v with files := { v.files with current := v.files.absolute folder } } t) j r
      (Shows ground { v with files := { v.files with current := v.files.absolute folder } } t')) :
    Job.Gives (Shows ground v t) (within folder j) r (Shows ground v t') := by
  rintro s ⟨hs, rfl, rfl⟩
  have henter : s.files.enter folder = .ok { s.files with current := s.files.absolute folder } :=
    if_pos hfolder
  obtain ⟨hr, hs', hv, ht⟩ := hj
    { s with files := { s.files with current := s.files.absolute folder } } ⟨hs, rfl, rfl⟩
  unfold within
  rw [Job.exec_bind_of_ok (Job.exec_get s), henter, Job.exec_bind_of_ok (Job.exec_ofResult _ _),
    Job.exec_bind_of_ok (Job.exec_set _ _), Job.exec_bind_of_ok (Job.exec_attempt _ _),
    Job.exec_bind_of_ok (Job.exec_modify _ _), Job.exec_ofResult]
  refine ⟨hr, hs', ?_, ht⟩
  -- entering changed the current folder only, so going back there undoes it
  generalize (j.exec _).2 = s' at hv
  calc ground { s' with files := { s'.files with current := s.files.current } }
      = { ground s' with files := { (ground s').files with current := s.files.current } } := rfl
    _ = ground s := by
      rw [hv]
      rfl

theorem gives_within_of_missing {α : Type} (hfolder : v.files.isFolder folder = false)
    (j : Job Interface α) (t : List Value) :
    Job.Gives (Shows ground v t) (within folder j) (.error .fileAccess) (Shows ground v t) := by
  rintro s ⟨hs, rfl, rfl⟩
  have henter : s.files.enter folder = .error .fileAccess :=
    if_neg (ne_true_of_eq_false hfolder)
  unfold within
  rw [Job.exec_bind_of_ok (Job.exec_get s), henter, Job.exec_bind_of_error (Job.exec_ofResult _ _)]
  exact ⟨rfl, hs, rfl, rfl⟩

def folderOf (places : AuditPlaces) (p : Plugin) : String := Path.join places.outFolder p.name

/-- The folder of a plugin exists. -/
def hasFolder (places : AuditPlaces) (s : Interface) (p : Plugin) : Bool :=
  s.files.isFolder (folderOf places p)

def alone (places : AuditPlaces) (note : Note) (s : Interface) (p : Plugin) :
    Result Unit × Interface :=
  Job.exec (do
    Interface.hold
    within (folderOf places p) (processWith (p.watched note) (folderOf places p))) s

def heard (places : AuditPlaces) (note : Note) (s : Interface) (p : Plugin) : List Value :=
  (alone places note s p).2.trace.drop s.trace.length

section Phase

variable (places : AuditPlaces) (note : Note)

theorem shows_hold (s : Interface) : Shows ground (ground s) s.trace (Interface.hold.exec s).2 :=
  ⟨⟨rfl, rfl⟩, rfl, rfl⟩

theorem heard_of_gives {r ns}
    (h : Job.Gives (Shows ground (ground s) s.trace)
      (within (folderOf places p) (processWith (p.watched note) (folderOf places p))) r
      (Shows ground (ground s) (s.trace ++ ns))) :
    (alone places note s p).1 = r ∧ heard places note s p = ns := by
  obtain ⟨hr, -, -, ht⟩ := h _ (shows_hold s)
  unfold heard alone
  rw [Job.exec_bind_of_ok
    (show Interface.hold.exec s = (.ok (), (Interface.hold.exec s).2) from rfl), ht]
  exact ⟨hr, drop_left⟩

/-- A plugin that is alone makes the calls of its schedule until it fails. In its turn it hears the
same, and its failure ends nothing. -/
theorem exists_heard (hp : p.Reports) (hfolder : hasFolder places s p = true) :
    ∃ cs, cs <+: schedule s ∧
    heard places note s p = p.notes note s.report cs ∧
    ((alone places note s p).1 = .ok () → cs = schedule s) ∧
    ∀ t, Job.Gives (Shows ground (ground s) t) (within (folderOf places p) do
        let _ ← (processWith (p.watched note) (folderOf places p)).attempt)
      (.ok ()) (Shows ground (ground s) (t ++ heard places note s p)) := by
  obtain ⟨r, cs, hcs, hall, hgives⟩ := exists_processWith note hp (folderOf places p) (v :=
    { ground s with files := { s.files with current := s.files.absolute (folderOf places p) } })
  obtain ⟨hr, hheard⟩ := heard_of_gives places note
    (gives_within (v := ground s) hfolder (hgives s.trace))
  refine ⟨cs, hcs, hheard, fun h => hall (hr.symm.trans h), fun t => ?_⟩
  rw [hheard]
  exact gives_within (v := ground s) hfolder
    ((hgives t).attempt.bind (Job.gives_ofResult (.ok ())))

theorem heard_of_missing (hfolder : hasFolder places s p = false) :
    (alone places note s p).1 = .error .fileAccess ∧ heard places note s p = [] := by
  have h := gives_within_of_missing (v := ground s) hfolder
    (processWith (p.watched note) (folderOf places p)) s.trace
  refine heard_of_gives places note ?_
  rwa [append_nil]

theorem exists_eachPlugin (s : Interface) : ∀ {ps : List Plugin}, (∀ p ∈ ps, p.Reports) →
    ∃ r, (r = .ok () ↔ ∀ p ∈ ps, hasFolder places s p = true) ∧
      ∀ t, Job.Gives (Shows ground (ground s) t)
        (eachPlugin places processWith (ps.map (Plugin.watched note))) r
        (Shows ground (ground s)
          (t ++ (ps.takeWhile (hasFolder places s)).flatMap (heard places note s)))
  | [], _ => by
    refine ⟨.ok (), by simp, fun t => ?_⟩
    rw [takeWhile_nil, flatMap_nil, append_nil]
    exact Job.gives_ofResult (.ok ())
  | p :: ps, hps => by
    cases hfolder : hasFolder places s p with
    | false =>
      refine ⟨.error .fileAccess, by simp [hfolder], fun t => ?_⟩
      rw [takeWhile_cons_of_neg (by simp [hfolder]), flatMap_nil, append_nil]
      exact (gives_within_of_missing (v := ground s) hfolder _ t).bind_error
    | true =>
      obtain ⟨r, hr, hgives⟩ := exists_eachPlugin s fun q hq => hps q (mem_cons_of_mem p hq)
      obtain ⟨cs, -, -, -, hturn⟩ := exists_heard places note (hps p mem_cons_self) hfolder
      refine ⟨r, by simp [hr, hfolder], fun t => ?_⟩
      rw [takeWhile_cons_of_pos hfolder, flatMap_cons, ← append_assoc]
      exact (hturn t).seq (hgives _)

/-- The plugins do not see each other's reports. For plugins that only report, the phase leaves the
report as it was. Its trace consists of what each plugin hears alone: the calls of its schedule
until it fails, each with the report of the beginning. A plugin without a folder ends the phase. -/
theorem processing_isolated {ps : List Plugin} (hps : ∀ p ∈ ps, p.Reports) (s : Interface) :
    ∃ r s', (processing places (ps.map (Plugin.watched note))).exec s = (r, s') ∧
      (r = .ok () ↔ ∀ p ∈ ps, hasFolder places s p = true) ∧ s'.report = s.report ∧
      s'.trace = s.trace ++
        (ps.takeWhile (hasFolder places s)).flatMap (heard places note s) ∧
      ∀ p ∈ ps, ∃ cs, cs <+: schedule s ∧ heard places note s p = p.notes note s.report cs ∧
        ((alone places note s p).1 = .ok () → cs = schedule s) := by
  obtain ⟨r, hr, hgives⟩ := exists_eachPlugin places note s hps
  obtain ⟨hr', -, hground, htrace⟩ := hgives s.trace _ (shows_hold s)
  have hreport := congrArg Interface.report hground
  refine ⟨r, _, Prod.ext hr' rfl, hr, hreport, htrace, fun p hp => ?_⟩
  cases hfolder : hasFolder places s p with
  | false =>
    obtain ⟨hfault, hheard⟩ := heard_of_missing places note hfolder
    exact ⟨[], nil_prefix, hheard, fun h => by cases hfault.symm.trans h⟩
  | true =>
    obtain ⟨cs, hcs, hheard, hall, -⟩ := exists_heard places note (hps p hp) hfolder
    exact ⟨cs, hcs, hheard, hall⟩

end Phase

/-! ## A plugin that fails -/

/-- A package with a violation of a rule that plugins may report. -/
def barn : Interface :=
  let rule : Rule :=
    { id := "loose", name := .null, scope := .null, description := .null, tags := .null }
  let model : Model := { projects := #[{ name := "farm", packages := [⟨0⟩] }]
                         packages := #[{ name := "barn" }] }
  { model
    files := { entries := ⟨[("/", .folder), ("/hasty", .folder), ("/patient", .folder)]⟩ }
    registry := { rules := ⟨[("loose", rule)]⟩ }
    allowedRules := ["loose"]
    report := (Report.make model ⟨0⟩ "").addViolation 0 { rule } }

/-- Reports what it is called with once more, and fails. -/
def hasty : Plugin :=
  { name := "hasty"
    hook := fun h => if h = "process_package_violation" then some fun _ => do
      Interface.reportViolation "loose" .null none {}
      throw .broken
    else none }

/-- Takes note of the violations of packages. -/
def patient : Plugin :=
  { name := "patient"
    hook := fun h => if h = "process_package_violation" then some fun _ => pure .null else none }

def tally : Note := fun p h _ r => .text (p ++ " " ++ h ++ " " ++ toString r.violationCount)

def farm : AuditPlaces := { outFolder := "/", exportFolder := "/" }

theorem reports_hasty : hasty.Reports where
  prepares f hf := by simp [hasty] at hf
  processes h _ f hf x := by
    obtain ⟨-, hf⟩ := Option.ite_none_right_eq_some.mp hf
    cases hf
    exact (Reporting.violation "loose" .null none {}).bind fun _ => .throw .broken

theorem reports_patient : patient.Reports where
  prepares f hf := by simp [patient] at hf
  processes h _ f hf x := by
    obtain ⟨-, hf⟩ := Option.ite_none_right_eq_some.mp hf
    cases hf
    exact Reporting.pure Value.null

/-- The first plugin reports and fails. The second still hears of one violation, not of two. -/
theorem processing_isolated_hasty :
    (∀ p ∈ [hasty, patient], p.Reports) ∧ (alone farm tally barn hasty).1.isOk = false ∧
    ∃ r s', (processing farm ([hasty, patient].map (Plugin.watched tally))).exec barn = (r, s') ∧
      r = .ok () ∧ s'.report = barn.report ∧ s'.trace.map Value.asText? =
        [some "hasty process_package_violation 1", some "patient process_package_violation 1"] := by
  have hps : ∀ p ∈ [hasty, patient], p.Reports := by
    simp [reports_hasty, reports_patient]
  obtain ⟨r, s', hrun, hr, hreport, htrace, -⟩ := processing_isolated farm tally hps barn
  refine ⟨hps, by decide +kernel, r, s', hrun, hr.mpr (by decide +kernel), hreport, ?_⟩
  rw [htrace]
  decide +kernel

end Audit

end RosAudit
