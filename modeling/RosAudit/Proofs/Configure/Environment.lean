import RosAudit.Proofs.Configure.WaitingParams
import RosAudit.Settings

/-!
# Variables of the environment

A settings file may have a mapping of variables to act as the environment of an audit. It is read
and left out : whatever it holds, the environment is the standard one, as if there were no mapping
(`Settings.read_of_mapping`).

From there on the environment reaches every launch file. It is the one of the configuration at every
place of the work (`Builder.environment_of_leads`), so a command that asks for a variable stands for
its value there (`SubstContext.exec_resolveLate_spell`), and a template that asks for one that is
not set has no value (`SubstContext.resolveLate_ne_some`). A variable that only the settings file
sets is such a one (`Settings.mapping_is_lost`).
-/

namespace RosAudit

open Job

/-! ## Commands that ask for a variable -/

variable {x s workspace : String}

namespace Piece

/-- The variable that a command asks for. -/
def asked? : Piece → Option String
  | .command ["env", x] => some x
  | .command ["optenv", x] => some x
  | .command ["optenv", x, _] => some x
  | _ => none

/-- The value of the variable that a command asks for, in its place. -/
def spell (environment : Table String String) (p : Piece) : Piece :=
  ((p.asked?.bind environment.get?).map .text).getD p

theorem eq_command_of_asked? {p : Piece} (h : p.asked? = some x) :
    ∃ ws, p = .command ws ∧ SubstContext.answer ws = SubstContext.environmentValue ws x := by
  unfold asked? at h
  split at h <;> cases h
  all_goals exact ⟨_, rfl, rfl⟩

end Piece

namespace SubstContext

variable {c : SubstContext}

theorem answer_of_asked {p : Piece} (hx : p.asked? = some x) (c) :
    ∃ ws, p = .command ws ∧
      ((answer ws).exec c).1 = .ok ((c.environment.get? x).elim (.still ws) .known) := by
  obtain ⟨ws, rfl, hanswer⟩ := Piece.eq_command_of_asked? hx
  refine ⟨ws, rfl, ?_⟩
  rw [hanswer, exec_environmentValue_fst]
  cases c.environment.get? x <;> rfl

theorem exec_complete_spell (c) : ∀ ps : List Piece,
    ((complete (ps.map (Piece.spell c.environment))).exec c).1 = ((complete ps).exec c).1
  | [] => rfl
  | p :: ps => by
    have ih := exec_complete_spell c ps
    have htext : ∀ s, ((complete (.text s :: ps.map (Piece.spell c.environment))).exec c).1 =
        ((complete (.text s :: ps)).exec c).1 := by
      intro s
      rw [exec_complete_text, exec_complete_text, ih]
    rw [List.map_cons, Piece.spell]
    rcases hvalue : p.asked?.bind c.environment.get? with _ | s
    · rw [Option.map_none, Option.getD_none]
      cases p with
      | text s => exact htext s
      | command ws => simp only [exec_complete_command, htext]
    · obtain ⟨x, hx, hget⟩ := Option.bind_eq_some_iff.mp hvalue
      obtain ⟨ws, rfl, hs⟩ := answer_of_asked hx c
      rw [Option.map_some, Option.getD_some, htext s, exec_complete_command, hs, hget]
      rfl

theorem complete_text_ne_ok {ps} (h : ∀ ss, ((complete ps).exec c).1 ≠ .ok (.ok ss)) (s ss) :
    ((complete (.text s :: ps)).exec c).1 ≠ .ok (.ok ss) := by
  rw [exec_complete_text]
  rcases hrest : ((complete ps).exec c).1 with f | vs | ss'
  · simp [Except.map]
  · simp [Except.map]
  · exact absurd hrest (h ss')

theorem complete_ne_ok {p : Piece} {x} (hx : p.asked? = some x)
    (hunset : c.environment.get? x = none) : ∀ {ps}, p ∈ ps →
    ∀ ss, ((complete ps).exec c).1 ≠ .ok (.ok ss)
  | [], hp, _ => absurd hp List.not_mem_nil
  | .text s :: ps, hp, ss => by
    obtain ⟨ws, rfl, -⟩ := answer_of_asked hx c
    have hmem : Piece.command ws ∈ ps := by simpa using hp
    exact complete_text_ne_ok (complete_ne_ok hx hunset hmem) s ss
  | .command vs :: ps, hp, ss => by
    obtain ⟨ws, rfl, hstill⟩ := answer_of_asked hx c
    rw [hunset] at hstill
    rw [exec_complete_command]
    rcases hanswer : ((answer vs).exec c).1 with f | s | us
    · exact nofun
    · have hmem : Piece.command ws ∈ ps := by
        refine (List.mem_cons.mp hp).resolve_left ?_
        rintro ⟨⟩
        rw [hstill] at hanswer
        cases hanswer
      exact complete_text_ne_ok (complete_ne_ok hx hunset hmem) s ss
    · exact nofun

theorem exec_resolveLate_spell (ps k strict c) :
    ((resolveLate (.pending ⟨ps.map (Piece.spell c.environment)⟩) k strict).exec c).1 =
      ((resolveLate (.pending ⟨ps⟩) k strict).exec c).1 := by
  rw [exec_resolveLate_pending, exec_resolveLate_pending, exec_complete_spell]

theorem resolveLate_ne_some {ps p} (hp : p ∈ ps) (hx : p.asked? = some x)
    (hunset : c.environment.get? x = none) (k : Kind) (strict : Bool) (v : Subst) :
    ((resolveLate (.pending ⟨ps⟩) k strict).exec c).1 ≠ .ok (some v) := by
  have hne := complete_ne_ok hx hunset hp
  rw [exec_resolveLate_pending]
  rcases hrest : ((complete ps).exec c).1 with f | ws | ss
  · simp [Except.bind]
  · cases strict <;> simp [Except.bind, conclude]
  · exact absurd hrest (hne ss)

end SubstContext

/-! ## The environment of a launch -/

namespace Builder

def SameEnvironment (b b' : Builder) : Prop := b'.context.environment = b.context.environment

instance : IsPreorder Builder SameEnvironment where
  refl _ := rfl
  trans _ _ _ h h' := h'.trans h

instance : Tending SameEnvironment where
  context _ _ h := h.environment
  search _ _ := rfl
  foreign _ _ := rfl
  addManifest _ _ := rfl
  addNode _ _ _ := rfl
  note _ _ := rfl
  arguments _ _ := rfl
  enter _ _ := rfl
  leave _ := rfl
  setParam _ _ _ _ _ := rfl
  setDocument _ _ _ _ _ := rfl
  rename _ _ _ _ := rfl
  makeNode _ _ _ _ _ _ := rfl
  linkNode s node := by
    refine within_get.bind fun b => (within_ofResult _).bind fun hints => ?_
    refine Within.bind (fun _ => rfl) fun s' => within_modify fun _ => rfl

theorem environment_of_leads {b f tree q} (h : (start f tree b).Leads q) :
    q.builder.context.environment = (b.bench.model.configuration b.configuration).environment := by
  have hsame : SameEnvironment (start f tree b).builder q.builder := h.builder
  have henlist : ((b.enlist f).bench.model.configuration b.configuration).environment =
      (b.bench.model.configuration b.configuration).environment :=
    view_getD_modify b.bench.model.configurations default Configuration.environment
      (f := fun c => { c with launches := c.launches ++ [f] }) (fun _ => rfl) _ _
  exact hsame.trans henlist

end Builder

/-! ## The environment of a settings file -/

namespace Settings

/-- The sections of a settings file are records, where they are there. -/
def HasSections (data : Value) : Prop :=
  ∃ analysis ignore cpp, data.look "analysis" (.record []) = .ok (.record analysis) ∧
    (Value.record analysis).look "ignore" (.record []) = .ok (.record ignore) ∧
    data.look "cpp" (.record []) = .ok (.record cpp)

theorem make_of_null {t around given} (henv : given.field "env" = .null)
    (hworkspace : given.field "workspace" = .text workspace) (hne : workspace ≠ "") :
    ∃ k, make t around given = .ok k ∧ k.environment = around.standard := by
  have htruthy : (Value.text workspace).truthy = true := by simpa [Value.truthy] using hne
  unfold make
  rw [henv, hworkspace, if_pos htruthy]
  cases given.field "cpp_compile_db" with
  | bool b => cases b <;> exact ⟨_, rfl, rfl⟩
  | _ => exact ⟨_, rfl, rfl⟩

variable {es : List (Value × Value)}

theorem read_of_mapping {t around path text workspace data} (hread : t.read path = .ok text)
    (hload : Yaml.load text = .ok data) (hdata : HasSections data)
    (henv : data.field? "environment" = some (.record es))
    (hworkspace : data.field "workspace" = .text workspace) (hne : workspace ≠ "") :
    ∃ k, read t around path = .ok k ∧ k.environment = around.standard := by
  obtain ⟨analysis, ignore, cpp, hanalysis, hignore, hcpp⟩ := hdata
  cases data with
  | record fields =>
    have hdata : orElse (.record fields) (.record []) = .record fields := by
      cases fields <;> rfl
    have henvironment : (Value.record fields).look "environment" .null = .ok (.record es) := by
      rw [Value.look, henv]
      rfl
    have hlook : ∀ fs k d,
        (Value.record fs).look k d = .ok (((Value.record fs).field? k).getD d) := fun _ _ _ => rfl
    simp only [read, hread, hload, ok_bind, hdata, henvironment, hanalysis, hignore, hcpp,
      environmentOf, pure_eq_ok, hlook, hworkspace]
    exact make_of_null rfl rfl hne
  | _ => cases henv

/-- Whatever variables a settings file maps, it is read, and the environment is the standard one.
All through the launch files of a configuration with that environment, a command stands for the
value that the standard environment has for its variable, and a template that asks for any other
variable has no value. -/
theorem mapping_is_lost {t : FileTree} (around : Surroundings) {path text workspace : String}
    {data : Value} {es : List (Value × Value)} (hread : t.read path = .ok text)
    (hload : Yaml.load text = .ok data) (hdata : HasSections data)
    (henv : data.field? "environment" = some (.record es))
    (hworkspace : data.field "workspace" = .text workspace) (hne : workspace ≠ "") :
    ∃ k, read t around path = .ok k ∧ k.environment = around.standard ∧
      ∀ (b : Builder) (f : Ref .file) (tree : LaunchTree) (q : Builder.Place),
        (b.bench.model.configuration b.configuration).environment = Scene.textTable k.environment →
        (Builder.start f tree b).Leads q → ∀ (ps : List Piece) (kind : Kind) (strict : Bool),
          let c := q.builder.context
          ((SubstContext.resolveLate (.pending ⟨ps⟩) kind strict).exec c).1 =
            ((SubstContext.resolveLate
              (.pending ⟨ps.map (Piece.spell (Scene.textTable around.standard))⟩) kind
                strict).exec c).1 ∧
          ∀ p ∈ ps, ∀ x, p.asked? = some x → (Scene.textTable around.standard).get? x = none →
            ∀ v, ((SubstContext.resolveLate (.pending ⟨ps⟩) kind strict).exec c).1 ≠ .ok
              (some v) := by
  obtain ⟨k, hk, hstandard⟩ := read_of_mapping hread hload hdata henv hworkspace hne
  refine ⟨k, hk, hstandard, fun b f tree q hb hleads ps kind strict => ?_⟩
  have hq : q.builder.context.environment = Scene.textTable around.standard := by
    rw [Builder.environment_of_leads hleads, hb, hstandard]
  refine ⟨?_, fun p hp x hx hunset v => ?_⟩
  · rw [← hq, SubstContext.exec_resolveLate_spell]
  · exact SubstContext.resolveLate_ne_some hp hx (hq ▸ hunset) kind strict v

/-! ### A robot that only the settings file names -/

def rigText : String := "environment: \x7bROBOT: \x27r1\x27\x7d\nworkspace: /w\n"

def rigTree : FileTree :=
  { entries := ⟨[("/", .folder), ("/configs.yaml", .file rigText 0.0)]⟩ }

/-- The process knows another robot, and the standard environment none. -/
def rigAround : Surroundings where
  process := .object [("ROBOT", .text "r0"), ("ROS_WORKSPACE", .text "/ws")]
  standard := .object [("ROS_WORKSPACE", .text "/ws")]

def rigData : Value := (Yaml.load rigText).toOption.getD .null

def rig (environment : Table String String) : Builder where
  files := default
  bench := { model := (({} : Model).addConfiguration { name := "rig", environment }).1 }
  configuration := ⟨0⟩
  search := .across []

/-- The context in which a launch file is worked through. -/
def rigContext (environment : Table String String) : SubstContext :=
  (Builder.start ⟨0⟩ (.tag .launch "" ⟨[]⟩ []) (rig environment)).builder.context

def robotPiece : Piece := .command ["env", "ROBOT"]

theorem load_rig : Yaml.load rigText = .ok rigData := by
  have hok : (Yaml.load rigText).isOk = true := by decide +kernel
  rw [rigData]
  cases hload : Yaml.load rigText with
  | error f =>
    rw [hload] at hok
    cases hok
  | ok v => rfl

/-- The form of the settings, for any mapping of variables. -/
def isRig : Value → Bool
  | .record [(.text "environment", .record _), (.text "workspace", .text "/w")] => true
  | _ => false

theorem rig_given : HasSections rigData ∧ (∃ es, rigData.field? "environment" = some (.record es)) ∧
    rigData.field "workspace" = .text "/w" := by
  have hrig : isRig rigData = true := by decide +kernel
  unfold isRig at hrig
  split at hrig
  case h_1 es hdata =>
    rw [hdata]
    exact ⟨⟨[], [], [], rfl, rfl, rfl⟩, ⟨es, rfl⟩, rfl⟩
  case h_2 => cases hrig

/-- The robot has no name in the launch files. -/
theorem mapping_is_lost_rig : ∃ k, read rigTree rigAround "/configs.yaml" = .ok k ∧
    k.environment = rigAround.standard ∧
    ∀ kind strict v, ((SubstContext.resolveLate (.pending ⟨[.text "robots/", robotPiece]⟩) kind
      strict).exec (rigContext (Scene.textTable rigAround.standard))).1 ≠ .ok (some v) := by
  obtain ⟨hdata, ⟨es, henv⟩, hworkspace⟩ := rig_given
  have hread : rigTree.read "/configs.yaml" = .ok rigText := by decide +kernel
  obtain ⟨k, hk, hstandard, hplaces⟩ :=
    mapping_is_lost rigAround hread load_rig hdata henv hworkspace (by decide)
  refine ⟨k, hk, hstandard, fun kind strict v => ?_⟩
  have hplace := hplaces (rig (Scene.textTable rigAround.standard)) ⟨0⟩ (.tag .launch "" ⟨[]⟩ []) _
    (by rw [hstandard]; rfl) .refl [.text "robots/", robotPiece] kind strict
  exact hplace.2 robotPiece (by simp) "ROBOT" rfl (by decide +kernel) v

/-- The settings file names the robot, and the environment that is read from it does not. With the
variables of the file, the name would be there. -/
theorem robot_is_lost :
    (Yaml.load rigText).map (fun d => Scene.textTable (d.field "environment")) =
      .ok ⟨[("ROBOT", "r1")]⟩ ∧
    (read rigTree rigAround "/configs.yaml").map (fun k => Scene.textTable k.environment) =
      .ok ⟨[("ROS_WORKSPACE", "/ws")]⟩ ∧
    ((SubstContext.resolveLate (.pending ⟨[robotPiece]⟩) .text true).exec
      (rigContext ⟨[("ROS_WORKSPACE", "/ws")]⟩)).1 =
        .error (.substitution (.unresolved ["env", "ROBOT"])) ∧
    ((SubstContext.resolveLate (.pending ⟨[robotPiece]⟩) .text true).exec
      (rigContext ⟨[("ROBOT", "r1")]⟩)).1 = .ok (some (.text "r1")) := by
  decide +kernel

end Settings

end RosAudit
