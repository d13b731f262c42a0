import Mathlib.Data.List.Forall2
import RosAudit.Launch.Template
import RosAudit.Proofs.Job
import RosAudit.Proofs.Table

/-!
# Substitution now and later

A value with commands that have no answer yet stays open : `substitute` puts in the texts it knows
and keeps the other commands, and `resolveLate` takes the rest up in a later context. The two ways
of reading a value come to the same. If the later context answers every command with a text, late
resolution gives what substitution gives there, value or fault ; if a command is still open there,
both stay open (`resolveLate_of_extends`).

A command leaves at most one note in its context, and no note changes an answer (`Noted.answer`), so
the order of commands does not matter. Each piece of a value is `Settled` in the context that is
left (`settled_mapM`), and a later context that `Extends` this one makes the same of a settled piece
and of the piece it came from (`Settled.settle_eq`).
-/

namespace RosAudit

open Job List

namespace SubstContext

/-! ## Notes -/

/-- What a command can leave behind : nothing, a package or a variable it asked for, or a name
it gave out. -/
inductive Noted : SubstContext → SubstContext → Prop
  | nothing (c : SubstContext) : Noted c c
  | package (c : SubstContext) (ps : List String) : Noted c { c with packageUses := ps }
  | variable (c : SubstContext) (vs : List String) : Noted c { c with environmentUses := vs }
  | name (c : SubstContext) {n : String} (h : c.anonymous.get? n = none) :
    Noted c { c with anonymous := c.anonymous.put n (c.origin.anonymous n) }

theorem noted_environmentValue (ws n c) : Noted c ((environmentValue ws n).exec c).2 := by
  unfold environmentValue
  simp only [exec_bind, exec_modify, exec_get]
  split <;> exact .variable c _

section

variable (ws : List String) (c : SubstContext)

theorem noted_find : Noted c ((find ws).exec c).2 := by
  unfold find
  split
  · simp only [exec_bind, exec_modify, exec_get]
    split <;> exact .package c _
  · exact .nothing c

theorem noted_arg : Noted c ((arg ws).exec c).2 := by
  unfold arg
  split
  · simp only [exec_bind, exec_get]
    split <;> exact .nothing c
  · exact .nothing c

theorem noted_anon : Noted c ((anon ws).exec c).2 := by
  unfold anon
  split
  · simp only [exec_bind, exec_get]
    split
    · exact .nothing c
    · rename_i hn
      exact .name c hn
  · exact .nothing c

theorem noted_answer : Noted c ((answer ws).exec c).2 := by
  unfold answer
  split
  · exact .nothing c
  · exact noted_find _ c
  · exact noted_arg _ c
  · exact noted_anon _ c
  · split
    · exact noted_environmentValue _ _ c
    · exact .nothing c
  · split
    · exact noted_environmentValue _ _ c
    · exact noted_environmentValue _ _ c
    · exact .nothing c
  · split
    · simp only [exec_bind, exec_get]
      split <;> exact .nothing c
    · exact .nothing c
  · exact .nothing c
  · exact .nothing c

end

/-! ## Answers -/

/-- The anonymous name that a context has for `n`, given out already or not. -/
def nameFor (c : SubstContext) (n : String) : String :=
  (c.anonymous.get? n).getD (c.origin.anonymous n)

/-- What a context tells of an argument : nothing if it is not declared, else its text if it has
one. -/
def told (c : SubstContext) (n : String) : Option (Option String) :=
  (c.arguments.get? n).map fun
    | .text s => some s
    | .unset | .pending _ => none

theorem exec_arg_fst (c w n) :
    ((arg [w, n]).exec c).1 = match c.told n with
      | none => .error (.substitution (.undeclaredArg n))
      | some (some s) => .ok (.known s)
      | some none => .ok (.still ["arg", n]) := by
  simp only [arg, exec_bind, exec_get, told]
  rcases c.arguments.get? n with _ | _ | s | t <;> rfl

theorem exec_anon_fst (c w n) : ((anon [w, n]).exec c).1 = .ok (.known (c.nameFor n)) := by
  simp only [anon, exec_bind, exec_get, nameFor]
  cases c.anonymous.get? n <;> rfl

theorem exec_environmentValue_fst (c ws n) :
    ((environmentValue ws n).exec c).1 =
      .ok (((c.environment.get? n).map Answer.known).getD (.still ws)) := by
  simp only [environmentValue, exec_bind, exec_modify, exec_get]
  cases c.environment.get? n <;> rfl

variable {c c₁ c' : SubstContext} {ws : List String} {n s : String} {a : Answer}

/-- What a command answers depends on the tables of its context alone, and on the arguments only
through the one that it asks for. -/
theorem answer_congr (ha : ∀ n, ws = ["arg", n] → c'.told n = c.told n)
    (he : c'.environment = c.environment) (hp : c'.packages = c.packages)
    (hf : c'.folder = c.folder) (hn : ∀ n, c'.nameFor n = c.nameFor n) :
    ((answer ws).exec c').1 = ((answer ws).exec c).1 := by
  unfold answer
  split
  · rfl
  · unfold find
    split
    · simp only [exec_bind, exec_modify, exec_get, hp]
      split <;> rfl
    · rfl
  · rename_i rest
    rcases rest with _ | ⟨n, _ | ⟨m, rest⟩⟩
    · rfl
    · rw [exec_arg_fst, exec_arg_fst, ha n rfl]
    · rfl
  · rename_i rest
    rcases rest with _ | ⟨n, _ | ⟨m, rest⟩⟩
    · rfl
    · rw [exec_anon_fst, exec_anon_fst, hn]
    · rfl
  · split
    · rw [exec_environmentValue_fst, exec_environmentValue_fst, he]
    · rfl
  · split
    · rw [exec_environmentValue_fst, exec_environmentValue_fst, he]
    · rw [exec_environmentValue_fst, exec_environmentValue_fst, he]
    · rfl
  · split
    · simp only [exec_bind, exec_get, hf]
      split <;> rfl
    · rfl
  · rfl
  · rfl

theorem Noted.nameFor (h : Noted c c') (n : String) : c'.nameFor n = c.nameFor n := by
  cases h with
  | nothing | package | «variable» => rfl
  | @name m hm =>
    unfold SubstContext.nameFor
    by_cases hn : n = m
    · subst hn
      simp [hm]
    · simp [Table.get?_put_of_ne _ _ hn]

theorem Noted.answer (h : Noted c c') (ws) : ((answer ws).exec c').1 = ((answer ws).exec c).1 := by
  have hn := h.nameFor
  refine answer_congr ?_ ?_ ?_ ?_ hn
  · intro n _
    cases h <;> rfl
  all_goals cases h <;> rfl

/-! ## Records -/

def lookup (c : SubstContext) : List String → Option String
  | ["find", n] =>
    match c.packages.get? n with
    | some (some path) => if path.isEmpty then none else some path
    | _ => none
  | ["arg", n] =>
    match c.arguments.get? n with
    | some (.text s) => some s
    | _ => none
  | ["anon", n] => c.anonymous.get? n
  | ["env", n] => c.environment.get? n
  | ["optenv", n] => c.environment.get? n
  | ["optenv", n, _] => c.environment.get? n
  | ["dirname"] => c.folder
  | _ => none

theorem Noted.lookup (h : Noted c c') (hs : c.lookup ws = some s) : c'.lookup ws = some s := by
  cases h with
  | nothing | package | «variable» => exact hs
  | @name m hm =>
    unfold SubstContext.lookup at hs
    split at hs <;> try exact hs
    · rename_i n
      have hn : n ≠ m := by
        rintro rfl
        simp [hm] at hs
      rwa [SubstContext.lookup, Table.get?_put_of_ne _ _ hn]
    · simp at hs

theorem answer_of_lookup (h : c.lookup ws = some s) : ((answer ws).exec c).1 = .ok (.known s) := by
  unfold lookup at h
  split at h
  · rename_i n
    cases hp : c.packages.get? n with
    | none => simp [hp] at h
    | some path =>
      cases path with
      | none => simp [hp] at h
      | some path =>
        obtain ⟨hne, rfl⟩ : path ≠ "" ∧ path = s := by simpa [hp] using h
        simp [answer, find, exec_bind, hp, hne]
  · rename_i n
    cases ha : c.arguments.get? n with
    | none => simp [ha] at h
    | some a => cases a <;> simp_all [answer, arg, exec_bind]
  · exact (exec_anon_fst c "anon" _).trans (by rw [nameFor, h]; rfl)
  · exact (exec_environmentValue_fst c _ _).trans (by rw [h]; rfl)
  · exact (exec_environmentValue_fst c _ _).trans (by rw [h]; rfl)
  · exact (exec_environmentValue_fst c _ _).trans (by rw [h]; rfl)
  · simp [answer, exec_bind, h]
  · cases h

def Recorded (c : SubstContext) (ws : List String) : Answer → Prop
  | .known s => c.lookup ws = some s
  | .still vs => vs = ws

theorem recorded_find (h : (find ["find", n]).exec c = (.ok a, c₁)) :
    Recorded c₁ ["find", n] a := by
  simp only [find, exec_bind, exec_modify, exec_get] at h
  split at h
  · simp at h
  · cases h
    rfl
  · rename_i path hp
    simp only [exec_pure, Prod.mk.injEq, Except.ok.injEq] at h
    obtain ⟨ha, hc⟩ := h
    subst ha hc
    split
    · rfl
    · rename_i hne
      simp [Recorded, SubstContext.lookup, hp, hne]

theorem recorded_arg (h : (arg ["arg", n]).exec c = (.ok a, c₁)) : Recorded c₁ ["arg", n] a := by
  simp only [arg, exec_bind, exec_get] at h
  split at h
  · simp at h
  · rename_i s hs
    cases h
    simp [Recorded, SubstContext.lookup, hs]
  · cases h
    rfl

theorem recorded_anon (h : (anon ["anon", n]).exec c = (.ok a, c₁)) :
    Recorded c₁ ["anon", n] a := by
  simp only [anon, exec_bind, exec_get] at h
  split at h
  · rename_i s hs
    cases h
    exact hs
  · obtain ⟨rfl, rfl⟩ := h
    exact Table.get?_put_self ..

theorem recorded_environmentValue (hws : ∀ c : SubstContext, c.lookup ws = c.environment.get? n)
    (h : (environmentValue ws n).exec c = (.ok a, c₁)) : Recorded c₁ ws a := by
  simp only [environmentValue, exec_bind, exec_modify, exec_get] at h
  split at h
  · rename_i s hs
    cases h
    rwa [Recorded, hws]
  · cases h
    rfl

/-- A command that is answered finds its text in the context it leaves, or stays open as it is. -/
theorem recorded_answer (h : (answer ws).exec c = (.ok a, c₁)) : Recorded c₁ ws a := by
  unfold answer at h
  split at h
  · simp at h
  · rename_i rest
    rcases rest with _ | ⟨n, _ | ⟨m, rest⟩⟩
    · simp [find] at h
    · exact recorded_find h
    · simp [find] at h
  · rename_i rest
    rcases rest with _ | ⟨n, _ | ⟨m, rest⟩⟩
    · simp [arg] at h
    · exact recorded_arg h
    · simp [arg] at h
  · rename_i rest
    rcases rest with _ | ⟨n, _ | ⟨m, rest⟩⟩
    · simp [anon] at h
    · exact recorded_anon h
    · simp [anon] at h
  · split at h
    · exact recorded_environmentValue (fun _ => rfl) h
    · simp at h
  · split at h
    · exact recorded_environmentValue (fun _ => rfl) h
    · exact recorded_environmentValue (fun _ => rfl) h
    · simp at h
  · split at h
    · rename_i rest hrest
      obtain rfl := List.isEmpty_iff.mp hrest
      simp only [exec_bind, exec_get] at h
      split at h
      · rename_i d hd
        cases h
        exact hd
      · cases h
        rfl
    · simp at h
  · simp at h
  · simp at h

/-! ## Pieces -/

end SubstContext

def Answer.piece : Answer → Piece
  | known s => .text s
  | still ws => .command ws

def Piece.closed : Piece → Except (List String) String
  | text s => .ok s
  | command ws => .error ws

namespace SubstContext

variable {c c₁ c' : SubstContext} {w n v : String} {ws vs : List String} {a : Answer}
  {p q r : Piece} {ps qs rs : List Piece} {k : Kind}

theorem answerPiece_command (ws) (hw : w ∈ commands) :
    answerPiece (.command (w :: ws)) = Answer.piece <$> answer (w :: ws) := by
  have hc : (!commands.contains w) = false := by simpa using hw
  simp only [answerPiece, hc, ← bind_pure_comp]
  simp
  congr 1
  funext a
  cases a <;> rfl

theorem answerPiece_invalid (ws) (hw : w ∉ commands) :
    answerPiece (.command (w :: ws)) = throw (.substitution (.invalidCommand w)) := by
  have hc : (!commands.contains w) = true := by simpa using hw
  simp only [answerPiece, hc]
  rfl

/-- What carrying a command out made of a piece : its text, which the context has on record, or
the command as it was. -/
inductive Settled (c : SubstContext) : Piece → Piece → Prop
  | text (s : String) : Settled c (.text s) (.text s)
  | known {w : String} {ws : List String} {s : String} (hw : w ∈ commands)
    (hs : c.lookup (w :: ws) = some s) : Settled c (.command (w :: ws)) (.text s)
  | still {w : String} {ws : List String} (hw : w ∈ commands) :
    Settled c (.command (w :: ws)) (.command (w :: ws))

theorem settled_answerPiece (h : (answerPiece p).exec c = (.ok q, c₁)) : Settled c₁ p q := by
  rcases p with s | _ | ⟨w, ws⟩
  · simp only [answerPiece, exec_pure, Prod.mk.injEq, Except.ok.injEq] at h
    rw [← h.1]
    exact .text s
  · simp [answerPiece] at h
  · by_cases hw : w ∈ commands
    · rw [answerPiece_command ws hw, exec_map] at h
      rcases ha : (answer (w :: ws)).exec c with ⟨f | a, c₂⟩
      · simp [ha] at h
      · simp only [ha] at h
        obtain ⟨rfl, rfl⟩ := h
        have hr := recorded_answer ha
        cases a with
        | known s => exact .known hw hr
        | still vs =>
          obtain rfl : vs = w :: ws := hr
          exact .still hw
    · simp [answerPiece_invalid ws hw] at h

theorem noted_answerPiece (p c) : Noted c ((answerPiece p).exec c).2 := by
  rcases p with s | _ | ⟨w, ws⟩
  · exact .nothing c
  · exact .nothing c
  · by_cases hw : w ∈ commands
    · have hn := noted_answer (w :: ws) c
      rw [answerPiece_command ws hw, exec_map]
      rcases h : (answer (w :: ws)).exec c with ⟨f | a, c₂⟩ <;> rw [h] at hn <;> exact hn
    · rw [answerPiece_invalid ws hw]
      exact .nothing c

theorem answerPiece_congr
    (h : ∀ ws, p = .command ws → ((answer ws).exec c').1 = ((answer ws).exec c).1) :
    ((answerPiece p).exec c').1 = ((answerPiece p).exec c).1 := by
  rcases p with s | _ | ⟨w, ws⟩
  · rfl
  · rfl
  · by_cases hw : w ∈ commands
    · rw [answerPiece_command ws hw, exec_map, exec_map]
      rcases h₁ : (answer (w :: ws)).exec c with ⟨f | a, c₁⟩ <;>
        rcases h₂ : (answer (w :: ws)).exec c' with ⟨f' | a', c₂⟩ <;>
        simp_all
    · rw [answerPiece_invalid ws hw]
      rfl

def Keeps (c c' : SubstContext) : Prop :=
  ∀ ⦃ws s⦄, c.lookup ws = some s → c'.lookup ws = some s

instance : IsPreorder SubstContext Keeps where
  refl _ _ _ h := h
  trans _ _ _ h h' _ _ hs := h' (h hs)

theorem within_answerPiece (p : Piece) : Within Keeps (answerPiece p) :=
  fun c _ _ h => (noted_answerPiece p c).lookup h

theorem Settled.mono (h : Settled c p q) (hc : Keeps c c') : Settled c' p q := by
  cases h with
  | text s => exact .text s
  | known hw hs => exact .known hw (hc hs)
  | still hw => exact .still hw

theorem settled_mapM : ∀ {ps qs c c₁},
    (ps.mapM answerPiece).exec c = (.ok qs, c₁) → List.Forall₂ (Settled c₁) ps qs
  | [], qs, c, c₁, h => by
    simp only [mapM_nil, exec_pure, Prod.mk.injEq, Except.ok.injEq] at h
    rw [← h.1]
    exact .nil
  | p :: ps, qs, c, c₁, h => by
    rw [mapM_cons, exec_bind_ok] at h
    obtain ⟨q, c₂, hp, h⟩ := h
    rw [exec_bind_ok] at h
    obtain ⟨qs', c₃, hps, h⟩ := h
    cases h
    have hk : Keeps c₂ c₁ := (chains_within.mapM fun p _ => within_answerPiece p).of_exec hps
    exact .cons ((settled_answerPiece hp).mono hk) (settled_mapM hps)

/-! ## The later context -/

/-- What a piece becomes in a context. -/
def settle (c : SubstContext) (p : Piece) : Result Piece := ((answerPiece p).exec c).1

theorem exec_mapM_answerPiece (ps : List Piece) (c : SubstContext) :
    ((ps.mapM answerPiece).exec c).1 = ps.mapM c.settle :=
  exec_mapM_fst (fun _ q c => answerPiece_congr fun ws _ => (noted_answerPiece q c).answer ws) ps c

/-- Every text that the earlier context has for a command is what the later one answers. -/
def Extends (c c' : SubstContext) : Prop :=
  ∀ ws s, c.lookup ws = some s → ((answer ws).exec c').1 = .ok (.known s)

theorem settle_command (hw : w ∈ commands) (ha : ((answer (w :: ws)).exec c).1 = .ok a) :
    c.settle (.command (w :: ws)) = .ok a.piece := by
  unfold settle
  rw [answerPiece_command ws hw, exec_map]
  rcases h : (answer (w :: ws)).exec c with ⟨f | b, c₁⟩ <;> simp_all

theorem Settled.settle_eq (h : Settled c p q) (hc : Extends c c') : c'.settle q = c'.settle p := by
  cases h with
  | text s => rfl
  | known hw hs =>
    rw [settle_command hw (hc _ _ hs)]
    rfl
  | still hw => rfl

/-- What a value became in a context and the value itself come to the same in a later one. -/
theorem mapM_settle_eq (h : List.Forall₂ (Settled c) ps qs) (hc : Extends c c') :
    qs.mapM c'.settle = ps.mapM c'.settle := by
  induction h with
  | nil => rfl
  | cons hp _ ih => rw [mapM_cons, mapM_cons, hp.settle_eq hc, ih]

theorem settle_command_ok (h : c.settle (.command ws) = .ok r) :
    ∃ a, ((answer ws).exec c).1 = .ok a ∧ r = a.piece := by
  unfold SubstContext.settle at h
  rcases ws with _ | ⟨w, ws⟩
  · simp [answerPiece] at h
  by_cases hw : w ∈ commands
  · rw [answerPiece_command ws hw, exec_map] at h
    rcases ha : (answer (w :: ws)).exec c with ⟨f | a, c₁⟩
    · simp [ha] at h
    · exact ⟨a, rfl, by simpa [ha] using h.symm⟩
  · simp [answerPiece_invalid ws hw] at h

theorem exec_complete_text (s ps c) :
    ((complete (.text s :: ps)).exec c).1 =
      ((complete ps).exec c).1.map fun r => r.map fun ss => s :: ss := by
  rw [complete, exec_bind]
  rcases (complete ps).exec c with ⟨f | ss | ws, c₁⟩ <;> rfl

theorem exec_complete_command_of {ps}
    (hps : ∀ {c c'}, Noted c c' → ((complete ps).exec c').1 = ((complete ps).exec c).1) (ws c) :
    ((complete (.command ws :: ps)).exec c).1 = ((answer ws).exec c).1.bind fun
      | .known s => ((complete (.text s :: ps)).exec c).1
      | .still vs => .ok (.error vs) := by
  have hnoted := noted_answer ws c
  rw [complete, exec_bind]
  rcases hanswer : (answer ws).exec c with ⟨f | s | vs, c₁⟩
  · rfl
  · rw [hanswer] at hnoted
    dsimp only [Except.bind]
    rw [exec_complete_text, ← hps hnoted, exec_bind]
    rcases (complete ps).exec c₁ with ⟨f | ss | ws, c₂⟩ <;> rfl
  · rfl

theorem Noted.complete : ∀ ps {c c'}, Noted c c' →
    ((complete ps).exec c').1 = ((complete ps).exec c).1
  | [], _, _, _ => rfl
  | .text s :: ps, _, _, h => by rw [exec_complete_text, exec_complete_text, Noted.complete ps h]
  | .command ws :: ps, _, _, h => by
    simp only [exec_complete_command_of (Noted.complete ps), h.answer ws, exec_complete_text,
      Noted.complete ps h]

/-- A command that is answered with a text is as good as the text. -/
theorem exec_complete_command (ws ps c) :
    ((complete (.command ws :: ps)).exec c).1 = ((answer ws).exec c).1.bind fun
      | .known s => ((complete (.text s :: ps)).exec c).1
      | .still vs => .ok (.error vs) :=
  exec_complete_command_of (Noted.complete ps) ws c

/-- Completing open pieces reads off what they become : all their texts, or the first command
that stays open. -/
theorem exec_complete_fst : ∀ {qs rs}, qs.mapM c.settle = .ok rs →
    ((complete qs).exec c).1 = .ok (rs.mapM Piece.closed)
  | [], rs, h => by
    cases h
    rfl
  | q :: qs, rs, h => by
    obtain ⟨r, rs, hq, hqs, rfl⟩ := mapM_cons_ok.mp h
    have htext : ∀ s, ((complete (.text s :: qs)).exec c).1 =
        .ok ((Piece.text s :: rs).mapM Piece.closed) := by
      intro s
      rw [exec_complete_text, exec_complete_fst hqs, mapM_cons]
      cases rs.mapM Piece.closed <;> rfl
    cases q with
    | text s =>
      cases hq
      exact htext s
    | command ws =>
      obtain ⟨a, ha, rfl⟩ := settle_command_ok hq
      rw [exec_complete_command, ha]
      cases a with
      | known s => exact htext s
      | still vs => rfl

theorem mapM_text? (rs : List Piece) : rs.mapM Piece.text? = (rs.mapM Piece.closed).toOption := by
  induction rs with
  | nil => rfl
  | cons r rs ih =>
    rw [mapM_cons, mapM_cons, ih]
    cases r with
    | text s => cases rs.mapM Piece.closed <;> rfl
    | command ws => rfl

theorem still_of_settle (h : c.settle p = .ok (.command vs)) :
    ∃ ws, p = .command ws ∧ ((answer ws).exec c).1 = .ok (.still vs) := by
  cases p with
  | text s => cases h
  | command ws =>
    obtain ⟨a, ha, hr⟩ := settle_command_ok h
    cases a with
    | known s => cases hr
    | still us =>
      cases hr
      exact ⟨ws, rfl, ha⟩

theorem close_eq (k : Kind) (rs : List Piece) : k.close ⟨rs⟩ =
    match rs.mapM Piece.closed with
    | .ok ss => k.convert ("".intercalate ss)
    | .error _ => .ok (.pending ⟨rs⟩) := by
  unfold Kind.close Template.closedText?
  rw [mapM_text?]
  cases rs.mapM Piece.closed <;> rfl

theorem convert_ne_pending (k : Kind) (s : String) (t : Template) :
    k.convert s ≠ .ok (.pending t) := by
  unfold Kind.convert
  intro h
  repeat' split at h
  all_goals cases h

theorem exec_substitute_fst (hv : Template.wholeEval? v = none)
    (hn : Template.hasNested v.toList = false) (k : Kind) (c : SubstContext) :
    ((substitute v k).exec c).1 =
      (Template.scan v).mapM c.settle >>= fun rs => k.close ⟨rs⟩ := by
  simp only [substitute, hv, hn, Bool.false_eq_true, if_false]
  rw [← exec_mapM_answerPiece, exec_bind]
  rcases ((Template.scan v).mapM answerPiece).exec c with ⟨f | rs, c₁⟩
  · rfl
  · simp
    rfl

def conclude (k : Kind) (strict : Bool) : Except (List String) (List String) → Result (Option Subst)
  | .ok ss => (k.convert ("".intercalate ss)).map some
  | .error ws => if strict then .error (.substitution (.unresolved ws)) else .ok none

theorem exec_resolveLate_pending (ps k strict c) :
    ((resolveLate (.pending ⟨ps⟩) k strict).exec c).1 =
      ((complete ps).exec c).1.bind (conclude k strict) := by
  unfold resolveLate
  rw [exec_bind]
  rcases (complete ps).exec c with ⟨f | ws | ss, c₁⟩
  · rfl
  · cases strict <;> rfl
  · simp only [exec_bind_pure, exec_ofResult]
    rfl

theorem exec_resolveLate_fst (h : qs.mapM c.settle = .ok rs) (k : Kind) (strict : Bool) :
    ((resolveLate (.pending ⟨qs⟩) k strict).exec c).1 =
      conclude k strict (rs.mapM Piece.closed) := by
  rw [exec_resolveLate_pending, exec_complete_fst h]
  rfl

/-- A value that stays open has its commands settled, one for one, in the context it leaves. -/
theorem settled_of_substitute {u} (hv : Template.wholeEval? v = none)
    (h : (substitute v k).exec c = (.ok (.pending u), c₁)) :
    Template.hasNested v.toList = false ∧
      List.Forall₂ (Settled c₁) (Template.scan v) u.pieces := by
  simp only [substitute, hv] at h
  split at h
  · simp at h
  · rename_i hn
    obtain ⟨rs, c₂, hrs, h⟩ := exec_bind_ok.mp h
    simp only [exec_ofResult, Prod.mk.injEq] at h
    obtain ⟨hclose, rfl⟩ := h
    rw [close_eq] at hclose
    split at hclose
    · exact absurd hclose (convert_ne_pending k _ u)
    · cases hclose
      exact ⟨by simpa using hn, settled_mapM hrs⟩

theorem Settled.settle_ok (h : Settled c p q)
    (hok : ∀ ws, p = .command ws → ∃ a, ((answer ws).exec c').1 = .ok a) :
    ∃ r, c'.settle p = .ok r := by
  cases h with
  | text s => exact ⟨_, rfl⟩
  | known hw _ | still hw =>
    obtain ⟨a, ha⟩ := hok _ rfl
    exact ⟨a.piece, settle_command hw ha⟩

theorem exists_mapM_settle (h : List.Forall₂ (Settled c) ps qs)
    (hok : ∀ ws, .command ws ∈ ps → ∃ a, ((answer ws).exec c').1 = .ok a) :
    ∃ rs, ps.mapM c'.settle = .ok rs := by
  induction h with
  | nil => exact ⟨[], rfl⟩
  | cons hp _ ih =>
    obtain ⟨r, hr⟩ := hp.settle_ok fun ws hws => hok ws (hws ▸ mem_cons_self)
    obtain ⟨rs, hrs⟩ := ih fun ws hws => hok ws (mem_cons_of_mem _ hws)
    exact ⟨r :: rs, mapM_cons_ok.mpr ⟨r, rs, hr, hrs, rfl⟩⟩

theorem exists_open_iff (h : ps.mapM c.settle = .ok rs) :
    (∃ vs, rs.mapM Piece.closed = .error vs) ↔
      ∃ ws vs, .command ws ∈ ps ∧ ((answer ws).exec c).1 = .ok (.still vs) := by
  rw [exists_mapM_error_iff]
  constructor
  · rintro ⟨r, hr, vs, hvs⟩
    obtain ⟨p, hp, hpr⟩ := (mem_mapM_ok h r).mp hr
    cases r with
    | text s => cases hvs
    | command us =>
      obtain ⟨ws, rfl, hws⟩ := still_of_settle hpr
      exact ⟨ws, us, hp, hws⟩
  · rintro ⟨ws, vs, hws, hvs⟩
    obtain ⟨r, hr⟩ := forall_of_mapM_ok h _ hws
    obtain ⟨a, ha, rfl⟩ := settle_command_ok hr
    obtain rfl : a = .still vs := by simpa [ha] using hvs
    exact ⟨_, (mem_mapM_ok h _).mpr ⟨_, hws, hr⟩, vs, rfl⟩

theorem extends_of_keeps (h : Keeps c c') : Extends c c' :=
  fun _ _ hs => answer_of_lookup (h hs)

theorem keeps_put_argument (h : c.lookup ["arg", n] = none) (a : Argument) :
    Keeps c { c with arguments := c.arguments.put n a } := by
  intro ws s hs
  by_cases hws : ws = ["arg", n]
  · simp [hws, h] at hs
  · unfold lookup at hs
    split at hs <;> try exact hs
    · rename_i m
      have hm : m ≠ n := fun hm => hws (by rw [hm])
      rwa [lookup, Table.get?_put_of_ne _ _ hm]
    · cases hs

/-! ## The two readings -/

/-- A value that stays open and is taken up in a later context gives there what its substitution
gives : the same value or the same fault of conversion once every command has a text, and nothing
as long as one has none, which is a fault for a strict reader. The later context answers as the
context `c₁` that the substitution left, with the names given out for `$(anon …)`. -/
theorem resolveLate_of_extends {v : String} {k : Kind} {c c₁ c' : SubstContext} {u : Template}
    (hv : Template.wholeEval? v = none)
    (hsub : (substitute v k).exec c = (.ok (.pending u), c₁)) (hext : Extends c₁ c') :
    ((∀ ws, .command ws ∈ Template.scan v → ∃ s, ((answer ws).exec c').1 = .ok (.known s)) →
      (∃ s, ((substitute v k).exec c').1 = k.convert s) ∧
      ∀ strict, ((resolveLate (.pending u) k strict).exec c').1 =
        ((substitute v k).exec c').1.map some) ∧
    ((∀ ws, .command ws ∈ Template.scan v → ∃ a, ((answer ws).exec c').1 = .ok a) →
      (∃ ws vs, .command ws ∈ Template.scan v ∧ ((answer ws).exec c').1 = .ok (.still vs)) →
      (∃ u', ((substitute v k).exec c').1 = .ok (.pending u')) ∧
      ((resolveLate (.pending u) k false).exec c').1 = .ok none ∧
      ∃ vs, ((resolveLate (.pending u) k true).exec c').1 =
        .error (.substitution (.unresolved vs))) := by
  obtain ⟨hn, hset⟩ := settled_of_substitute hv hsub
  -- in both cases all commands are answered, and both readings end in the same pieces
  have hboth : (∀ ws, .command ws ∈ Template.scan v → ∃ a, ((answer ws).exec c').1 = .ok a) →
      ∃ rs, (Template.scan v).mapM c'.settle = .ok rs ∧ u.pieces.mapM c'.settle = .ok rs := by
    intro hok
    obtain ⟨rs, hrs⟩ := exists_mapM_settle hset hok
    exact ⟨rs, hrs, (mapM_settle_eq hset hext).trans hrs⟩
  constructor
  · intro hknown
    obtain ⟨rs, hrs, hus⟩ := hboth fun ws hws => (hknown ws hws).imp' Answer.known fun _ h => h
    rcases hss : rs.mapM Piece.closed with vs | ss
    · obtain ⟨ws, us, hws, hstill⟩ := (exists_open_iff hrs).mp ⟨vs, hss⟩
      obtain ⟨s, hs⟩ := hknown ws hws
      simp [hs] at hstill
    · have hval : ((substitute v k).exec c').1 = k.convert ("".intercalate ss) := by
        rw [exec_substitute_fst hv hn, hrs]
        change k.close ⟨rs⟩ = _
        rw [close_eq, hss]
      refine ⟨⟨_, hval⟩, fun strict => ?_⟩
      rw [exec_resolveLate_fst hus, hss, hval]
      rfl
  · intro hok hopen
    obtain ⟨rs, hrs, hus⟩ := hboth hok
    obtain ⟨vs, hvs⟩ := (exists_open_iff hrs).mpr hopen
    refine ⟨⟨⟨rs⟩, ?_⟩, ?_, vs, ?_⟩
    · rw [exec_substitute_fst hv hn, hrs]
      change k.close ⟨rs⟩ = _
      rw [close_eq, hvs]
    · rw [exec_resolveLate_fst hus, hvs]
      rfl
    · rw [exec_resolveLate_fst hus, hvs]
      rfl

/-- A context that knows a package and a variable, and no value for the argument `zoom`. -/
def undecided : SubstContext :=
  { arguments := ⟨[("zoom", .unset)]⟩
    environment := ⟨[("LEVEL", "4")]⟩
    packages := ⟨[("maps", some "/opt/maps")]⟩ }

/-- The same context after it was asked for the package, the variable and a name. -/
def asked : SubstContext :=
  { undecided with
    anonymous := ⟨[("tile", "tile_localhost_0_0")]⟩
    packageUses := ["maps"]
    environmentUses := ["LEVEL"] }

/-- Late resolution of one value, once `zoom` is 2 and as long as it is not set. -/
theorem resolveLate_of_extends_asked :
    (∀ strict, ((resolveLate (.pending ⟨[.text "/opt/maps", .text "/", .text "tile_localhost_0_0",
          .text "/", .text "4", .command ["arg", "zoom"]]⟩) .text strict).exec
        { asked with arguments := asked.arguments.put "zoom" (.text "2") }).1 =
      ((substitute "$(find maps)/$(anon tile)/$(env LEVEL)$(arg zoom)" .text).exec
        { asked with arguments := asked.arguments.put "zoom" (.text "2") }).1.map some) ∧
    ((resolveLate (.pending ⟨[.text "/opt/maps", .text "/", .text "tile_localhost_0_0",
      .text "/", .text "4", .command ["arg", "zoom"]]⟩) .text false).exec asked).1 = .ok none := by
  have hv : Template.wholeEval? "$(find maps)/$(anon tile)/$(env LEVEL)$(arg zoom)" = none := by
    decide +kernel
  have hsub : (substitute "$(find maps)/$(anon tile)/$(env LEVEL)$(arg zoom)" .text).exec
      undecided = (.ok (.pending ⟨[.text "/opt/maps", .text "/", .text "tile_localhost_0_0",
        .text "/", .text "4", .command ["arg", "zoom"]]⟩), asked) := by
    decide +kernel
  have hscan : Template.scan "$(find maps)/$(anon tile)/$(env LEVEL)$(arg zoom)" =
      [.command ["find", "maps"], .text "/", .command ["anon", "tile"], .text "/",
        .command ["env", "LEVEL"], .command ["arg", "zoom"]] := by
    decide +kernel
  have hset : Extends asked { asked with arguments := asked.arguments.put "zoom" (.text "2") } :=
    extends_of_keeps (keeps_put_argument (by decide) _)
  constructor
  · refine ((resolveLate_of_extends hv hsub hset).1 ?_).2
    intro ws hws
    simp only [hscan, mem_cons, Piece.command.injEq, reduceCtorEq, not_mem_nil,
      or_false, false_or] at hws
    rcases hws with rfl | rfl | rfl | rfl
    · exact ⟨"/opt/maps", by decide +kernel⟩
    · exact ⟨"tile_localhost_0_0", by decide +kernel⟩
    · exact ⟨"4", by decide +kernel⟩
    · exact ⟨"2", by decide +kernel⟩
  · refine ((resolveLate_of_extends hv hsub (extends_of_keeps (refl_of Keeps asked))).2 ?_ ?_).2.1
    · intro ws hws
      simp only [hscan, mem_cons, Piece.command.injEq, reduceCtorEq, not_mem_nil,
        or_false, false_or] at hws
      rcases hws with rfl | rfl | rfl | rfl
      · exact ⟨.known "/opt/maps", by decide +kernel⟩
      · exact ⟨.known "tile_localhost_0_0", by decide +kernel⟩
      · exact ⟨.known "4", by decide +kernel⟩
      · exact ⟨.still ["arg", "zoom"], by decide +kernel⟩
    · exact ⟨["arg", "zoom"], ["arg", "zoom"], by simp [hscan], by decide +kernel⟩

end SubstContext

end RosAudit
