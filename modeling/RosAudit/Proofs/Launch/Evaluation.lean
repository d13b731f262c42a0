import RosAudit.Proofs.Launch.LateSubstitution

/-!
# Values as they are written

A value of a launch file is a list of segments : literal text, which may hold any character but
brackets, and commands, whose words stand between `$(` and `)` with blanks between them (`Segment`).
Substitution does what this reading suggests (`substitute_rendered`). If every command has a text,
the value is the literal texts and those of the commands, one after the other. If not, it stays
open, and its parts are the runs of literal text that are not empty, the texts that are known and
the commands that are not.

The scanner finds the segments again (`scan_rendered`), wherever a stray `$` may stand. What is
answered is never scanned : `mapM_settle_runs` turns commands into texts piece by piece.
-/

namespace RosAudit

open Job Template List
open RosAudit.Text (isBlank words fieldsFrom)

/-! ## Segments -/

/-- A word of a command. -/
structure Word where
  text : String
  nonempty : text.toList ≠ []
  solid : ∀ c ∈ text.toList, isInner c = true ∧ isBlank c = false

def isSolid (c : Char) : Bool := isInner c && !isBlank c

def Word.ofText (s : String) (h : (!s.toList.isEmpty && s.toList.all isSolid) = true) : Word where
  text := s
  nonempty := by
    rw [Bool.and_eq_true] at h
    simpa using h.1
  solid c hc := by
    rw [Bool.and_eq_true] at h
    simpa [isSolid] using List.all_eq_true.mp h.2 c hc

/-- The blanks between two words of a command. -/
structure Gap where
  text : String
  nonempty : text.toList ≠ []
  blank : ∀ c ∈ text.toList, isBlank c = true

def Gap.ofText (s : String) (h : (!s.toList.isEmpty && s.toList.all isBlank) = true) : Gap where
  text := s
  nonempty := by
    rw [Bool.and_eq_true] at h
    simpa using h.1
  blank := by
    rw [Bool.and_eq_true] at h
    exact List.all_eq_true.mp h.2

/-- A character that may stand in literal text. -/
def isPlain (c : Char) : Bool := c != '(' && c != ')'

variable {cs xs body ys : List Char}

theorem plain_of_all (h : cs.all isPlain = true) : ∀ c ∈ cs, c ≠ '(' ∧ c ≠ ')' := by
  intro c hc
  simpa [isPlain] using all_eq_true.mp h c hc

/-- A part of a value as it is written. -/
inductive Segment where
  | literal (s : String) (plain : ∀ c ∈ s.toList, c ≠ '(' ∧ c ≠ ')')
  | command (first : Word) (more : List (Gap × Word))

namespace Segment

def spaced (first : Word) (more : List (Gap × Word)) : String :=
  first.text ++ String.join (more.map fun p => p.1.text ++ p.2.text)

def render : Segment → String
  | literal s _ => s
  | command first more => "$(" ++ spaced first more ++ ")"

def words? : Segment → Option (List String)
  | literal _ _ => none
  | command first more => some (first.text :: more.map fun p => p.2.text)

/-- A value as it is written. -/
def rendered (t : List Segment) : String := String.join (t.map render)

/-- The runs of literal text in a value that are not empty, and what `f` makes of the commands
between them. `run` is the literal text under way. -/
def runs (f : List String → Piece) (run : String) : List Segment → List Piece
  | [] => textPiece run.toList
  | literal s _ :: t => runs f (run ++ s) t
  | command first more :: t =>
    textPiece run.toList ++ f (first.text :: more.map fun p => p.2.text) :: runs f "" t

end Segment

/-! ## Words -/

theorem isInner_of_isBlank {c} (h : isBlank c = true) : isInner c = true := by
  have hne : c ≠ '$' ∧ c ≠ '(' ∧ c ≠ ')' := by
    refine ⟨?_, ?_, ?_⟩ <;> rintro rfl <;> revert h <;> decide
  simp [isInner, hne]

variable {cut : Char → Bool} {xs : List Char}

theorem fieldsFrom_solid (h : ∀ c ∈ xs, cut c = false) (cur ys : List Char) :
    fieldsFrom cut cur (xs ++ ys) = fieldsFrom cut (xs.reverse ++ cur) ys := by
  induction xs generalizing cur with
  | nil => rfl
  | cons c xs ih =>
    have hc : cut c = false := h c (by simp)
    rw [cons_append, fieldsFrom, hc, if_neg Bool.false_ne_true,
      ih (fun d hd => h d (by simp [hd]))]
    simp

theorem fieldsFrom_blank (h : ∀ c ∈ xs, cut c = true) (ys : List Char) :
    fieldsFrom cut [] (xs ++ ys) = fieldsFrom cut [] ys := by
  induction xs with
  | nil => rfl
  | cons c xs ih =>
    have hc : cut c = true := h c (by simp)
    rw [cons_append, fieldsFrom, hc, if_pos rfl, ih (fun d hd => h d (by simp [hd]))]
    rfl

theorem fieldsFrom_gap {cur xs} (hcur : cur ≠ []) (hxs : xs ≠ []) (h : ∀ c ∈ xs, cut c = true)
    (ys : List Char) :
    fieldsFrom cut cur (xs ++ ys) = cur.reverse :: fieldsFrom cut [] ys := by
  obtain ⟨c, xs, rfl⟩ := exists_cons_of_ne_nil hxs
  have hc : cut c = true := h c (by simp)
  have hempty : cur.isEmpty = false := by simpa using hcur
  rw [cons_append, fieldsFrom, hc, if_pos rfl, hempty, if_neg Bool.false_ne_true,
    fieldsFrom_blank fun d hd => h d (by simp [hd])]

namespace Segment

section

variable (first : Word) (more : List (Gap × Word))

theorem toList_spaced : (spaced first more).toList =
    first.text.toList ++ more.flatMap fun p => p.1.text.toList ++ p.2.text.toList := by
  simp [spaced, String.toList_join, flatMap_map]

theorem fieldsFrom_spaced : fieldsFrom isBlank [] (spaced first more).toList =
      first.text.toList :: more.map fun p => p.2.text.toList := by
  rw [toList_spaced]
  induction more generalizing first with
  | nil =>
    rw [fieldsFrom_solid fun c hc => (first.solid c hc).2]
    simp [fieldsFrom, first.nonempty]
  | cons p more ih =>
    rw [flatMap_cons, append_assoc, fieldsFrom_solid fun c hc => (first.solid c hc).2,
      fieldsFrom_gap (by simpa using first.nonempty) p.1.nonempty p.1.blank, ih]
    simp

theorem words_spaced : words (spaced first more) = first.text :: more.map fun p => p.2.text := by
  rw [words, fieldsFrom_spaced]
  simp

end

theorem isInner_spaced {first more c} (hc : c ∈ (spaced first more).toList) : isInner c = true := by
  rw [toList_spaced] at hc
  rcases mem_append.mp hc with hc | hc
  · exact (first.solid c hc).1
  · obtain ⟨p, -, hc⟩ := mem_flatMap.mp hc
    rcases mem_append.mp hc with hc | hc
    · exact isInner_of_isBlank (p.1.blank c hc)
    · exact (p.2.solid c hc).1

end Segment

/-! ## Commands in a text -/

theorem dropWhile_isInner (h : ∀ c ∈ body, isInner c = true) (rest : List Char) :
    (body ++ ')' :: rest).dropWhile isInner = ')' :: rest := by
  rw [dropWhile_append_of_pos h]
  rfl

theorem commandAt?_bracket (hne : body ≠ []) (h : ∀ c ∈ body, isInner c = true) (rest : List Char) :
    commandAt? ('$' :: '(' :: (body ++ ')' :: rest)) = some (body, rest) := by
  have htake : (body ++ ')' :: rest).takeWhile isInner = body := by
    rw [takeWhile_append_of_pos h]
    exact append_nil body
  obtain ⟨c, body, rfl⟩ := exists_cons_of_ne_nil hne
  simp only [commandAt?, htake, dropWhile_isInner h]

theorem not_opens {c : Char} (h : c = '$' → cs.head? ≠ some '(') :
    commandAt? (c :: cs) = none ∧ nestedAt (c :: cs) = false := by
  constructor
  · unfold commandAt?
    split
    · rename_i heq
      cases heq
      exact absurd rfl (h rfl)
    · rfl
  · unfold nestedAt
    split
    · rename_i heq
      cases heq
      exact absurd rfl (h rfl)
    · rfl

theorem scanFrom_skip (lit xs ys : List Char) :
    scanFrom xs.length lit (xs ++ ys) = scanFrom 0 lit ys := by
  induction xs with
  | nil => rfl
  | cons c xs ih => rw [length_cons, cons_append, scanFrom, ih]

theorem hasNested_append (h : ∀ c ∈ xs, c ≠ '$') (ys : List Char) :
    hasNested (xs ++ ys) = hasNested ys := by
  induction xs with
  | nil => rfl
  | cons c xs ih =>
    rw [cons_append, hasNested, (not_opens fun hc => absurd hc (h c (by simp))).2, Bool.false_or,
      ih fun d hd => h d (by simp [hd])]

namespace Segment

theorem rendered_cons (x t) :
    (rendered (x :: t)).toList = x.render.toList ++ (rendered t).toList := by
  simp [rendered]

theorem render_command (first more rest) :
    (render (command first more)).toList ++ rest =
      '$' :: '(' :: ((spaced first more).toList ++ ')' :: rest) := by
  simp [render]

theorem head?_literal_append (hxs : ∀ c ∈ xs, c ≠ '(') (hys : ys.head? ≠ some '(') :
    (xs ++ ys).head? ≠ some '(' := by
  cases xs with
  | nil => exact hys
  | cons c xs => simpa using hxs c (by simp)

/-- A value does not begin with a bracket, so that a `$` before it starts no command. -/
theorem head?_rendered : ∀ t : List Segment, (rendered t).toList.head? ≠ some '('
  | [] => by simp [rendered]
  | literal s plain :: t => by
    rw [rendered_cons]
    exact head?_literal_append (fun c hc => (plain c hc).1) (head?_rendered t)
  | command first more :: t => by
    rw [rendered_cons, render_command]
    simp

/-! ## Scanning -/

theorem scanFrom_literal (hxs : ∀ c ∈ xs, c ≠ '(') (hys : ys.head? ≠ some '(') (lit : List Char) :
    scanFrom 0 lit (xs ++ ys) = scanFrom 0 (xs.reverse ++ lit) ys := by
  induction xs generalizing lit with
  | nil => rfl
  | cons c xs ih =>
    have hrest : ∀ d ∈ xs, d ≠ '(' := fun d hd => hxs d (by simp [hd])
    rw [cons_append, scanFrom, (not_opens fun _ => head?_literal_append hrest hys).1, ih hrest]
    simp

theorem scanFrom_command (hne : body ≠ []) (h : ∀ c ∈ body, isInner c = true)
    (lit rest : List Char) : scanFrom 0 lit ('$' :: '(' :: (body ++ ')' :: rest)) =
      textPiece lit.reverse ++ .command (words (String.ofList body)) :: scanFrom 0 [] rest := by
  have hskip := scanFrom_skip [] ('(' :: (body ++ [')'])) rest
  simp only [cons_append, append_assoc, nil_append, length_cons,
    length_append, length_nil, Nat.zero_add] at hskip
  rw [scanFrom, commandAt?_bracket hne h]
  simp only
  rw [hskip]

theorem scanFrom_rendered (run : String) : ∀ t : List Segment,
    scanFrom 0 run.toList.reverse (rendered t).toList = runs .command run t
  | [] => by simp [rendered, scanFrom, runs]
  | literal s plain :: t => by
    rw [rendered_cons, render, scanFrom_literal (fun c hc => (plain c hc).1) (head?_rendered t),
      ← reverse_append, ← String.toList_append, scanFrom_rendered (run ++ s) t, runs]
  | command first more :: t => by
    have hne : (spaced first more).toList ≠ [] := by
      rw [toList_spaced]
      exact append_ne_nil_of_left_ne_nil first.nonempty _
    have hrest := scanFrom_rendered "" t
    rw [String.toList_empty, reverse_nil] at hrest
    rw [rendered_cons, render_command, scanFrom_command hne fun c => isInner_spaced, hrest,
      reverse_reverse, String.ofList_toList, words_spaced, runs]

theorem scan_rendered (t) : scan (rendered t) = runs .command "" t :=
  scanFrom_rendered "" t

theorem hasNested_literal (hxs : ∀ c ∈ xs, c ≠ '(') (hys : ys.head? ≠ some '(') :
    hasNested (xs ++ ys) = hasNested ys := by
  induction xs with
  | nil => rfl
  | cons c xs ih =>
    have hrest : ∀ d ∈ xs, d ≠ '(' := fun d hd => hxs d (by simp [hd])
    rw [cons_append, hasNested, (not_opens fun _ => head?_literal_append hrest hys).2,
      Bool.false_or, ih hrest]

theorem hasNested_command (h : ∀ c ∈ body, isInner c = true) (rest : List Char) :
    hasNested ('$' :: '(' :: (body ++ ')' :: rest)) = hasNested rest := by
  have hnested : nestedAt ('$' :: '(' :: (body ++ ')' :: rest)) = false := by
    simp [nestedAt, dropWhile_isInner h]
  have hbody : ∀ c ∈ '(' :: (body ++ [')']), c ≠ '$' := by
    intro c hc
    rcases mem_cons.mp hc with rfl | hc
    · decide
    · rcases mem_append.mp hc with hc | hc
      · rintro rfl
        exact absurd (h _ hc) (by decide)
      · rw [mem_singleton.mp hc]
        decide
  have hskip := hasNested_append hbody rest
  simp only [cons_append, append_assoc, nil_append] at hskip
  rw [hasNested, hnested, Bool.false_or, hskip]

theorem hasNested_rendered : ∀ t : List Segment, hasNested (rendered t).toList = false
  | [] => by simp [rendered, hasNested]
  | literal s plain :: t => by
    rw [rendered_cons, render, hasNested_literal (fun c hc => (plain c hc).1) (head?_rendered t),
      hasNested_rendered t]
  | command first more :: t => by
    rw [rendered_cons, render_command, hasNested_command fun c => isInner_spaced,
      hasNested_rendered t]

theorem takeWhile_isSolid (first more rest) :
    ((spaced first more).toList ++ ')' :: rest).takeWhile isSolid = first.text.toList := by
  rw [toList_spaced, append_assoc,
    takeWhile_append_of_pos fun c hc => by simp [isSolid, first.solid c hc]]
  have hstop : ((more.flatMap fun p => p.1.text.toList ++ p.2.text.toList) ++
      ')' :: rest).takeWhile isSolid = [] := by
    cases more with
    | nil => rfl
    | cons p more =>
      obtain ⟨c, cs, hc⟩ := exists_cons_of_ne_nil p.1.nonempty
      have hblank : isBlank c = true := p.1.blank c (by simp [hc])
      simp [hc, isSolid, hblank]
  rw [hstop, append_nil]

theorem exists_eval_of_prefix : ∀ {t},
    ['$', '(', 'e', 'v', 'a', 'l', ' '] <+: (rendered t).toList →
      ∃ x ∈ t, ∃ ws, x.words? = some ("eval" :: ws)
  | [], h => by simp [rendered] at h
  | literal s plain :: t, h => by
    rw [rendered_cons, render] at h
    cases hs : s.toList with
    | nil =>
      rw [hs] at h
      obtain ⟨x, hx, hws⟩ := exists_eval_of_prefix h
      exact ⟨x, by simp [hx], hws⟩
    | cons c cs =>
      rw [hs] at plain h
      obtain ⟨-, r, hr⟩ := cons_prefix_cons.mp h
      have hcs : ∀ d ∈ cs, d ≠ '(' := fun d hd => (plain d (by simp [hd])).1
      have hhead := head?_literal_append hcs (head?_rendered t)
      rw [show cs ++ (rendered t).toList = _ from hr.symm] at hhead
      exact absurd rfl hhead
  | command first more :: t, h => by
    rw [rendered_cons, render_command] at h
    obtain ⟨r, hr⟩ := (cons_prefix_cons.mp (cons_prefix_cons.mp h).2).2
    have hfirst := takeWhile_isSolid first more (rendered t).toList
    rw [← hr] at hfirst
    have heval : first.text = "eval" := by
      rw [← String.toList_inj, ← hfirst]
      rfl
    exact ⟨_, mem_cons_self, _, by rw [words?, heval]⟩

theorem wholeEval?_rendered {t} (h : ∀ x ∈ t, ∀ ws, x.words? ≠ some ("eval" :: ws)) :
    wholeEval? (rendered t) = none := by
  have hpre : ¬ ['$', '(', 'e', 'v', 'a', 'l', ' '] <+: (rendered t).toList := by
    intro hpre
    obtain ⟨x, hx, ws, hws⟩ := exists_eval_of_prefix hpre
    exact h x hx ws hws
  simp [wholeEval?, hpre]

end Segment

/-! ## Evaluation -/

namespace SubstContext

def textOf (c : SubstContext) (ws : List String) : Option String :=
  match ((answer ws).exec c).1 with
  | .ok (.known s) => some s
  | _ => none

/-- What a command becomes : its text, or the command as it is. -/
def outcome (c : SubstContext) (ws : List String) : Piece :=
  match c.textOf ws with
  | some s => .text s
  | none => .command ws

theorem mem_commands_of_answer {c w ws a} (h : ((answer (w :: ws)).exec c).1 = .ok a) :
    w ∈ commands := by
  unfold answer at h
  split at h
  case h_1 heq => cases heq
  case h_9 => cases h
  all_goals
    rename_i heq
    rw [(List.cons.inj heq).1]
    decide

theorem settle_eq_outcome {c w ws} (h : ∃ a, ((answer (w :: ws)).exec c).1 = .ok a) :
    c.settle (.command (w :: ws)) = .ok (c.outcome (w :: ws)) := by
  obtain ⟨a, ha⟩ := h
  rw [settle_command (mem_commands_of_answer ha) ha]
  unfold outcome textOf
  rw [ha]
  cases a with
  | known s => rfl
  | still vs =>
    have hexec : (answer (w :: ws)).exec c = (.ok (.still vs), ((answer (w :: ws)).exec c).2) := by
      rw [← ha]
    obtain rfl : vs = w :: ws := recorded_answer hexec
    rfl

end SubstContext

namespace Segment

open SubstContext

variable {c : SubstContext}

/-- The text of a segment, if it has one. -/
def textIn (c : SubstContext) : Segment → Option String
  | literal s _ => some s
  | command first more => c.textOf (first.text :: more.map fun p => p.2.text)

theorem mapM_settle_append {ps rs} (h : ps.mapM c.settle = .ok rs) (cs : List Char) :
    (textPiece cs ++ ps).mapM c.settle = .ok (textPiece cs ++ rs) := by
  unfold textPiece
  split
  · exact h
  · exact mapM_cons_ok.mpr ⟨_, rs, rfl, h, rfl⟩

/-- Carrying commands out turns them into texts one by one, and leaves the literal text alone. -/
theorem mapM_settle_runs (run : String) : ∀ {t},
    (∀ x ∈ t, ∀ ws, x.words? = some ws → ∃ a, ((answer ws).exec c).1 = .ok a) →
    (runs .command run t).mapM c.settle = .ok (runs c.outcome run t)
  | [], _ => by
    have hnil : ([] : List Piece).mapM c.settle = .ok [] := rfl
    have hrun := mapM_settle_append hnil run.toList
    rwa [append_nil] at hrun
  | literal s _ :: t, h => by
    exact mapM_settle_runs (run ++ s) fun x hx => h x (by simp [hx])
  | command first more :: t, h => by
    have hrest := mapM_settle_runs "" fun x hx => h x (mem_cons_of_mem _ hx)
    have hfirst := settle_eq_outcome (h _ mem_cons_self _ rfl)
    exact mapM_settle_append (mapM_cons_ok.mpr ⟨_, _, hfirst, hrest, rfl⟩) run.toList

end Segment

/-! ## Closed values -/

namespace Template

theorem closedText?_text (s ps) :
    closedText? ⟨.text s :: ps⟩ = (closedText? ⟨ps⟩).map (s ++ ·) := by
  simp only [closedText?, mapM_cons, Piece.text?]
  cases ps.mapM Piece.text? with
  | none => rfl
  | some ss => cases ss <;> simp

theorem closedText?_textPiece (cs ps) :
    closedText? ⟨textPiece cs ++ ps⟩ = (closedText? ⟨ps⟩).map (String.ofList cs ++ ·) := by
  unfold textPiece
  split
  · rename_i hcs
    rw [List.isEmpty_iff.mp hcs]
    simp
  · exact closedText?_text _ ps

end Template

namespace Segment

open SubstContext

variable {c : SubstContext}

theorem closedText?_runs (run : String) : ∀ t : List Segment,
    closedText? ⟨runs c.outcome run t⟩ =
      (t.mapM (textIn c)).map fun ss => run ++ String.join ss
  | [] => by
    have hnil := closedText?_textPiece run.toList []
    rw [append_nil] at hnil
    rw [runs, hnil]
    simp [closedText?]
  | literal s _ :: t => by
    rw [runs, closedText?_runs (run ++ s) t, mapM_cons]
    cases t.mapM (textIn c) <;> simp [textIn, String.append_assoc]
  | command first more :: t => by
    have hrest := closedText?_runs "" t
    rw [runs, closedText?_textPiece, String.ofList_toList, mapM_cons, textIn, outcome]
    cases c.textOf (first.text :: more.map fun p => p.2.text) with
    | none => simp [closedText?, Piece.text?]
    | some s =>
      simp only [closedText?_text, hrest]
      cases t.mapM (textIn c) <;> simp

/-- A value in which every command is answered comes to the texts of its segments, one after the
other, or stays open with the literal runs, the texts that are known and the other commands. -/
theorem substitute_rendered (t : List Segment) (c : SubstContext)
    (h : ∀ x ∈ t, ∀ ws, x.words? = some ws → ∃ a, ((answer ws).exec c).1 = .ok a) :
    ((substitute (rendered t) .text).exec c).1 =
      .ok (match t.mapM (textIn c) with
        | some ss => .text (String.join ss)
        | none => .pending ⟨runs c.outcome "" t⟩) := by
  have heval : wholeEval? (rendered t) = none := by
    refine wholeEval?_rendered fun x hx ws hws => ?_
    obtain ⟨a, ha⟩ := h x hx _ hws
    cases ha
  rw [exec_substitute_fst heval (hasNested_rendered t), scan_rendered, mapM_settle_runs "" h]
  change Kind.text.close ⟨runs c.outcome "" t⟩ = _
  rw [Kind.close, closedText?_runs]
  cases t.mapM (textIn c) with
  | none => rfl
  | some ss =>
    rfl

/-- A stray `$` before a command, two commands side by side, and another `$` at the end. -/
def crowded : List Segment := [
  .literal "$" (plain_of_all (by decide +kernel)),
  .command (.ofText "arg" (by decide +kernel))
    [(.ofText " " (by decide +kernel), .ofText "a" (by decide +kernel))],
  .command (.ofText "env" (by decide +kernel))
    [(.ofText " \t" (by decide +kernel), .ofText "B" (by decide +kernel))],
  .literal "$" (plain_of_all (by decide +kernel))]

/-- The text of the argument looks like a command and stays as it is; the variable is not set. -/
theorem substitute_rendered_crowded :
    rendered crowded = "$$(arg a)$(env \tB)$" ∧
    (∀ x ∈ crowded, ∀ ws, x.words? = some ws →
      ∃ a, ((answer ws).exec { arguments := ⟨[("a", .text "$(env B)")]⟩ }).1 = .ok a) ∧
    ((substitute (rendered crowded) .text).exec { arguments := ⟨[("a", .text "$(env B)")]⟩ }).1 =
      .ok (.pending ⟨[.text "$", .text "$(env B)", .command ["env", "B"], .text "$"]⟩) := by
  have hanswered : ∀ x ∈ crowded, ∀ ws, x.words? = some ws →
      ∃ a, ((answer ws).exec { arguments := ⟨[("a", .text "$(env B)")]⟩ }).1 = .ok a := by
    intro x hx ws hws
    simp only [crowded, mem_cons, not_mem_nil, or_false] at hx
    rcases hx with rfl | rfl | rfl | rfl <;> cases hws
    · exact ⟨.known "$(env B)", by decide +kernel⟩
    · exact ⟨.still ["env", "B"], by decide +kernel⟩
  refine ⟨by decide +kernel, hanswered, (substitute_rendered crowded _ hanswered).trans ?_⟩
  decide +kernel

end Segment

end RosAudit
