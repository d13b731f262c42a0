import RosAudit.Proofs.Launch.Evaluation
import RosAudit.Proofs.Launch.Mirror

/-!
# What is refused in a launch file

A value that cannot be used is refused with a cause, and the element that it belongs to leaves an
error in the tree, while the elements around it are read as usual. A launch file as a whole is read
or refused (`malformed_reported`). There is one gap : a command without words, such as `$( )`, stops
the reader with another fault (`substitute_blank`).

A command inside another one is refused only in part. The scanner looks for a `$` in brackets that
hold no bracket, and does not see the outer ones. So the inner command is carried out, and the value
is refused exactly if it would be without its outer brackets (`substitute_nested`). Otherwise these
stay in the answer, which may read as a command again (`substitute_declared`).
-/

namespace RosAudit

open Job List

/-- A substitution was refused. -/
def Fault.IsRefusal (f : Fault) : Prop := ∃ cause, f = .substitution cause

/-- A launch file was refused. -/
def Fault.IsLaunch (f : Fault) : Prop := ∃ cause, f = .launch cause

namespace SubstContext

/-! ## Values -/

/-- Every command of the value has a word. -/
def Worded (value : String) : Prop := Piece.command [] ∉ Template.scan value

theorem throws_answer {w} (hw : w ∈ commands) (ws) : Throws Fault.IsRefusal (answer (w :: ws)) := by
  have refuse {α : Type} (cause : SubstitutionCause) :
      Throws Fault.IsRefusal (throw (.substitution cause) : Job SubstContext α) :=
    throws_throw ⟨cause, rfl⟩
  have henv (vs : List String) (n : String) : Throws Fault.IsRefusal (environmentValue vs n) := by
    refine (throws_modify _).bind fun _ => throws_get.bind fun c => ?_
    split <;> exact throws_pure _
  unfold answer
  split
  case h_1 heq => cases heq
  case h_2 =>
    unfold find
    split
    · refine (throws_modify _).bind fun _ => throws_get.bind fun c => ?_
      split
      · exact refuse _
      all_goals exact throws_pure _
    · exact refuse _
  case h_3 =>
    unfold arg
    split
    · refine throws_get.bind fun c => ?_
      split
      · exact refuse _
      all_goals exact throws_pure _
    · exact refuse _
  case h_4 =>
    unfold anon
    split
    · refine throws_get.bind fun c => ?_
      split
      · exact throws_pure _
      · exact (throws_modify _).bind fun _ => throws_pure _
    · exact refuse _
  case h_5 =>
    split
    · exact henv _ _
    · exact refuse _
  case h_6 =>
    split
    · exact henv _ _
    · exact henv _ _
    · exact refuse _
  case h_7 =>
    refine of_ite (throws_get.bind fun c => ?_) (refuse _)
    split <;> exact throws_pure _
  case h_8 => exact refuse _
  case h_9 => simp_all [commands]

theorem fails_convert (k : Kind) (s : String) : Fails Fault.IsRefusal (k.convert s) := by
  unfold Kind.convert
  repeat' split
  all_goals first
    | exact fails_pure _
    | exact fails_throw ⟨_, rfl⟩

theorem throws_answerPiece {p} (hp : p ≠ .command []) : Throws Fault.IsRefusal (answerPiece p) := by
  rcases p with s | _ | ⟨w, ws⟩
  · exact throws_pure _
  · exact absurd rfl hp
  · by_cases hw : w ∈ commands
    · rw [answerPiece_command ws hw, ← bind_pure_comp]
      exact (throws_answer hw ws).bind fun _ => throws_pure _
    · rw [answerPiece_invalid ws hw]
      exact throws_throw ⟨_, rfl⟩

theorem throws_substitute {value : String} (h : Worded value) (k : Kind) :
    Throws Fault.IsRefusal (substitute value k) := by
  unfold substitute
  split
  · exact throws_pure _
  · refine of_ite (throws_throw ⟨_, rfl⟩) ?_
    refine (chains_throws.mapM fun p hp => throws_answerPiece ?_).bind fun ps => throws_ofResult ?_
    · rintro rfl
      exact h hp
    · unfold Kind.close
      split
      · exact fails_convert _ _
      · exact fails_pure _

end SubstContext

/-! ## Elements -/

open Xml (Element)
open SubstContext (Worded substitute)

/-- Every command in the attributes of the element, and of those inside, has a word. -/
inductive Xml.Element.Worded : Element → Prop
  | mk {name : String} {attrs : List (String × String)} {text : String} {es : List Element}
    (hattrs : ∀ a ∈ attrs, SubstContext.Worded a.2) (hes : ∀ e ∈ es, Worded e) :
    Worded (.mk name attrs text es)

namespace LaunchTree

theorem throws_substituteAttributes {rules} :
    ∀ {attrs}, (∀ a ∈ attrs, Worded a.2) →
      Throws Fault.IsRefusal (substituteAttributes rules attrs)
  | [], _ => throws_pure _
  | (key, value) :: rest, h => by
    obtain ⟨hvalue, hrest⟩ := forall_mem_cons.mp h
    unfold substituteAttributes
    split
    · exact throws_substituteAttributes hrest
    · exact (SubstContext.throws_substitute hvalue _).bind fun v =>
        (throws_substituteAttributes hrest).bind fun _ => throws_pure _

theorem fails_check (k : TagKind) (text attrs) : Fails Fault.IsLaunch (k.check text attrs) := by
  have refuse (cause : LaunchCause) : Fails Fault.IsLaunch (throw (.launch cause) : Result Unit) :=
    fails_throw ⟨cause, rfl⟩
  refine (chains_fails.forIn (fun key _ _ => of_ite ?_ (fails_pure _)) _).bind fun _ => ?_
  · exact fails_throw ⟨_, rfl⟩
  refine of_ite (refuse _) ?_
  unfold TagKind.checkOwn
  split
  · exact of_ite (refuse _) (fails_pure _)
  · split
    case h_4 => exact fails_pure _
    all_goals exact of_ite (refuse _) (fails_pure _)
  · exact of_ite (refuse _) (fails_pure _)
  · exact fails_pure _

theorem throws_ofElement {e} (he : e.Worded) : Throws Fault.IsLaunch (ofElement e) := by
  induction he with
  | @mk name attrs text es hattrs _ ih =>
    have hes : ∀ {es'}, es' ⊆ es → Throws Fault.IsLaunch (ofElements es') := by
      intro es' hes'
      induction es' with
      | nil => exact throws_pure _
      | cons e es' ihes =>
        obtain ⟨he, hes'⟩ := cons_subset.mp hes'
        exact (ih e he).bind fun t => (ihes hes').bind fun ts => throws_pure _
    unfold ofElement
    split
    · exact throws_pure _
    · rename_i k _
      intro c f c' h
      rw [exec_bind, exec_attempt] at h
      -- what is refused in the attributes becomes an error in the tree
      rcases hsub : (substituteAttributes k.schema attrs).exec c with ⟨f | as, d⟩ <;> rw [hsub] at h
      · obtain ⟨cause, rfl⟩ := throws_substituteAttributes hattrs c f d hsub
        cases h
      · refine Throws.bind (throws_ofResult (fails_check _ _ _)) (fun _ => ?_) d f c' h
        refine Throws.bind ?_ fun _ => (hes (List.Subset.refl _)).bind fun ts => throws_pure _
        unfold declareArgument
        split
        · exact throws_modify _
        · exact throws_pure _

theorem exec_ofElements_append {es es' c₁ c₂ ts'} (h' : (ofElements es').exec c₁ = (.ok ts', c₂)) :
    ∀ {c ts}, (ofElements es).exec c = (.ok ts, c₁) →
      (ofElements (es ++ es')).exec c = (.ok (ts ++ ts'), c₂) := by
  induction es with
  | nil =>
    intro c ts h
    cases h
    exact h'
  | cons e es ih =>
    intro c ts h
    obtain ⟨t, d, us, he, hes, rfl⟩ := ofElements_cons_ok h
    rw [cons_append, ofElements, exec_bind_of_ok he, exec_bind_of_ok (ih hes), exec_pure]
    rfl

/-- If all commands have words, a substitution succeeds or is refused, and so does the reading of a
launch file. An element whose attributes are refused leaves an error between the trees of the
elements around it. -/
theorem malformed_reported (value document : String) (kind : Kind) {es es' : List Element}
    {e : Element} {k : TagKind} :
    (Worded value → Throws Fault.IsRefusal (substitute value kind)) ∧
    ((∀ e, Element.parse document = some e → e.Worded) →
      Throws Fault.IsLaunch (ofDocument document)) ∧
    ∀ {cause c c₁ c₂ c₃ ts ts'}, TagKind.ofName? e.name = some k →
      (ofElements es).exec c = (.ok ts, c₁) →
      (substituteAttributes k.schema e.attributes).exec c₁ = (.error (.substitution cause), c₂) →
      (ofElements es').exec c₂ = (.ok ts', c₃) →
      (ofElements (es ++ e :: es')).exec c = (.ok (ts ++ .error cause.text :: ts'), c₃) := by
  refine ⟨fun h => SubstContext.throws_substitute h kind, fun h => ?_, ?_⟩
  · unfold ofDocument
    split
    · exact throws_throw ⟨_, rfl⟩
    · rename_i e he
      exact of_ite (throws_ofElement (h e he)) (throws_throw ⟨_, rfl⟩)
  · intro cause c c₁ c₂ c₃ ts ts' hk hes ha hes'
    have he : (ofElement e).exec c₁ = (.ok (.error cause.text), c₂) := by
      cases e
      exact ofElement_ok_iff.mpr (.refused hk ha _ _)
    refine exec_ofElements_append ?_ hes
    rw [ofElements, exec_bind_of_ok he, exec_bind_of_ok hes', exec_pure]

/-- A group that asks for a package nobody knows. -/
def lostGroup : Element := .mk "group" [("ns", "$(find lost)")] "" []

/-- A group that cannot be read stands between two that can. -/
theorem malformed_reported_lost :
    Throws Fault.IsRefusal (substitute "$(find lost)" .text) ∧
    Throws Fault.IsLaunch (ofDocument "<group ns=\"$(find lost)\"/>") ∧
    ∃ c, (ofElements [.mk "group" [] "" [], lostGroup, .mk "group" [] "" []]).exec {} =
      (.ok [.tag .group "" ⟨[]⟩ [], .error (SubstitutionCause.unknownPackage "lost").text,
        .tag .group "" ⟨[]⟩ []], c) := by
  have hworded : Worded "$(find lost)" := by
    unfold Worded
    decide
  have hparse : Element.parse "<group ns=\"$(find lost)\"/>" = some lostGroup := rfl
  obtain ⟨hvalue, hdocument, helements⟩ := @malformed_reported "$(find lost)"
    "<group ns=\"$(find lost)\"/>" .text [.mk "group" [] "" []] [.mk "group" [] "" []]
      lostGroup .group
  refine ⟨hvalue hworded, hdocument fun e he => ?_, _, helements rfl rfl rfl rfl⟩
  obtain rfl := Option.some.inj (hparse.symm.trans he)
  exact .mk (by simpa using hworded) (by simp)

/-- A command without words is not refused : it stops the reader. -/
theorem substitute_blank : ((substitute "$( )" .text).exec {}).1 = .error .outOfRange := by
  decide

end LaunchTree

/-! ## Nested commands -/

open Template
open RosAudit.Text (words)

variable {p u w x ys : List Char} {c : SubstContext} {ps qs : List Piece}

/-- The faults with which some pieces are refused : one if any. -/
def SubstContext.refused (c : SubstContext) (ps : List Piece) (f : Fault) : Prop :=
  ps.mapM c.settle = .error f

theorem map_error {α β : Type} {r : Result α} (g : α → β) {f : Fault} :
    (r >>= fun a => pure (g a)) = .error f ↔ r = .error f := by
  cases r <;> simp [bind, Except.bind, pure, Except.pure]

theorem refused_append (rs) (h : c.refused ps = c.refused qs) :
    c.refused (rs ++ ps) = c.refused (rs ++ qs) := by
  funext f
  simp only [SubstContext.refused, mapM_append]
  cases rs.mapM c.settle with
  | error _ => rfl
  | ok _ =>
    rw [ok_bind, ok_bind, map_error, map_error]
    exact congrFun h f

theorem refused_textPiece (cs ps) : c.refused (textPiece cs ++ ps) = c.refused ps := by
  unfold textPiece
  split
  · rfl
  · funext f
    have htext (s : String) : c.settle (.text s) = .ok (.text s) := rfl
    rw [SubstContext.refused, singleton_append, mapM_cons, htext, ok_bind, map_error]
    rfl

namespace Template

/-- The literal text under way does not count. -/
theorem refused_scanFrom (s : List Char) : ∀ k lit lit',
    c.refused (scanFrom k lit s) = c.refused (scanFrom k lit' s) := by
  induction s with
  | nil =>
    intro k lit lit'
    have htext := fun cs => refused_textPiece (c := c) cs []
    simp only [append_nil] at htext
    rw [scanFrom, scanFrom, htext, htext]
  | cons d s ih =>
    intro k lit lit'
    cases k with
    | succ k => exact ih k lit lit'
    | zero =>
      simp only [scanFrom]
      cases commandAt? (d :: s) with
      | none => exact ih 0 _ _
      | some y => simp only [refused_textPiece]

theorem takeWhile_isInner_append (p ys : List Char) :
    (p ++ '$' :: ys).takeWhile isInner = p.takeWhile isInner := by
  induction p with
  | nil => rfl
  | cons c p ih => simp [takeWhile_cons, ih]

theorem dropWhile_isInner_append (p ys : List Char) :
    (p ++ '$' :: ys).dropWhile isInner = p.dropWhile isInner ++ '$' :: ys := by
  induction p with
  | nil => rfl
  | cons c p ih =>
    rw [cons_append, dropWhile_cons, dropWhile_cons, ih]
    split <;> rfl

/-- A bracket that opens before another `$(` closes before it, and has no `$` inside that it had not
without it. -/
theorem opens_append (c : Char) (p ys : List Char) :
    (commandAt? (c :: (p ++ '$' :: '(' :: ys)) =
      (commandAt? (c :: p)).map fun y => (y.1, y.2 ++ '$' :: '(' :: ys)) ∧
    nestedAt (c :: (p ++ '$' :: '(' :: ys)) = nestedAt (c :: p) := by
  by_cases hp : ∃ cs, c = '$' ∧ p = '(' :: cs
  · obtain ⟨cs, rfl, rfl⟩ := hp
    simp only [cons_append, commandAt?, nestedAt, takeWhile_isInner_append,
      dropWhile_isInner_append]
    rcases cs.dropWhile isInner with _ | ⟨d, ds⟩
    · cases cs.takeWhile isInner <;> exact ⟨rfl, rfl⟩
    · constructor
      · by_cases hd : d = ')'
        · subst hd
          cases cs.takeWhile isInner <;> rfl
        · simp [hd]
      · by_cases hd : d = '$'
        · subst hd
          simp only [cons_append, dropWhile_isInner_append]
          cases ds.dropWhile isInner <;> rfl
        · simp [hd]
  · have hno (zs : List Char) :
        c = '$' → (p ++ '$' :: zs).head? ≠ some '(' ∧ p.head? ≠ some '(' := by
      rintro rfl
      rcases p with _ | ⟨d, p⟩
      · simp
      · refine ⟨?_, ?_⟩ <;>
        · rintro ⟨⟩
          exact hp ⟨p, rfl, rfl⟩
    simp [not_opens fun hc => (hno ('(' :: ys) hc).1, not_opens fun hc => (hno [] hc).2]

theorem eq_of_commandAt? {cs body rest} (h : commandAt? cs = some (body, rest)) :
    cs = '$' :: '(' :: (body ++ ')' :: rest) := by
  unfold commandAt? at h
  split at h
  · rename_i cs
    split at h
    · rename_i htake hdrop
      cases h
      rw [← htake, ← hdrop, takeWhile_append_dropWhile]
    · cases h
  · cases h

theorem hasNested_append_open (p ys : List Char) :
    hasNested (p ++ '$' :: '(' :: ys) = (hasNested p || hasNested ('$' :: '(' :: ys)) := by
  induction p with
  | nil => rfl
  | cons c p ih => simp only [cons_append, hasNested, opens_append, ih, Bool.or_assoc]

theorem refused_append_open (p : List Char) : ∀ {k} lit, k ≤ p.length →
    c.refused (scanFrom k lit (p ++ '$' :: '(' :: ys)) =
      c.refused (scanFrom k lit p ++ scanFrom 0 [] ('$' :: '(' :: ys)) := by
  induction p with
  | nil =>
    intro k lit hk
    obtain rfl : k = 0 := Nat.le_zero.mp hk
    rw [scanFrom, refused_textPiece]
    exact refused_scanFrom _ 0 lit []
  | cons d p ih =>
    intro k lit hk
    cases k with
    | succ k => exact ih lit (Nat.le_of_succ_le_succ hk)
    | zero =>
      simp only [cons_append, scanFrom, opens_append]
      cases hcommand : commandAt? (d :: p) with
      | none => exact ih _ (Nat.zero_le _)
      | some y =>
        have hlen := congrArg List.length (eq_of_commandAt? hcommand)
        simp only [length_cons, length_append] at hlen
        simp only [Option.map_some, append_assoc, refused_textPiece]
        exact refused_append [_] (ih [] (by omega))

theorem scanFrom_append_of_ne (ys : List Char) : ∀ {x lit}, (∀ d ∈ x, d ≠ '$') →
    scanFrom 0 lit (x ++ ys) = scanFrom 0 (x.reverse ++ lit) ys
  | [], _, _ => rfl
  | d :: x, lit, h => by
    obtain ⟨hd, hx⟩ := forall_mem_cons.mp h
    rw [cons_append, scanFrom, (not_opens fun h => absurd h hd).1, scanFrom_append_of_ne ys hx,
      reverse_cons, append_assoc, singleton_append]

theorem ne_dollar_of_isInner {cs : List Char} (h : cs.all isInner = true) : ∀ d ∈ cs, d ≠ '$' := by
  rintro d hd rfl
  exact absurd (all_eq_true.mp h _ hd) (by decide)

theorem ne_dollar_of_closed {cs : List Char} (h : cs.all isInner = true) :
    ∀ d ∈ cs ++ [')'], d ≠ '$' :=
  forall_mem_append.mpr ⟨ne_dollar_of_isInner h, by simp⟩

/-- A bracket that does not close is literal text. -/
theorem open_isInner (h : u.all isInner = true) :
    scanFrom 0 [] ('$' :: '(' :: u) = textPiece ('$' :: '(' :: u) ∧
      hasNested ('$' :: '(' :: u) = false := by
  have hne : ∀ d ∈ '(' :: u, d ≠ '$' := forall_mem_cons.mpr ⟨by decide, ne_dollar_of_isInner h⟩
  have hdrop : u.dropWhile isInner = [] := by
    rw [← append_nil u, dropWhile_append_of_pos (all_eq_true.mp h)]
    rfl
  have hscan : scanFrom 0 ['$'] ('(' :: u ++ []) = _ := scanFrom_append_of_ne [] hne
  have hnested := hasNested_append hne []
  rw [append_nil] at hscan hnested
  constructor
  · have hnone : commandAt? ('$' :: '(' :: u) = none := by simp [commandAt?, hdrop]
    rw [scanFrom, hnone]
    refine hscan.trans ?_
    simp [scanFrom]
  · rw [hasNested, hnested]
    simp [nestedAt, hdrop, hasNested]

/-- A value with a command inside the brackets of another. -/
def nested (p u w x s : String) : String := p ++ "$(" ++ u ++ "$(" ++ w ++ ")" ++ x ++ ")" ++ s

theorem toList_nested (p u w x s : String) : (nested p u w x s).toList =
    p.toList ++ '$' :: '(' :: (u.toList ++ '$' :: '(' ::
      (w.toList ++ ')' :: (x.toList ++ [')'] ++ s.toList))) := by
  simp [nested]

end Template

section Nested

variable {p u w x s : String} (hu : u.toList.all isInner = true) (hw : w.toList.all isInner = true)
  (hx : x.toList.all isInner = true)
include hu hw hx

/-- The nesting is not what is refused : only brackets before and after it count. -/
theorem hasNested_nested :
    hasNested (nested p u w x s).toList = (hasNested p.toList || hasNested s.toList) := by
  have hinner := hasNested_append_open ('$' :: '(' :: u.toList)
    (w.toList ++ ')' :: (x.toList ++ [')'] ++ s.toList))
  rw [(open_isInner hu).2, Bool.false_or, Segment.hasNested_command (all_eq_true.mp hw),
    hasNested_append (ne_dollar_of_closed hx)] at hinner
  rw [toList_nested, hasNested_append_open, ← hinner]
  rfl

theorem refused_nested (hne : w ≠ "") : c.refused (scan (nested p u w x s)) =
    c.refused (scan p ++ .command (words w) :: scan s) := by
  rw [scan, toList_nested, refused_append_open _ [] (Nat.zero_le _)]
  refine refused_append _ ?_
  refine (refused_append_open ('$' :: '(' :: u.toList) [] (Nat.zero_le _)).trans ?_
  rw [(open_isInner hu).1, refused_textPiece, Segment.scanFrom_command (by simpa using hne)
    (all_eq_true.mp hw), refused_textPiece, String.ofList_toList,
    scanFrom_append_of_ne _ (ne_dollar_of_closed hx)]
  exact refused_append [_] (refused_scanFrom _ 0 _ _)

/-- A nested value is refused only if it would be without its outer brackets, which stay as they
are. -/
theorem substitute_nested (hne : w ≠ "") (heval : wholeEval? (nested p u w x s) = none)
    (c : SubstContext) (cause : SubstitutionCause) :
    ((substitute (nested p u w x s) .text).exec c).1 = .error (.substitution cause) ↔
      if hasNested p.toList || hasNested s.toList then cause = .nested
      else (scan p ++ .command (words w) :: scan s).mapM c.settle =
        .error (.substitution cause) := by
  have hnested := hasNested_nested (p := p) (s := s) hu hw hx
  split
  · rename_i h
    rw [h] at hnested
    simp [SubstContext.substitute, heval, hnested, eq_comm]
  · rename_i h
    rw [Bool.eq_false_iff.mpr h] at hnested
    rw [SubstContext.exec_substitute_fst heval hnested]
    refine Iff.trans ?_ (iff_of_eq (congrFun (refused_nested hu hw hx hne) _))
    rw [SubstContext.refused]
    cases (scan (nested p u w x s)).mapM c.settle with
    | error f => simp [bind, Except.bind]
    | ok rs =>
      simp only [ok_bind, Kind.close]
      split <;> simp [Kind.convert, pure, Except.pure]

end Nested

theorem substitute_nested_rig :
    ((substitute (nested "" "find " "arg pkg" "" "") .text).exec {}).1 =
      .error (.substitution (.undeclaredArg "pkg")) :=
  (substitute_nested (by decide) (by decide) (by decide) (by decide) (by decide) {} _).mpr (by
    decide)

/-- The inner argument is declared, so the value is not refused : a command stands in the answer. -/
theorem substitute_declared : ((substitute "$(arg $(arg name))" .text).exec
    { arguments := Table.ofList [("name", .text "x")] }).1 = .ok (.text "$(arg x)") := by
  decide

end RosAudit
