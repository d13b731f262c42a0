import RosAudit.CMake.Project
import RosAudit.Proofs.Job

/-!
# What conditions make of their connectives

A condition joins operands by `AND` and `OR`. `Joined` is such a condition as it is written, with
its operands from the left, and `Joined.value` is the value that it has if each connective takes all
that stands to the left of it as one operand.

The evaluation does not give it that value. A connective takes the two operands that stand right
beside it, as they were before any connective was carried out, so the last one decides alone
(`Joined.taken`). For up to two operands this is the same. A bracketed group becomes a truth value
before the words around it are looked at, and the search for the truth of words stops there, so that
no condition with a group in it has a value. `condition_joined` says this of all conditions.
-/

namespace RosAudit.CMake

namespace Project

def operators : List String := unaryTests ++ binaryTests ++ ["NOT", "AND", "OR"]

/-- Does a word count as true? It is a constant, or else a variable. -/
def wordHolds (p : Project) (w : String) : Bool :=
  if Text.upper w ∈ trueWords then true
  else if Text.upper w ∈ falseWords ∨ saysNotFound (Text.upper w) then false
  else
    let v := p.bindings.getD w "FALSE"
    v ∉ falseWords ∧ ¬ saysNotFound v

end Project

open Project List

/-- An operand without its sign : a word that is no operator once its variables are substituted, or
a bracketed group that has a value on its own. -/
inductive Atom (p : Project) (t : FileTree) where
  | word (text meaning : String) (hmeaning : p.substitute text = .ok meaning)
    (hplain : meaning ∉ operators)
  | group (args : List Argument) (b : Bool) (hb : p.condition t args = .ok (.truth b))

/-- An operand, perhaps behind a `NOT`. -/
structure Literal (p : Project) (t : FileTree) where
  negated : Bool
  atom : Atom p t

inductive Junction where
  | both
  | either

def Junction.word : Junction → String
  | both => "AND"
  | either => "OR"

def Junction.apply : Junction → Bool → Bool → Bool
  | both, a, b => a && b
  | either, a, b => a || b

/-- A condition : operands joined by connectives, from the left. -/
inductive Joined (p : Project) (t : FileTree) where
  | one (x : Literal p t)
  | join (c : Joined p t) (j : Junction) (x : Literal p t)

variable {p : Project} {t : FileTree}

namespace Atom

def argument : Atom p t → Argument
  | word text _ _ _ => .word text
  | group args _ _ => .group args

def holds : Atom p t → Bool
  | word _ meaning _ _ => p.wordHolds meaning
  | group _ b _ => b

def isGroup : Atom p t → Bool
  | word .. => false
  | group .. => true

def operand : Atom p t → Operand
  | word _ meaning _ _ => .text meaning
  | group _ b _ => .truth b

end Atom

def Literal.signed {α : Type} (word : String → α) (x : Literal p t) (a : α) : List α :=
  if x.negated then [word "NOT", a] else [a]

def Literal.holds (x : Literal p t) : Bool := x.negated ^^ x.atom.holds

namespace Joined

def layout {α : Type} (word : String → α) (f : Literal p t → List α) : Joined p t → List α
  | one x => f x
  | join c j x => c.layout word f ++ word j.word :: f x

def arguments : Joined p t → List Argument :=
  layout .word fun x => x.signed .word x.atom.argument

def value : Joined p t → Bool
  | one x => x.holds
  | join c j x => j.apply c.value x.holds

def last : Joined p t → Literal p t
  | one x => x
  | join _ _ x => x

def taken : Joined p t → Bool
  | one x => x.holds
  | join c j x => j.apply c.last.holds x.holds

def hasGroup : Joined p t → Bool
  | one x => x.atom.isGroup
  | join c _ x => c.hasGroup || x.atom.isGroup

def length : Joined p t → Nat
  | one _ => 1
  | join c _ _ => c.length + 1

theorem taken_eq_value {c : Joined p t} (h : c.length ≤ 2) : c.taken = c.value := by
  cases c with
  | one x => rfl
  | join c j x =>
    cases c with
    | one y => rfl
    | join c i y => cases c <;> simp [length] at h

end Joined

/-! ## Substitution -/

theorem operands_append (p : Project) (t xs ys) :
    p.operands t (xs ++ ys) = do return (← p.operands t xs) ++ (← p.operands t ys) := by
  induction xs with
  | nil => simp [Project.operands]
  | cons x xs ih => simp [Project.operands, ih]

theorem Atom.operand_argument (x : Atom p t) : p.operand t x.argument = .ok x.operand := by
  cases x with
  | word text meaning hmeaning _ =>
    simp [argument, operand, Project.operand, hmeaning, ok_bind, pure_eq_ok]
  | group args b hb =>
    rw [condition] at hb
    simpa [argument, operand, Project.operand] using hb

variable (j : Junction)

theorem Junction.operand_word : p.operand t (.word j.word) = .ok (.text j.word) := by
  cases j <;> rfl

def Joined.operands : Joined p t → List Operand :=
  layout .text fun x => x.signed .text x.atom.operand

theorem Literal.operands_signed (x : Literal p t) :
    p.operands t (x.signed .word x.atom.argument) = .ok (x.signed .text x.atom.operand) := by
  have hnot : p.operand t (.word "NOT") = .ok (.text "NOT") := rfl
  cases h : x.negated <;>
    simp [signed, h, Project.operands, x.atom.operand_argument, hnot, ok_bind, pure_eq_ok]

theorem Joined.operands_arguments (c : Joined p t) : p.operands t c.arguments = .ok c.operands := by
  unfold arguments operands
  induction c with
  | one x => exact x.operands_signed
  | join c j x ih =>
    simp [layout, operands_append, ih, Project.operands, j.operand_word, x.operands_signed, ok_bind,
      pure_eq_ok]

/-! ## Tests and truths -/

def Untested (xs : List Operand) : Prop :=
  ∀ s, .text s ∈ xs → s ∉ unaryTests ∧ s ∉ binaryTests

section Untested

variable {xs : List Operand}

theorem Untested.tail {x} (h : Untested (x :: xs)) : Untested xs :=
  fun s hs => h s (mem_cons_of_mem x hs)

theorem runUnary_of_untested (h : Untested xs) : p.runUnary t xs = .ok xs := by
  fun_induction runUnary p t xs with
  | case1 => rfl
  | case2 s hs => exact absurd (contains_iff_mem.mp hs) (h s mem_cons_self).1
  | case3 s hs => rfl
  | case4 s a rest hs => exact absurd (contains_iff_mem.mp hs) (h s mem_cons_self).1
  | case5 _ _ _ _ ih | case6 _ _ _ _ ih => rw [ih h.tail]; rfl

theorem runBinary_of_untested (h : Untested xs) (last done) :
    p.runBinary t last done xs = .ok (done.reverse ++ xs) := by
  have hno {s : String} {xs : List Operand} (h : Untested (.text s :: xs)) :
      ¬ binaryTests.contains s = true := fun hs =>
    (h s mem_cons_self).2 (contains_iff_mem.mp hs)
  fun_induction runBinary p t last done xs with
  | case1 last done => simp [pure_eq_ok]
  | case2 last done s hs => exact absurd hs (hno h)
  | case3 | case4 => simp [pure_eq_ok]
  | case5 last y rest s head done isTest hs => exact absurd hs (hno h)
  | case6 last done x y rest isTest hs =>
    cases x with
    | text s => exact absurd hs (hno h)
    | truth b => exact absurd hs Bool.false_ne_true
  | case7 last done x y rest isTest hs ih => simpa using ih h.tail

end Untested

theorem exists_truthOf_text (p : Project) (s : String) : ∃ x, p.truthOf (.text s) = .ok x := by
  simp only [truthOf]
  split
  · exact ⟨_, rfl⟩
  split
  · exact ⟨_, rfl⟩
  split <;> exact ⟨_, rfl⟩

theorem mapM_truthOf_of_truth {xs : List Operand} {b} (h : .truth b ∈ xs) :
    xs.mapM p.truthOf = .error .noField := by
  induction xs with
  | nil => cases h
  | cons x xs ih =>
    cases x with
    | truth => rfl
    | text s =>
      obtain ⟨y, hy⟩ := exists_truthOf_text p s
      rw [mapM_cons, hy, ih (by simpa using h)]
      rfl

theorem truthOf_word {w} (h : w ∉ operators) :
    p.truthOf (.text w) = .ok (.truth (p.wordHolds w)) := by
  have hwords : w ≠ "NOT" ∧ w ≠ "AND" ∧ w ≠ "OR" := by
    simp only [operators, mem_append, mem_cons, not_or] at h
    exact ⟨h.2.1, h.2.2.1, h.2.2.2.1⟩
  simp only [truthOf, wordHolds, contains_iff_mem, Bool.or_eq_true, beq_iff_eq, hwords, or_self,
    if_false]
  split
  · rfl
  · split
    · rfl
    · simp [pure_eq_ok]

theorem Junction.truthOf_word : p.truthOf (.text j.word) = .ok (.text j.word) := by
  cases j <;> rfl

theorem Junction.runNot_word (rest) :
    runNot (.text j.word :: rest) = (.text j.word :: ·) <$> runNot rest := by
  cases j <;> simp [word, runNot]

theorem Atom.untested {x : Atom p t} {s} (h : x.operand = .text s) :
    s ∉ unaryTests ++ binaryTests := by
  cases x with
  | word text meaning hmeaning hplain =>
    cases h
    exact fun hs => hplain (mem_append_left _ hs)
  | group => cases h

namespace Literal

variable {x : Literal p t}

theorem mem_signed {α : Type} {word : String → α} {a b : α}
    (h : b ∈ x.signed word a) : b = word "NOT" ∨ b = a := by
  unfold signed at h
  split at h <;> simp_all

theorem mapM_truthOf_signed (h : x.atom.isGroup = false) :
    (x.signed .text x.atom.operand).mapM p.truthOf =
      .ok (x.signed .text (.truth x.atom.holds)) := by
  have hnot : p.truthOf (.text "NOT") = .ok (.text "NOT") := rfl
  obtain ⟨negated, atom⟩ := x
  cases atom with
  | word text meaning hmeaning hplain =>
    cases negated <;>
      simp [signed, Atom.operand, Atom.holds, hnot, truthOf_word hplain, ok_bind, pure_eq_ok]
  | group => cases h

theorem exists_truth_mem_signed (h : x.atom.isGroup = true) :
    ∃ b, .truth b ∈ x.signed .text x.atom.operand := by
  obtain ⟨negated, atom⟩ := x
  cases atom with
  | word => cases h
  | group args b => exact ⟨b, by cases negated <;> simp [signed, Atom.operand]⟩

theorem runNot_signed (x : Literal p t) (rest) :
    runNot (x.signed .text (.truth x.atom.holds) ++ rest) =
      ([.truth x.holds] ++ ·) <$> runNot rest := by
  cases h : x.negated <;> simp [signed, holds, h, runNot]

end Literal

/-! ## The six passes -/

namespace Joined

variable {c : Joined p t}

theorem mem_layout {α : Type} {word : String → α} {f : Literal p t → List α} {a : α}
    (h : a ∈ c.layout word f) : (∃ j : Junction, a = word j.word) ∨ ∃ x, a ∈ f x := by
  induction c with
  | one x => exact .inr ⟨x, h⟩
  | join c j x ih =>
    rcases mem_append.mp h with h | h
    · exact ih h
    rcases mem_cons.mp h with h | h
    · exact .inl ⟨j, h⟩
    · exact .inr ⟨x, h⟩

theorem untested_operands (c : Joined p t) : Untested c.operands := by
  intro s hs
  have hplain : s ∉ unaryTests ++ binaryTests := by
    rcases mem_layout hs with ⟨j, h⟩ | ⟨x, h⟩
    · cases j <;> cases h <;> decide
    rcases x.mem_signed h with h | h
    · cases h
      decide
    · exact x.atom.untested h.symm
  simpa using hplain

def truths : Joined p t → List Operand :=
  layout .text fun x => x.signed .text (.truth x.atom.holds)

theorem mapM_truthOf_operands (h : c.hasGroup = false) :
    c.operands.mapM p.truthOf = .ok c.truths := by
  unfold operands truths
  induction c with
  | one x => exact x.mapM_truthOf_signed h
  | join c j x ih =>
    simp only [hasGroup, Bool.or_eq_false_iff] at h
    simp [layout, ih h.1, x.mapM_truthOf_signed h.2, j.truthOf_word, ok_bind, pure_eq_ok]

theorem exists_truth_mem_operands (h : c.hasGroup = true) : ∃ b, .truth b ∈ c.operands := by
  unfold operands
  induction c with
  | one x => exact x.exists_truth_mem_signed h
  | join c j x ih =>
    simp only [hasGroup, Bool.or_eq_true] at h
    rcases h with h | h
    · exact (ih h).imp fun b => mem_append_left _
    · exact (x.exists_truth_mem_signed h).imp fun b hb =>
        mem_append_right _ (mem_cons_of_mem _ hb)

def values : Joined p t → List Operand :=
  layout .text fun x => [.truth x.holds]

theorem runNot_truths (c : Joined p t) (rest) :
    runNot (c.truths ++ rest) = (c.values ++ ·) <$> runNot rest := by
  unfold truths values
  induction c generalizing rest with
  | one x => exact x.runNot_signed rest
  | join c j x ih =>
    simp [layout, ih, j.runNot_word, x.runNot_signed]

theorem runJunctions_values (c : Joined p t) (last done rest) :
    runJunctions last done (c.values ++ rest) =
      runJunctions (.truth c.last.holds) (.truth c.taken :: done) rest := by
  unfold values
  induction c generalizing rest with
  | one x => cases rest <;> rfl
  | join c j x ih =>
    simp only [layout, append_assoc, ih, cons_append, nil_append]
    have hlast : (c.join j x).last = x := rfl
    cases j <;> cases h : c.last.holds <;>
      simp [Junction.word, runJunctions, Operand.holds, h, hlast, taken, Junction.apply]

end Joined

open RosAudit.CMake.Joined in
/-- A condition with a group in it has no value, and any other has the value of its last connective
for the two operands beside it. -/
theorem condition_joined (c : Joined p t) :
    p.condition t c.arguments = (if c.hasGroup then .error .noField else .ok (.truth c.taken)) ∧
      (c.taken = c.value ∨ 2 < c.length) := by
  refine ⟨?_, (Nat.lt_or_ge 2 c.length).symm.imp_left taken_eq_value⟩
  rw [condition, c.operands_arguments, ok_bind, evaluate, runUnary_of_untested c.untested_operands,
    ok_bind, runBinary_of_untested c.untested_operands, ok_bind, reverse_nil, nil_append]
  split
  case isTrue h =>
    obtain ⟨b, hb⟩ := exists_truth_mem_operands h
    rw [mapM_truthOf_of_truth hb]
    rfl
  case isFalse h =>
    have hnot := c.runNot_truths []
    have hjoin := c.runJunctions_values (.text "") [] []
    rw [append_nil] at hnot hjoin
    rw [mapM_truthOf_operands (eq_false_of_ne_true h), ok_bind, hnot, runNot, map_pure, pure_eq_ok,
      ok_bind, append_nil, hjoin]
    rfl

/-- `OFF AND ON AND ON` is true, and `(ON) AND ON` has no value. -/
theorem condition_last_connective :
    let p : Project := { sourceDir := "/", binaryDir := "/" }
    let off : Literal p default := ⟨false, .word "OFF" "OFF" rfl (by decide)⟩
    let on : Literal p default := ⟨false, .word "ON" "ON" rfl (by decide)⟩
    let c := ((Joined.one off).join .both on).join .both on
    let d := (Joined.one ⟨false, .group [.word "ON"] true rfl⟩).join .both on
    c.value = false ∧ p.condition default c.arguments = .ok (.truth true) ∧
      d.value = true ∧ p.condition default d.arguments = .error .noField :=
  ⟨rfl, rfl, rfl, rfl⟩

end RosAudit.CMake
