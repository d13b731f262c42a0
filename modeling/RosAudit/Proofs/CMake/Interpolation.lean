import RosAudit.Proofs.CMake.Brackets

/-!
# Variables in arguments

An argument of a build script may refer to variables and to the environment, and the name in a
reference may hold references itself. `Interpolated` is such an argument as a tree : texts without
`$` and braces, and references whose key is a tree again. `render` writes it down, and `value` gives
its value by recursion on the tree : a text stands for itself and a reference for what its key is
bound to, both without double quotes, and neither is read a second time.
-/

namespace RosAudit.CMake

open RosAudit.Text List

/-! ## Arguments with references -/

abbrev PlainText := { cs : List Char // ∀ c ∈ cs, c ≠ '$' ∧ c ≠ '\x7b' ∧ c ≠ '\x7d' }

theorem PlainText.ne_dollar (cs : PlainText) : ∀ c ∈ cs.1, (c != '$') = true :=
  fun c hc => bne_iff_ne.mpr (cs.2 c hc).1

/-- An argument with references, to variables or to the environment. -/
inductive Interpolated where
  | done
  | text (cs : PlainText) (rest : Interpolated)
  | reference (isEnv : Bool) (key rest : Interpolated)

namespace Interpolated

def sign (isEnv : Bool) : List Char := if isEnv then "$ENV".toList else ['$']

def render : Interpolated → List Char
  | done => []
  | text cs rest => cs.1 ++ rest.render
  | reference isEnv key rest =>
    sign isEnv ++ '\x7b' :: (key.render ++ '\x7d' :: rest.render)

def unquoted (cs : List Char) : List Char := cs.filter (· != '"')

/-- The value of an argument; a variable that is not there is empty. -/
def value (p : Project) : Interpolated → List Char
  | done => []
  | text cs rest => unquoted cs.1 ++ rest.value p
  | reference isEnv key rest =>
    let table := if isEnv then p.environment else p.bindings
    unquoted (table.getD (String.ofList (key.value p)) "").toList ++ rest.value p

theorem balanced_render (t : Interpolated) : Balanced '\x7b' '\x7d' t.render := by
  induction t with
  | done => exact .of_plain (forall_mem_nil _)
  | text cs rest ih => exact (Balanced.of_plain fun c hc => (cs.2 c hc).2).append ih
  | reference isEnv key rest ihkey ihrest =>
    have hsign : Balanced '\x7b' '\x7d' (sign isEnv) := .of_plain (by cases isEnv <;> simp [sign])
    simpa [render] using hsign.append ((ihkey.enclose (by decide)).append ihrest)

theorem unquoted_value (p) (t : Interpolated) : unquoted (t.value p) = t.value p := by
  induction t with
  | done => rfl
  | text _ _ ih | reference _ _ _ _ ih => simpa [value, unquoted] using ih

/-- A reference begins with `$`, is recognised, and is read up to the end of its key. -/
theorem read_reference (isEnv) (key rest : Interpolated) :
    let cs := (reference isEnv key rest).render
    cs.takeWhile (· != '$') = [] ∧ cs.dropWhile (· != '$') = cs ∧
    startsWith "$ENV\x7b".toList cs = isEnv ∧ (isEnv || startsWith "$\x7b".toList cs) = true ∧
    ∃ k, readUntilMatch cs ['\x7b', '\x7d'] (if isEnv then 4 else 1) = .ok (key.render, k) ∧
      cs.drop k.toNat = rest.render := by
  have hread := readUntilMatch_enclosed (by decide) key.balanced_render (sign isEnv) rest.render
  refine ⟨?_, ?_, ?_, ?_, (sign isEnv ++ '\x7b' :: (key.render ++ ['\x7d'])).length, ?_, ?_⟩
  · cases isEnv <;> rfl
  · cases isEnv <;> rfl
  · cases isEnv <;> rfl
  · cases isEnv <;> rfl
  · cases isEnv <;> exact hread
  · rw [Int.toNat_natCast]
    simp [render]

theorem substituteChars_render (p : Project) (t : Interpolated) (n) (lead : PlainText)
    (hn : (lead.1 ++ t.render).length < n) :
    p.substituteChars n (lead.1 ++ t.render) = .ok (unquoted lead.1 ++ t.value p) := by
  induction t generalizing n lead with
  | done =>
    obtain ⟨n, rfl⟩ := Nat.exists_eq_add_one.mpr (Nat.zero_lt_of_lt hn)
    simp only [render, value, Project.substituteChars, takeWhile_append_of_pos lead.ne_dollar,
      dropWhile_append_of_pos lead.ne_dollar]
    simp only [takeWhile_nil, dropWhile_nil, isEmpty_nil, ↓reduceIte, pure_bind, append_nil]
    rfl
  | text cs rest ih =>
    -- neighbouring texts are read as one
    have h := ih n ⟨lead.1 ++ cs.1, forall_mem_append.mpr ⟨lead.2, cs.2⟩⟩
      (by simpa [render] using hn)
    simpa [render, value, unquoted] using h
  | reference isEnv key rest ihkey ihrest =>
    obtain ⟨n, rfl⟩ := Nat.exists_eq_add_one.mpr (Nat.zero_lt_of_lt hn)
    obtain ⟨htake, hdrop, henv, hopen, k, hread, hafter⟩ := read_reference isEnv key rest
    have hne : (reference isEnv key rest).render.isEmpty = false := by cases isEnv <;> rfl
    have hkey := ihkey n ⟨[], forall_mem_nil _⟩ (by simp [render] at hn ⊢; omega)
    have hrest := ihrest n ⟨[], forall_mem_nil _⟩ (by simp [render] at hn ⊢; omega)
    simp only [nil_append] at hkey hrest
    simp only [Project.substituteChars, takeWhile_append_of_pos lead.ne_dollar,
      dropWhile_append_of_pos lead.ne_dollar, htake, hdrop, henv, hopen, hread, hne,
      Bool.false_eq_true, ↓reduceIte]
    simp only [bind, Except.bind, hkey, hafter, hrest]
    have hquotes := unquoted_value p rest
    simp only [unquoted] at hquotes
    simp [pure, Except.pure, value, unquoted, hquotes]

/-- The variables of every argument are substituted, at any depth. -/
theorem substitute_render (p : Project) (t : Interpolated) :
    p.substitute (String.ofList t.render) = .ok (String.ofList (t.value p)) := by
  have h := substituteChars_render p t (t.render.length + 2) ⟨[], forall_mem_nil _⟩ (by simp)
  simp only [nil_append, unquoted, filter_nil] at h
  simp only [Project.substitute, String.toList_ofList, String.length_ofList, h]
  rfl

end Interpolated

end RosAudit.CMake
