import RosAudit.Proofs.CMake.Layout
import RosAudit.Proofs.Job

/-!
# Comments behind a command

A comment may stand behind the closing bracket of a command. The command and its comment are told
apart by the last bracket behind which nothing or another comment stands, and a comment is free
text. So a comment that ends in a bracket, or has a bracket before a `#`, is cut there. What stands
before becomes a part of the arguments.

* `IsOpen cs` : no bracket in `cs` may end a command;
* `isOpen_or_split` : a text is open or splits at the last bracket that may end a command.
-/

namespace RosAudit.CMake

open RosAudit.Text List

/-- A command with its arguments on one line, and a comment behind it. -/
structure Commented where
  name : List Char
  args : List Char
  /-- The comment without its sign. -/
  text : List Char
  name_ne : name ≠ []
  isWord_name : ∀ c ∈ name, isWord c = true
  args_ne : args ≠ []
  solid_args : ∀ c, c ∈ args.head? ∨ c ∈ args.getLast? → isBlank c = false
  solid_text : ∀ c ∈ text.getLast?, isBlank c = false
  oneLine : '\n' ∉ args ++ text

def Commented.line (x : Commented) : List Char :=
  x.name ++ '(' :: (x.args ++ ')' :: ' ' :: '#' :: x.text)

/-- Behind a bracket, can a command end here? -/
def MayEnd (cs : List Char) : Prop := ∀ c ∈ (cs.dropWhile isBlank).head?, c = '#'

/-- No bracket in the text may end a command. -/
def IsOpen (cs : List Char) : Prop := ∀ u v, cs = u ++ ')' :: v → ¬ MayEnd v

/-- The comment behind a bracket that ends a command. -/
def commentBehind (cs : List Char) : Option (List Char) :=
  if cs.dropWhile isBlank = [] then none else some (cs.dropWhile isBlank)

section Splits

variable {cs : List Char}

theorem IsOpen.cons {c : Char} (h : IsOpen cs) (hc : c = ')' → ¬ MayEnd cs) : IsOpen (c :: cs) := by
  intro u v huv
  cases u with
  | nil =>
    obtain ⟨rfl, rfl⟩ := List.cons.inj huv
    exact hc rfl
  | cons d u => exact h u v (List.cons.inj huv).2

theorem isOpen_or_split (cs : List Char) :
    IsOpen cs ∨ ∃ u v, cs = u ++ ')' :: v ∧ MayEnd v ∧ IsOpen v := by
  induction cs with
  | nil => exact .inl fun u v h => absurd h (by simp)
  | cons c cs ih =>
    rcases ih with ih | ⟨u, v, rfl, hv, hopen⟩
    · by_cases hc : c = ')' ∧ MayEnd cs
      · exact .inr ⟨[], cs, by rw [hc.1]; rfl, hc.2, ih⟩
      · exact .inl (ih.cons (not_and.mp hc))
    · exact .inr ⟨c :: u, v, rfl, hv, hopen⟩

theorem tail?_of_not_mayEnd (hline : '\n' ∉ cs) (h : ¬ MayEnd cs) : Line.tail? cs = none := by
  have hblank : '\n' ∉ cs.takeWhile isBlank :=
    fun hc => hline ((List.takeWhile_prefix isBlank).subset hc)
  cases hrest : cs.dropWhile isBlank with
  | nil => simp [MayEnd, hrest] at h
  | cons c rest =>
    have hc : c ≠ '#' := by simpa [MayEnd, hrest] using h
    simp [Line.tail?, hrest, hc, hblank]

theorem closing?_of_isOpen (hline : '\n' ∉ cs) (h : IsOpen cs) (before : List Char) :
    Line.closing? before cs = none := by
  induction cs generalizing before with
  | nil => rfl
  | cons c cs ih =>
    have hrest : '\n' ∉ cs := fun hc => hline (mem_cons_of_mem _ hc)
    have hopen : IsOpen cs := fun u v huv => h (c :: u) v (by rw [huv]; rfl)
    rw [Line.closing?, ih hrest hopen]
    by_cases hc : c = ')'
    · have htail := tail?_of_not_mayEnd hrest (h [] cs (by rw [hc]; rfl))
      simp [htail]
    · simp [hc]

theorem trimRight_of_solid (h : ∀ c ∈ cs.getLast?, isBlank c = false) : trimRight cs = cs := by
  rcases cs.eq_nil_or_concat with rfl | ⟨w, c, rfl⟩
  · rfl
  · have hc : isBlank c = false := h c (by simp)
    simp [trimRight, hc]

theorem tail?_of_mayEnd (hline : '\n' ∉ cs) (hsolid : ∀ c ∈ cs.getLast?, isBlank c = false)
    (h : MayEnd cs) : Line.tail? cs = some (commentBehind cs) := by
  obtain ⟨blanks, hcs⟩ := dropWhile_suffix (l := cs) isBlank
  cases hrest : cs.dropWhile isBlank with
  | nil => simp [Line.tail?, commentBehind, hrest]
  | cons c rest =>
    obtain rfl : c = '#' := by simpa [MayEnd, hrest] using h
    rw [hrest] at hcs
    have hline : ('#' :: rest).takeWhile (· != '\n') = '#' :: rest := by
      have hall : ∀ d ∈ '#' :: rest, (d != '\n') = true := by
        intro d hd
        rw [bne_iff_ne]
        rintro rfl
        exact hline (hcs ▸ mem_append_right _ hd)
      rw [← append_nil ('#' :: rest), takeWhile_append_of_pos hall, takeWhile_nil]
    have htrim : trimRight ('#' :: rest) = '#' :: rest := trimRight_of_solid fun d hd =>
      hsolid d (by rw [← hcs, getLast?_append, hd]; rfl)
    simp [Line.tail?, commentBehind, hrest, commentText, hline, htrim]

end Splits

theorem Commented.parse_split (x : Commented) {w v : List Char}
    (h : ')' :: ' ' :: '#' :: x.text = w ++ ')' :: v) (hv : MayEnd v) (hopen : IsOpen v) :
    Line.parse (String.ofList x.line) =
      .ok { command := String.ofList x.name
            arguments := some (String.ofList (trimRight (x.args ++ w)))
            comment := (commentBehind v).map String.ofList } := by
  have hone : '\n' ∉ x.args ++ ')' :: ' ' :: '#' :: x.text := by simpa using x.oneLine
  rw [h, ← append_assoc, mem_append, mem_cons, not_or, not_or] at hone
  have hlast : ∀ c ∈ (')' :: ' ' :: '#' :: x.text).getLast?, isBlank c = false := by
    intro c hc
    cases ht : x.text.getLast? with
    | none =>
      obtain rfl : '#' = c := by simpa [getLast?_cons, ht] using hc
      rfl
    | some d => exact x.solid_text c (by simpa [getLast?_cons, ht] using hc)
  have hend := tail?_of_mayEnd hone.2.2
    (fun c hc => hlast c (by simp [h, getLast?_cons, Option.mem_def.mp hc])) hv
  have hbody : x.line.dropWhile isBlank = x.line := by
    obtain ⟨c, name, hname⟩ := exists_cons_of_ne_nil x.name_ne
    have hc := isBlank_of_isWord (x.isWord_name c (by simp [hname]))
    simp [Commented.line, hname, hc]
  have hcommand : Line.command? x.line =
      some (x.name, some (trimRight (x.args ++ w)), commentBehind v) := by
    obtain ⟨c, args, hargs⟩ := exists_cons_of_ne_nil x.args_ne
    have hc := x.solid_args c (.inl (by simp [hargs]))
    have := command?_append (closing?_of_isOpen hone.2.2 hopen) hend x.name_ne x.isWord_name
      (forall_mem_nil _) hc (args ++ w)
    simpa [Commented.line, h, hargs] using this
  have hargs : '\n' ∉ trimRight (x.args ++ w) := fun hc => hone.1 <| by
    rw [trimRight, mem_reverse] at hc
    exact mem_reverse.mp ((dropWhile_suffix isBlank).subset hc)
  simp [Line.parse, hbody, hcommand, hargs, pure_eq_ok]

/-- A command with a comment is read as it is written if no bracket of the comment may end a
command. Otherwise the arguments reach up to the last one that may, and the comment is what stands
behind. -/
theorem parse_commented (x : Commented) :
    (IsOpen x.text ∧ Line.parse (String.ofList x.line) =
      .ok { command := String.ofList x.name, arguments := some (String.ofList x.args)
            comment := some (String.ofList ('#' :: x.text)) }) ∨
    ∃ u v, x.text = u ++ ')' :: v ∧ MayEnd v ∧ IsOpen v ∧ Line.parse (String.ofList x.line) =
      .ok { command := String.ofList x.name
            arguments := some (String.ofList (trimRight (x.args ++ ')' :: ' ' :: '#' :: u)))
            comment := (commentBehind v).map String.ofList } := by
  rcases isOpen_or_split x.text with hopen | ⟨u, v, huv, hv, hopen⟩
  · refine .inl ⟨hopen, ?_⟩
    have hargs : trimRight x.args = x.args :=
      trimRight_of_solid fun c hc => x.solid_args c (.inr hc)
    have hmay : MayEnd (' ' :: '#' :: x.text) := by rintro c ⟨⟩; rfl
    have hparse := x.parse_split (w := []) rfl hmay
      ((hopen.cons fun h => absurd h (by decide)).cons fun h => absurd h (by decide))
    rwa [append_nil, hargs] at hparse
  · exact .inr ⟨u, v, huv, hv, hopen, x.parse_split (by rw [huv]; rfl) hv hopen⟩

def bracketed : Commented where
  name := "set".toList
  args := "a b".toList
  text := " see (x)".toList
  name_ne := by decide
  isWord_name := by
    have h : "set".toList.all isWord = true := by decide +kernel
    exact List.all_eq_true.mp h
  args_ne := by decide
  solid_args := by rintro c (h | h) <;> cases h <;> rfl
  solid_text := by rintro c ⟨⟩; rfl
  oneLine := by simp

/-- The comment is taken for a part of the arguments. -/
theorem parse_bracketed :
    String.ofList bracketed.line = "set(a b) # see (x)" ∧
      Line.parse (String.ofList bracketed.line) =
        .ok { command := "set", arguments := some "a b) # see (x", comment := none } := by
  have hopen : IsOpen [] := fun u v h => absurd h (by simp)
  exact ⟨rfl, bracketed.parse_split (w := ") # see (x".toList) (v := []) rfl (by simp [MayEnd])
    hopen⟩

end RosAudit.CMake
