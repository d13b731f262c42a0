import RosAudit.CMake.Line

/-!
# The layout of a command

The arguments of a command may be written on one line or on many, with any white space between them.
`Token` is an argument as it stands in a script, and `Lays ts cs` says that `cs` has the tokens `ts`
in this order, with white space between them and perhaps behind the last one.

A command on one line keeps its arguments as they are written. One on several lines has them cut
apart and joined again by blanks, so that they are cut twice. Both ways end in the same arguments.
-/

namespace RosAudit.CMake

open RosAudit.Text List

/-- One argument as it is written : a bare word, a text in double quotes or a bracket. -/
inductive Token where
  | word (cs : List Char) (hne : cs ≠ []) (hbare : ∀ c ∈ cs, isBare c = true ∧ c ≠ '\\' ∧ c ≠ '#')
  | quoted (cs : List Char) (hplain : ∀ c ∈ cs, c ≠ '"' ∧ c ≠ '\\')
  | bracket (isOpening : Bool)

def Token.text : Token → List Char
  | word cs _ _ => cs
  | quoted cs _ => '"' :: (cs ++ ['"'])
  | bracket isOpening => [if isOpening then '(' else ')']

/-- White space between arguments. -/
def IsGap (cs : List Char) : Prop := ∀ c ∈ cs, c = ' ' ∨ c = '\t' ∨ c = '\n'

/-- The text has the tokens in order, with gaps between them and perhaps behind. -/
inductive Lays : List Token → List Char → Prop
  | last (t : Token) {gap : List Char} (hgap : IsGap gap) : Lays [t] (t.text ++ gap)
  | more (t : Token) {gap rest : List Char} {ts : List Token} (hgap : IsGap gap) (hne : gap ≠ [])
    (h : Lays ts rest) : Lays (t :: ts) (t.text ++ (gap ++ rest))

/-! ## Characters -/

theorem IsGap.isBlank {cs} (h : IsGap cs) : ∀ c ∈ cs, isBlank c = true := by
  intro c hc
  rcases h c hc with rfl | rfl | rfl <;> rfl

theorem isBlank_of_isBare {c} (h : isBare c = true) : isBlank c = false := by
  simp only [isBare, Bool.not_eq_true', Bool.or_eq_false_iff] at h
  exact h.2

theorem Token.text_eq_cons (t : Token) : ∃ c w, t.text = c :: w ∧ isBlank c = false ∧ c ≠ '#' := by
  cases t with
  | word cs hne hbare =>
    obtain ⟨c, w, rfl⟩ := exists_cons_of_ne_nil hne
    obtain ⟨hc, -, hsharp⟩ := hbare c mem_cons_self
    exact ⟨c, w, rfl, isBlank_of_isBare hc, hsharp⟩
  | quoted cs hplain => exact ⟨'"', cs ++ ['"'], rfl, rfl, by decide⟩
  | bracket isOpening => cases isOpening <;> exact ⟨_, [], rfl, rfl, by decide⟩

theorem Token.text_eq_concat (t : Token) : ∃ w c, t.text = w ++ [c] ∧ isBlank c = false := by
  cases t with
  | word cs hne hbare =>
    refine ⟨cs.dropLast, cs.getLast hne, (dropLast_concat_getLast hne).symm, ?_⟩
    exact isBlank_of_isBare (hbare _ (getLast_mem hne)).1
  | quoted cs hplain => exact ⟨'"' :: cs, '"', rfl, rfl⟩
  | bracket isOpening => cases isOpening <;> exact ⟨[], _, rfl, rfl⟩

/-! ## Cutting -/

/-- A cutter finds each token before a gap or the end, and nothing in a gap. -/
structure Finds (at? : Option Char → List Char → Option (List Char)) : Prop where
  token : ∀ prev (t : Token) after, (∀ c ∈ after.head?, isBlank c = true) →
    at? prev (t.text ++ after) = some t.text
  gap : ∀ prev c after, isBlank c = true → at? prev (c :: after) = none

variable {ts : List Token} {cs : List Char}

section Cutting

variable {at? : Option Char → List Char → Option (List Char)}

theorem scanWith_skip (at? : Option Char → List Char → Option (List Char)) (w cs prev) :
    ∃ prev', scanWith at? w.length prev (w ++ cs) = scanWith at? 0 prev' cs := by
  induction w generalizing prev with
  | nil => exact ⟨prev, rfl⟩
  | cons c w ih =>
    obtain ⟨prev', h⟩ := ih (some c)
    exact ⟨prev', h⟩

theorem Finds.scanWith_gap (h : Finds at?) {gap} (hgap : IsGap gap) (cs prev) :
    ∃ prev', scanWith at? 0 prev (gap ++ cs) = scanWith at? 0 prev' cs := by
  induction gap generalizing prev with
  | nil => exact ⟨prev, rfl⟩
  | cons c gap ih =>
    obtain ⟨prev', hcs⟩ := ih (fun c hc => hgap c (mem_cons_of_mem _ hc)) (some c)
    refine ⟨prev', ?_⟩
    rwa [cons_append, scanWith, h.gap _ _ _ (hgap.isBlank c mem_cons_self)]

theorem Finds.scanWith_token (h : Finds at?) (t : Token) (hcs : ∀ c ∈ cs.head?, isBlank c = true)
    (prev) :
    ∃ prev', scanWith at? 0 prev (t.text ++ cs) = t.text :: scanWith at? 0 prev' cs := by
  have hfound := h.token prev t cs hcs
  obtain ⟨c, w, hw, -⟩ := t.text_eq_cons
  rw [hw] at hfound ⊢
  obtain ⟨prev', hskip⟩ := scanWith_skip at? w cs (some c)
  refine ⟨prev', ?_⟩
  rw [cons_append] at hfound ⊢
  rw [scanWith, hfound]
  simp [hskip]

theorem Finds.scanWith_laid (h : Finds at?) (hcs : Lays ts cs) (prev) :
    scanWith at? 0 prev cs = ts.map Token.text := by
  induction hcs generalizing prev with
  | @last t gap hgap =>
    have hhead : ∀ c ∈ gap.head?, isBlank c = true :=
      fun c hc => hgap.isBlank c (mem_of_mem_head? hc)
    obtain ⟨prev', htoken⟩ := h.scanWith_token t hhead prev
    obtain ⟨prev'', hend⟩ := h.scanWith_gap hgap [] prev'
    rw [append_nil] at hend
    rw [htoken, hend]
    simp [scanWith]
  | @more t gap rest ts hgap hne _ ih =>
    have hhead : ∀ c ∈ (gap ++ rest).head?, isBlank c = true := by
      obtain ⟨c, gap, rfl⟩ := exists_cons_of_ne_nil hne
      simpa using hgap.isBlank c mem_cons_self
    obtain ⟨prev', htoken⟩ := h.scanWith_token t hhead prev
    obtain ⟨prev'', hrest⟩ := h.scanWith_gap hgap rest prev'
    rw [htoken, hrest, ih, map_cons]

end Cutting

theorem bareWord_cons {c} (h : c ≠ '\\') (cs : List Char) :
    bareWord (c :: cs) = if isBare c then c :: bareWord cs else [] :=
  bareWord.eq_2 c cs fun _ _ hc => absurd hc h

theorem bareWord_append {after} (h : ∀ c ∈ cs, isBare c = true ∧ c ≠ '\\' ∧ c ≠ '#')
    (hafter : ∀ c ∈ after.head?, isBlank c = true) : bareWord (cs ++ after) = cs := by
  induction cs with
  | nil =>
    cases after with
    | nil => rfl
    | cons c after =>
      have hc : isBlank c = true := hafter c rfl
      have hne : c ≠ '\\' := by
        rintro rfl
        cases hc
      simp [bareWord_cons hne, isBare, hc]
  | cons c cs ih =>
    obtain ⟨hc, hne, -⟩ := h c mem_cons_self
    have hrest := ih fun c hc => h c (mem_cons_of_mem _ hc)
    rw [cons_append, bareWord_cons hne, if_pos hc, hrest]

theorem quotedRest_append (cs after : List Char) (h : ∀ c ∈ cs, c ≠ '"' ∧ c ≠ '\\') :
    quotedRest '"' (cs ++ '"' :: after) = some (cs ++ ['"']) := by
  induction cs with
  | nil => simp [quotedRest]
  | cons c cs ih =>
    obtain ⟨hquote, hne⟩ := h c mem_cons_self
    have hrest := ih fun c hc => h c (mem_cons_of_mem _ hc)
    simp [quotedRest, hrest, hne, hquote]

theorem finds_arguments : Finds fun _ cs => argumentAt? cs where
  token prev t after hafter := by
    cases t with
    | word cs hne hbare =>
      obtain ⟨c, w, rfl⟩ := exists_cons_of_ne_nil hne
      have hc := (hbare c mem_cons_self).1
      have hword := bareWord_append hbare hafter
      simp only [isBare, Bool.not_eq_true', Bool.or_eq_false_iff] at hc
      simp only [cons_append] at hword
      simp [Token.text, argumentAt?, hword, hc.1.1.1.1, hc.1.1.1.2, hc.1.1.2, hc.1.2]
    | quoted cs hplain => simp [Token.text, argumentAt?, quotedRest_append cs after hplain]
    | bracket isOpening => cases isOpening <;> rfl
  gap prev c after hc := by
    have hword : bareWord (c :: after) = [] := bareWord_append (forall_mem_nil _) (by simpa)
    have hne (d : Char) (hd : isBlank d = false) : c ≠ d := by
      rintro rfl
      rw [hc] at hd
      cases hd
    simp [argumentAt?, hword, hne '(' rfl, hne ')' rfl, hne '"' rfl, hne '\x27' rfl]

theorem finds_chunks : Finds fun prev cs =>
    if cs.head? == some '#' && prev != some '\\' then some (commentText cs)
    else argumentAt? cs where
  token prev t after hafter := by
    obtain ⟨c, w, hw, -, hne⟩ := t.text_eq_cons
    have htoken := finds_arguments.token prev t after hafter
    simpa [hw, hne] using htoken
  gap prev c after hc := by
    have hne : c ≠ '#' := by
      rintro rfl
      cases hc
    simpa [hne] using finds_arguments.gap prev c after hc

/-! ## Arguments on one line and on several -/

theorem Lays.split (h : Lays ts cs) :
    ∃ w c gap, cs = w ++ [c] ++ gap ∧ isBlank c = false ∧ IsGap gap ∧ Lays ts (w ++ [c]) := by
  induction h with
  | @last t gap hgap =>
    obtain ⟨w, c, hw, hc⟩ := t.text_eq_concat
    refine ⟨w, c, gap, by rw [hw], hc, hgap, ?_⟩
    simpa [hw] using Lays.last t (forall_mem_nil _)
  | @more t gap rest ts hgap hne _ ih =>
    obtain ⟨w, c, gap', rfl, hc, hgap', hlaid⟩ := ih
    refine ⟨t.text ++ (gap ++ w), c, gap', by simp, hc, hgap', ?_⟩
    simpa using Lays.more t hgap hne hlaid

theorem Lays.trimRight (h : Lays ts cs) : Lays ts (trimRight cs) := by
  obtain ⟨w, c, gap, rfl, hc, hgap, hlaid⟩ := h.split
  have hrev : ∀ c ∈ gap.reverse, isBlank c = true :=
    fun c hc => hgap.isBlank c (mem_reverse.mp hc)
  have htrim : Text.trimRight (w ++ [c] ++ gap) = w ++ [c] := by
    simp [Text.trimRight, dropWhile_append_of_pos hrev, hc]
  rwa [htrim]

theorem Lays.intercalate (hne : ts ≠ []) : Lays ts ([' '].intercalate (ts.map Token.text)) := by
  have hblank : IsGap [' '] := by simp [IsGap]
  induction ts with
  | nil => exact absurd rfl hne
  | cons t ts ih =>
    cases ts with
    | nil => simpa using Lays.last t (forall_mem_nil _)
    | cons t' ts =>
      have := Lays.more t hblank (by simp) (ih (by simp))
      simpa [List.intercalate] using this

theorem splitArguments_laid (h : Lays ts cs) :
    splitArguments (String.ofList cs) = ts.map fun t => String.ofList t.text := by
  simp [splitArguments, finds_arguments.scanWith_laid h]

theorem gather_laid (h : Lays ts cs) :
    (Line.gather cs none).2 = none ∧
      splitArguments (Line.gather cs none).1 = ts.map fun t => String.ofList t.text := by
  have hne : ts ≠ [] := by cases h <;> simp
  have hchunks : splitChunks cs = ts.map Token.text := finds_chunks.scanWith_laid h none
  have hcode : ∀ w ∈ ts.map Token.text, (w.head? == some '#') = false := by
    intro w hw
    obtain ⟨t, -, rfl⟩ := mem_map.mp hw
    obtain ⟨c, w, hw, -, hsharp⟩ := t.text_eq_cons
    simp [hw, hsharp]
  have hnone : (ts.map Token.text).filter (fun w => w.head? == some '#') = [] :=
    filter_eq_nil_iff.mpr fun w hw => by simp [hcode w hw]
  have hall : (ts.map Token.text).filter (fun w => !(w.head? == some '#')) = ts.map Token.text :=
    filter_eq_self.mpr fun w hw => by simp [hcode w hw]
  simp only [Line.gather, hchunks, hnone, hall]
  refine ⟨rfl, ?_⟩
  rw [← splitArguments_laid (Lays.intercalate hne)]
  congr 1
  rw [← String.toList_inj]
  simp [Function.comp_def]

/-! ## The command -/

section Closing

variable {after : List Char} {comment : Option (List Char)}
  (hafter : ∀ before, Line.closing? before after = none) (htail : Line.tail? after = some comment)

include hafter htail

theorem closing?_append (before cs : List Char) (hne : before ++ cs ≠ []) :
    Line.closing? before (cs ++ ')' :: after) =
      some (trimRight (before.reverse ++ cs), comment) := by
  induction cs generalizing before with
  | nil =>
    have hbefore : before.isEmpty = false := by simpa using hne
    simp [Line.closing?, hafter, hbefore, htail]
  | cons c cs ih =>
    rw [cons_append, Line.closing?, ih (c :: before) (by simp)]
    simp

theorem command?_append {name lead} (hname : name ≠ []) (hword : ∀ c ∈ name, isWord c = true)
    (hlead : ∀ c ∈ lead, isBlank c = true) {c} (hc : isBlank c = false) (cs : List Char) :
    Line.command? (name ++ '(' :: (lead ++ (c :: cs ++ ')' :: after))) =
      some (name, some (trimRight (c :: cs)), comment) := by
  have hstop : isWord '(' = false := rfl
  have hsolid : isBlank '(' = false := rfl
  have hclose := closing?_append hafter htail [] (c :: cs) (by simp)
  simp only [Line.command?, takeWhile_append_of_pos hword, dropWhile_append_of_pos hword,
    takeWhile_cons, dropWhile_cons, hstop, hsolid, dropWhile_append_of_pos hlead,
    cons_append, hc, Bool.false_eq_true, ↓reduceIte, append_nil]
  simp only [cons_append] at hclose
  simp [hname, hclose]

end Closing

theorem isBlank_of_isWord {c} (h : isWord c = true) : isBlank c = false := by
  have hnone : ((range' 9 5 ++ range' 28 5 ++ range' 0x2000 11 ++
      [0x85, 0xa0, 0x1680, 0x2028, 0x2029, 0x202f, 0x205f, 0x3000]).all fun n =>
        !((Char.ofNat n).isAlphanum || Char.ofNat n == '_' ||
          (127 < n && kindIn kindRuns n == 1))) = true := by
    decide +kernel
  rw [isWord] at h
  rw [Bool.eq_false_iff]
  intro hblank
  have hc := all_eq_true.mp hnone c.toNat (by simp [isBlank] at hblank ⊢; omega)
  rw [Char.ofNat_toNat, h] at hc
  cases hc

theorem Lays.eq_cons (h : Lays ts cs) : ∃ c w, cs = c :: w ∧ isBlank c = false := by
  obtain ⟨t, rest, rfl⟩ : ∃ (t : Token) (rest : List Char), cs = t.text ++ rest := by
    cases h <;> exact ⟨_, _, rfl⟩
  obtain ⟨c, w, hw, hc, -⟩ := t.text_eq_cons
  exact ⟨c, w ++ rest, by rw [hw]; rfl, hc⟩

theorem command?_laid {name lead} (hname : name ≠ []) (hword : ∀ c ∈ name, isWord c = true)
    (hlead : IsGap lead) (h : Lays ts cs) :
    Line.command? (name ++ '(' :: (lead ++ (cs ++ [')']))) =
      some (name, some (trimRight cs), none) := by
  obtain ⟨c, w, rfl, hc⟩ := h.eq_cons
  exact command?_append (fun _ => rfl) rfl hname hword hlead.isBlank hc w

/-- A command has the name and the arguments that it was written with, in every layout. -/
theorem parse_laid {name lead : List Char} (hname : name ≠ [])
    (hword : ∀ c ∈ name, isWord c = true) (hlead : IsGap lead) (h : Lays ts cs) :
    ∃ args, Line.parse (String.ofList (name ++ '(' :: (lead ++ (cs ++ [')'])))) =
        .ok { command := String.ofList name, arguments := some args, comment := none } ∧
      splitArguments args = ts.map fun t => String.ofList t.text := by
  have hbody : (name ++ '(' :: (lead ++ (cs ++ [')']))).dropWhile isBlank =
      name ++ '(' :: (lead ++ (cs ++ [')'])) := by
    obtain ⟨c, w, rfl⟩ := exists_cons_of_ne_nil hname
    simp [isBlank_of_isWord (hword c mem_cons_self)]
  simp only [Line.parse, String.toList_ofList, hbody, command?_laid hname hword hlead h]
  split
  · obtain ⟨hnone, hsplit⟩ := gather_laid h.trimRight
    exact ⟨_, by rw [hnone]; rfl, hsplit⟩
  · exact ⟨_, rfl, splitArguments_laid h.trimRight⟩

/-- A word, a text of two lines with a comment sign and a bracket in it, and a bracket. -/
def sample : List Token :=
  [.word ['x'] (by decide) (List.forall_mem_singleton.mpr ⟨rfl, by decide, by decide⟩),
    .quoted ['a', '\n', '#', '(', 'b'] (by simp), .bracket false]

/-- The arguments of a command over three lines, with brackets that do not match. -/
theorem parse_laid_sample :
    Lays sample "x\t\"a\n#(b\" \n )".toList ∧
    ∃ args, Line.parse "set(\n x\t\"a\n#(b\" \n ))" =
        .ok { command := "set", arguments := some args, comment := none } ∧
      splitArguments args = ["x", "\"a\n#(b\"", ")"] := by
  have htab : IsGap ['\t'] := by simp [IsGap]
  have hbreak : IsGap [' ', '\n', ' '] := by simp [IsGap]
  have hlead : IsGap ['\n', ' '] := by simp [IsGap]
  have hlaid : Lays sample "x\t\"a\n#(b\" \n )".toList :=
    .more _ htab (by decide) (.more _ hbreak (by decide) (.last _ (forall_mem_nil _)))
  have hname : "set".toList ≠ [] := by decide
  have hword : "set".toList.all isWord = true := by decide +kernel
  exact ⟨hlaid, parse_laid hname (all_eq_true.mp hword) hlead hlaid⟩

end RosAudit.CMake
