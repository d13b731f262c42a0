import Mathlib.Computability.Language
import Mathlib.Data.List.Chain
import RosAudit.Name
import RosAudit.Pattern.Match

/-!
# What an unresolved name stands for

A `?` in a full name stands for a part that is not known, and the pattern of the name tells which
names it may stand for. `Name.instances` says the same without patterns : a name is cut into places,
and each place has the texts that may stand there.

`Denotes p l` : from every position, `p` matches just the texts of the language `l`.
-/

namespace RosAudit

open RosAudit.Text List

/-! ## Languages of patterns -/

namespace Pattern

variable {p q : Pattern} {l l' : Language Char}

/-- From every position after which no line ends, the pattern matches just the texts of `l`. -/
def Denotes (p : Pattern) (l : Language Char) : Prop :=
  ∀ a : Position, '\n' ∉ a.rest → ∀ v, (∃ b ∈ ends p a, b.rest = v) ↔ ∃ u ∈ l, u ++ v = a.rest

/-- The pattern matches from a position if and only if what follows belongs to the language. -/
def Accepts (p : Pattern) (l : Language Char) : Prop :=
  ∀ a : Position, '\n' ∉ a.rest → ((∃ b, b ∈ ends p a) ↔ a.rest ∈ l)

theorem exists_mem_step (test : Char → Bool) {a v} :
    (∃ b ∈ step test a, b.rest = v) ↔ ∃ c, test c = true ∧ c :: v = a.rest := by
  rcases a with ⟨prev, _ | ⟨c, rest⟩⟩
  · simp [step]
  · cases h : test c with
    | true =>
      simp only [step, h, ↓reduceIte, mem_singleton, exists_eq_left, List.cons.injEq]
      constructor
      · intro hv
        exact ⟨c, h, rfl, hv.symm⟩
      · rintro ⟨_, -, -, hv⟩
        exact hv.symm
    | false =>
      simp +contextual [step, h]

theorem notMem_of_append {u v w : List Char} (hw : '\n' ∉ w) (h : u ++ v = w) : '\n' ∉ v :=
  fun hv => hw (h ▸ mem_append_right u hv)

theorem denotes_empty : Denotes .empty 1 := by
  intro a _ v
  simp [ends, Language.mem_one, eq_comm]

theorem denotes_char (c : Char) : Denotes (.char c) {[c]} := by
  intro a _ v
  have hmem (u : List Char) : u ∈ ({[c]} : Language Char) ↔ u = [c] := Iff.rfl
  simp [ends, exists_mem_step, hmem]

theorem Denotes.seq (hp : Denotes p l) (hq : Denotes q l') : Denotes (.seq p q) (l * l') := by
  intro a ha v
  simp only [ends, mem_eraseDups, mem_flatMap]
  constructor
  · rintro ⟨c, ⟨b, hb, hc⟩, rfl⟩
    obtain ⟨u, hu, hrest⟩ := (hp a ha b.rest).mp ⟨b, hb, rfl⟩
    obtain ⟨u', hu', hrest'⟩ := (hq b (notMem_of_append ha hrest) c.rest).mp ⟨c, hc, rfl⟩
    exact ⟨u ++ u', ⟨u, hu, u', hu', rfl⟩, by rw [append_assoc, hrest', hrest]⟩
  · rintro ⟨_, ⟨u, hu, u', hu', rfl⟩, hrest⟩
    rw [append_assoc] at hrest
    obtain ⟨b, hb, hv⟩ := (hp a ha _).mpr ⟨u, hu, hrest⟩
    obtain ⟨c, hc, rfl⟩ := (hq b (hv ▸ notMem_of_append ha hrest) v).mpr ⟨u', hu', hv.symm⟩
    exact ⟨c, ⟨b, hb, hc⟩, rfl⟩

theorem Denotes.accepts_seq (hp : Denotes p l) (hq : Accepts q l') :
    Accepts (.seq p q) (l * l') := by
  intro a ha
  simp only [ends, mem_eraseDups, mem_flatMap, Language.mem_mul]
  constructor
  · rintro ⟨c, b, hb, hc⟩
    obtain ⟨u, hu, hrest⟩ := (hp a ha b.rest).mp ⟨b, hb, rfl⟩
    exact ⟨u, hu, b.rest, (hq b (notMem_of_append ha hrest)).mp ⟨c, hc⟩, hrest⟩
  · rintro ⟨u, hu, v, hv, hrest⟩
    obtain ⟨b, hb, rfl⟩ := (hp a ha v).mpr ⟨u, hu, hrest⟩
    obtain ⟨c, hc⟩ := (hq b (notMem_of_append ha hrest)).mpr hv
    exact ⟨c, b, hb, hc⟩

theorem accepts_finish : Accepts (.seq .finish .empty) 1 := by
  intro a ha
  have hline : a.rest ≠ ['\n'] := fun h => ha (h ▸ mem_singleton_self _)
  by_cases h : a.rest = [] <;> simp [ends, h, hline, Language.mem_one]

theorem Accepts.matchesStart (h : Accepts p l) {t} (ht : '\n' ∉ t.toList) :
    p.matchesStart t = true ↔ t.toList ∈ l := by
  simp [Pattern.matchesStart, ← h ⟨none, t.toList⟩ ht, eq_nil_iff_forall_not_mem]

/-! ## Repetitions -/

def Reaches (f : Position → List Position) : Nat → Position → Position → Prop
  | 0, a, b => a = b
  | k + 1, a, b => ∃ c ∈ f a, Reaches f k c b

section Rounds

variable {f : Position → List Position} {ps : List Position}

theorem mem_of_reaches (h : ∀ a ∈ ps, ∀ b ∈ f a, b ∈ ps) {k a b} (ha : a ∈ ps)
    (hab : Reaches f k a b) : b ∈ ps := by
  induction k generalizing a with
  | zero => exact hab ▸ ha
  | succ k ih =>
    obtain ⟨c, hc, hcb⟩ := hab
    exact ih (h a ha c hc) hcb

theorem mem_further {n b} : b ∈ further f n ps ↔ ∃ k ≤ n, ∃ a ∈ ps, Reaches f k a b := by
  induction n generalizing ps with
  | zero => simp [further, Reaches]
  | succ n ih =>
    rw [further]
    generalize heq : ((ps.flatMap f).eraseDups).filter (fun p => !ps.contains p) = next
    have hnext : ∀ c, c ∈ next ↔ (∃ a ∈ ps, c ∈ f a) ∧ c ∉ ps := by
      simp [← heq]
    split
    · rename_i hempty
      have hclosed : ∀ a ∈ ps, ∀ b ∈ f a, b ∈ ps := by
        intro a ha b hb
        by_contra hnew
        have := (hnext b).mpr ⟨⟨a, ha, hb⟩, hnew⟩
        rw [List.isEmpty_iff.mp hempty] at this
        exact not_mem_nil this
      refine ⟨fun hb => ⟨0, Nat.zero_le _, b, hb, rfl⟩, ?_⟩
      rintro ⟨k, -, a, ha, hab⟩
      exact mem_of_reaches hclosed ha hab
    · rw [ih]
      constructor
      · rintro ⟨k, hk, c, hc, hcb⟩
        rcases mem_append.mp hc with hc | hc
        · exact ⟨k, Nat.le_succ_of_le hk, c, hc, hcb⟩
        · obtain ⟨⟨a, ha, hac⟩, -⟩ := (hnext c).mp hc
          exact ⟨k + 1, Nat.succ_le_succ hk, a, ha, c, hac, hcb⟩
      · rintro ⟨k, hk, a, ha, hab⟩
        cases k with
        | zero => exact ⟨0, Nat.zero_le _, a, mem_append_left _ ha, hab⟩
        | succ k =>
          obtain ⟨c, hac, hcb⟩ := hab
          refine ⟨k, Nat.le_of_succ_le_succ hk, c, ?_, hcb⟩
          by_cases hc : c ∈ ps
          · exact mem_append_left _ hc
          · exact mem_append_right _ ((hnext c).mpr ⟨⟨a, ha, hac⟩, hc⟩)

theorem mem_rounds {extra least b} :
    b ∈ rounds f extra least ps ↔ ∃ k ≤ extra, ∃ a ∈ ps, Reaches f (least + k) a b := by
  induction least generalizing ps with
  | zero => simp [rounds, mem_further]
  | succ least ih =>
    simp only [rounds, ih, mem_eraseDups, mem_flatMap, Nat.succ_add]
    constructor
    · rintro ⟨k, hk, c, ⟨a, ha, hc⟩, hb⟩
      exact ⟨k, hk, a, ha, c, hc, hb⟩
    · rintro ⟨k, hk, a, ha, c, hc, hb⟩
      exact ⟨k, hk, c, ⟨a, ha, hc⟩, hb⟩

end Rounds

theorem Denotes.optional (hp : Denotes p l) : Denotes (.times p 0 (some 1)) (1 + l) := by
  intro a ha v
  have hmem (b : Position) : b ∈ ends (.times p 0 (some 1)) a ↔ b = a ∨ b ∈ ends p a := by
    simp only [ends, mem_rounds, mem_singleton, exists_eq_left]
    constructor
    · rintro ⟨k, hk, hab⟩
      obtain rfl | rfl : k = 0 ∨ k = 1 := by omega
      · exact .inl hab.symm
      · obtain ⟨c, hc, rfl⟩ := hab
        exact .inr hc
    · rintro (rfl | hb)
      · exact ⟨0, Nat.zero_le _, rfl⟩
      · exact ⟨1, by omega, b, hb, rfl⟩
  simp only [hmem, or_and_right, exists_or, exists_eq_left, hp a ha v, Language.mem_add,
    Language.mem_one, nil_append]
  rw [eq_comm]

theorem exists_reaches_any {k : Nat} {a : Position} (ha : '\n' ∉ a.rest) {v : List Char} :
    (∃ b, Reaches (ends .any) k a b ∧ b.rest = v) ↔
      ∃ u : List Char, u.length = k ∧ u ++ v = a.rest := by
  induction k generalizing a with
  | zero => simp [Reaches, eq_comm]
  | succ k ih =>
    constructor
    · rintro ⟨b, ⟨c, hc, hcb⟩, hv⟩
      obtain ⟨d, -, hrest⟩ := (exists_mem_step _).mp ⟨c, hc, rfl⟩
      obtain ⟨u, rfl, hu⟩ := (ih (notMem_of_append (u := [d]) ha hrest)).mp ⟨b, hcb, hv⟩
      exact ⟨d :: u, rfl, by rw [cons_append, hu, hrest]⟩
    · rintro ⟨_ | ⟨d, u⟩, hu, hrest⟩
      · cases hu
      · have hd : (d != '\n') = true := bne_iff_ne.mpr fun h => ha (hrest ▸ h ▸ mem_cons_self)
        obtain ⟨c, hc, hcrest⟩ := (exists_mem_step (· != '\n')).mpr ⟨d, hd, hrest⟩
        obtain ⟨b, hcb, hv⟩ := (ih (hcrest ▸ notMem_of_append (u := [d]) ha hrest)).mpr
          ⟨u, Nat.succ.inj hu, hcrest.symm⟩
        exact ⟨b, ⟨c, hc, hcb⟩, hv⟩

def atLeast (n : Nat) : Language Char := { u : List Char | n ≤ u.length }

theorem denotes_repeated (least : Nat) : Denotes (.times .any least none) (atLeast least) := by
  intro a ha v
  simp only [ends, mem_rounds, mem_singleton, exists_eq_left]
  constructor
  · rintro ⟨b, ⟨k, -, hab⟩, hv⟩
    obtain ⟨u, hlength, hu⟩ := (exists_reaches_any ha).mp ⟨b, hab, hv⟩
    have hle := congrArg List.length hu
    rw [length_append] at hle
    exact ⟨u, show least ≤ u.length by omega, hu⟩
  · rintro ⟨u, hleast, hu⟩
    change least ≤ u.length at hleast
    have hle := congrArg List.length hu
    rw [length_append] at hle
    obtain ⟨b, hab, hv⟩ := (exists_reaches_any ha).mpr ⟨u, rfl, hu⟩
    refine ⟨b, ⟨u.length - least, by omega, ?_⟩, hv⟩
    rwa [show min least (a.rest.length + 1) + (u.length - least) = u.length by omega]

end Pattern

namespace Name

/-! ## Places -/

/-- A place in a name : a character that is known, or an unknown part. The part may be anything, or
has some text at least, or is a whole level with the slash before it. -/
inductive Place where
  | known (c : Char)
  | any
  | filled
  | level

namespace Place

/-- The texts that may stand in a place. A level is missing, or has some text after its slash. -/
def language : Place → Language Char
  | known c => {[c]}
  | any => Pattern.atLeast 0
  | filled => Pattern.atLeast 1
  | level => 1 + {['/']} * Pattern.atLeast 1

def render : Place → List Char
  | known c => [c]
  | any => ['(', '.', '*', '?', ')']
  | filled => ['(', '.', '+', '?', ')']
  | level => ['(', '/', '.', '+', '?', ')', '?']

/-- A pattern in brackets. -/
def group (p : Pattern) : Pattern := .seq p (.seq .empty .empty)

def pattern : Place → Pattern
  | known c => .char c
  | any => group (.seq (.times .any 0 none) .empty)
  | filled => group (.seq (.times .any 1 none) .empty)
  | level => .times (group (.seq (.char '/') (.seq (.times .any 1 none) .empty))) 0 (some 1)

theorem denotes_group {p l} (h : p.Denotes l) : (group p).Denotes l := by
  simpa [group] using h.seq (Pattern.denotes_empty.seq Pattern.denotes_empty)

theorem denotes_pattern (p : Place) : p.pattern.Denotes p.language := by
  have hrepeated (n : Nat) :
      Pattern.Denotes (.seq (.times .any n none) .empty) (Pattern.atLeast n) := by
    simpa using (Pattern.denotes_repeated n).seq Pattern.denotes_empty
  cases p with
  | known c => exact Pattern.denotes_char c
  | any => exact denotes_group (hrepeated 0)
  | filled => exact denotes_group (hrepeated 1)
  | level => exact (denotes_group ((Pattern.denotes_char '/').seq (hrepeated 1))).optional

/-- The pattern of places one after the other, up to the end of the text. -/
def patterns (ps : List Place) : Pattern :=
  ps.foldr (fun p q => .seq p.pattern q) (.seq .finish .empty)

theorem accepts_patterns (ps) : (patterns ps).Accepts (ps.map language).prod := by
  induction ps with
  | nil => exact Pattern.accepts_finish
  | cons p ps ih => exact p.denotes_pattern.accepts_seq ih

/-! ## Reading the pattern -/

def signs : List Char := ['(', ')', '[', '.', '^', '$', '\\', '|', '*', '+', '?', '\x7b']

def Plain : Place → Prop
  | known c => c ∉ signs
  | _ => True

/-- What begins with no repetition mark. -/
def Unmarked (cs : List Char) : Prop := ∀ c ∈ cs.head?, c ∉ ['*', '+', '?', '\x7b']

variable {p : Place} {ps : List Place} {cs rest : List Char}

theorem Unmarked.repetition? (h : Unmarked cs) : Pattern.repetition? cs = none := by
  unfold Pattern.repetition?
  split <;> simp_all [Unmarked]

theorem item_plain {c} (h : c ∉ signs) (n : Nat) (rest : List Char) :
    Pattern.item (n + 1) (c :: rest) = .ok (.char c, rest) := by
  have hmark : Unmarked (c :: rest) := by
    intro d hd hmem
    obtain rfl := Option.mem_some_iff.mp hd
    exact h (mem_of_mem_drop (i := 8) hmem)
  have hnone := hmark.repetition?
  simp only [signs] at h
  unfold Pattern.item
  split <;> simp_all [pure, Except.pure]

theorem withRepetition_unmarked (p : Pattern) (h : Unmarked cs) :
    p.withRepetition cs = .ok (p, cs) := by
  simp [Pattern.withRepetition, h.repetition?, pure, Except.pure]

theorem withRepetition_optional {p : Pattern} (hp : p.repeatable = true) (h : Unmarked cs) :
    p.withRepetition ('?' :: cs) = .ok (.times p 0 (some 1), cs) := by
  have hnone := h.repetition?
  have hsome : Pattern.repetition? ('?' :: cs) = some (0, some 1, cs) := rfl
  cases cs with
  | nil => simp [Pattern.withRepetition, hsome, hp, hnone, pure, Except.pure]
  | cons c cs =>
    have hc : c ≠ '?' ∧ c ≠ '+' := by
      simp [Unmarked] at h
      simp [h]
    simp [Pattern.withRepetition, hsome, hp, hnone, hc, pure, Except.pure]

theorem item_render (hp : p.Plain) {n} (hn : p.render.length ≤ n) (hrest : Unmarked rest) :
    ∃ q rest', Pattern.item n (p.render ++ rest) = .ok (q, rest') ∧
      Pattern.withRepetition q rest' = .ok (p.pattern, rest) := by
  obtain ⟨n, rfl⟩ := Nat.exists_eq_add_of_le' hn
  cases p with
  | known c => exact ⟨_, _, item_plain hp n rest, withRepetition_unmarked _ hrest⟩
  | any => exact ⟨Place.pattern .any, rest, rfl, withRepetition_unmarked _ hrest⟩
  | filled => exact ⟨Place.pattern .filled, rest, rfl, withRepetition_unmarked _ hrest⟩
  | level =>
    exact ⟨group (.seq (.char '/') (.seq (.times .any 1 none) .empty)), '?' :: rest, rfl,
      withRepetition_optional rfl hrest⟩

theorem sequence_item {rest' rest'' : List Char} {p p' q : Pattern} {n : Nat}
    (hcs : ∃ c ∈ cs.head?, c ≠ '|' ∧ c ≠ ')') (hitem : Pattern.item n cs = .ok (p, rest))
    (hrep : p.withRepetition rest = .ok (p', rest'))
    (hseq : Pattern.sequence n rest' = .ok (q, rest'')) :
    Pattern.sequence (n + 1) cs = .ok (.seq p' q, rest'') := by
  unfold Pattern.sequence
  split <;> simp_all [bind, Except.bind, pure, Except.pure]

def renderAll (ps : List Place) : List Char := ps.flatMap render ++ ['$']

theorem unmarked_renderAll (hps : ∀ p ∈ ps, p.Plain) : Unmarked (renderAll ps) := by
  cases ps with
  | nil => simp [Unmarked, renderAll]
  | cons p ps =>
    cases p <;> simp_all [Unmarked, renderAll, render, Plain, signs]

theorem head?_render (hp : p.Plain) (rest : List Char) :
    ∃ c ∈ (p.render ++ rest).head?, c ≠ '|' ∧ c ≠ ')' := by
  cases p <;> simp_all [render, Plain, signs]

theorem sequence_renderAll (hps : ∀ p ∈ ps, p.Plain) {n} (hn : (renderAll ps).length + 2 ≤ n) :
    Pattern.sequence n (renderAll ps) = .ok (patterns ps, []) := by
  induction ps generalizing n with
  | nil =>
    obtain ⟨n, rfl⟩ := Nat.exists_eq_add_of_le' hn
    rfl
  | cons p ps ih =>
    obtain ⟨hp, hps⟩ := forall_mem_cons.mp hps
    have hall : renderAll (p :: ps) = p.render ++ renderAll ps := by simp [renderAll]
    have hlength : 0 < p.render.length := by cases p <;> exact Nat.succ_pos _
    rw [hall, length_append] at hn
    obtain ⟨n, rfl⟩ : ∃ k, n = k + 1 := ⟨n - 1, by omega⟩
    obtain ⟨q, rest, hitem, hrep⟩ := item_render hp (n := n) (by omega) (unmarked_renderAll hps)
    rw [hall]
    exact sequence_item (head?_render hp _) hitem hrep (ih hps (by omega))

theorem parse_renderAll (hps : ∀ p ∈ ps, p.Plain) :
    Pattern.parse (String.ofList (renderAll ps)) = .ok (patterns ps) := by
  have hsequence := sequence_renderAll hps (n := 3 * (renderAll ps).length + 2) (by omega)
  simp [Pattern.parse, Pattern.alternatives, hsequence, bind, Except.bind, pure, Except.pure]

end Place

/-! ## The places of a name -/

def placesFrom (prev : Option Char) : List Char → List Place
  | [] => []
  | '/' :: '?' :: '/' :: rest => .level :: placesFrom (some '?') ('/' :: rest)
  | '?' :: rest =>
    (if prev = some '/' ∧ rest = [] then .filled else .any) :: placesFrom (some '?') rest
  | c :: rest => .known c :: placesFrom (some c) rest

/-- The places of a name. A name that is unknown altogether has some text at least. -/
def places (n : Name) : List Place :=
  if n.full = "?" then [.filled] else placesFrom none n.full.toList

/-- The texts that a name may stand for. -/
def instances (n : Name) : Language Char := (n.places.map Place.language).prod

/-- No two unknown parts stand next to each other. -/
def Apart (cs : List Char) : Prop := cs.IsChain fun a b => ¬ (a = '?' ∧ b = '?')

variable {n : Name} {prev : Option Char} {cs rest more : List Char} (lit : List Char)

theorem patternFrom_known {c} (hc : c ≠ '?') :
    patternFrom lit prev (c :: rest) = patternFrom (c :: lit) (some c) rest := by
  rwa [patternFrom]

theorem patternFrom_unknown (hprev : prev ≠ some '?')
    (hslash : prev = some '/' → ∀ rest', rest ≠ '/' :: rest')
    (hmore : patternFrom [] (some '?') rest = .ok more) :
    patternFrom lit prev ('?' :: rest) = .ok (lit.reverse ++
      ((if prev = some '/' ∧ rest = [] then Place.filled else .any).render ++ more)) := by
  unfold patternFrom
  by_cases h : prev = some '/'
  · cases rest with
    | nil =>
      obtain rfl : ['$'] = more := by simpa [patternFrom, pure, Except.pure] using hmore
      simp [h, Place.render, pure, Except.pure]
    | cons c rest =>
      have hc : c ≠ '/' := fun hc => hslash h rest (hc ▸ rfl)
      simp [h, hc, hmore, Place.render, bind, Except.bind, pure, Except.pure]
  · simp [h, hprev, hmore, Place.render, bind, Except.bind, pure, Except.pure]

theorem patternFrom_level (hmore : patternFrom [] (some '?') ('/' :: rest) = .ok more) :
    patternFrom lit prev ('/' :: '?' :: '/' :: rest) =
      .ok (lit.reverse ++ (Place.level.render ++ more)) := by
  rw [patternFrom_known _ (by decide), patternFrom.eq_def]
  simp [hmore, Place.render, bind, Except.bind, pure, Except.pure]

theorem patternFrom_eq (hapart : Apart (prev.toList ++ cs))
    (hslash : prev = some '/' → ∀ rest, cs ≠ '?' :: '/' :: rest) :
    patternFrom lit prev cs = .ok (lit.reverse ++ Place.renderAll (placesFrom prev cs)) := by
  fun_induction placesFrom prev cs generalizing lit with
  | case1 prev => rfl
  | case2 prev rest ih =>
    have hrest := (isChain_cons.mp hapart.right_of_append).2
    rw [patternFrom_level lit (ih [] hrest (by simp))]
    simp [Place.renderAll]
  | case3 prev rest ih =>
    have hprev : prev ≠ some '?' := by
      rintro rfl
      exact hapart.rel_head? rfl ⟨rfl, rfl⟩
    have hnext : prev = some '/' → ∀ rest', rest ≠ '/' :: rest' := by
      rintro h rest' rfl
      exact hslash h rest' rfl
    rw [patternFrom_unknown lit hprev hnext (ih [] hapart.right_of_append (by simp))]
    simp [Place.renderAll]
  | case4 prev c rest hlevel hc ih =>
    have hnext : some c = some '/' → ∀ rest', rest ≠ '?' :: '/' :: rest' := by
      rintro h rest' rfl
      exact hlevel rest' (Option.some.inj h) rfl
    rw [patternFrom_known lit hc, ih (c :: lit) hapart.right_of_append hnext]
    simp [Place.renderAll, Place.render]

theorem pattern_eq (hne : n.full.toList ≠ []) (hall : n.full ≠ "?")
    (hapart : Apart n.full.toList) :
    n.pattern = .ok (String.ofList (Place.renderAll n.places)) := by
  rw [places, if_neg hall]
  unfold pattern
  split
  · contradiction
  · rename_i hfull
    exact absurd (String.toList_injective hfull) hall
  · rename_i rest _ hfull
    rw [hfull] at hapart ⊢
    have hfrom : patternFrom [] (some '?') rest = _ := patternFrom_eq [] hapart (by simp)
    rw [hfrom]
    simp [placesFrom, Place.renderAll, Place.render, bind, Except.bind, pure, Except.pure]
  · have hfrom : patternFrom [] none n.full.toList = _ := patternFrom_eq [] hapart (by simp)
    rw [hfrom]
    rfl

theorem plain_placesFrom (h : ∀ c ∈ cs, c ≠ '?' → c ∉ Place.signs) :
    ∀ p ∈ placesFrom prev cs, p.Plain := by
  fun_induction placesFrom prev cs with
  | case1 => simp
  | case2 prev rest ih =>
    refine forall_mem_cons.mpr ⟨trivial, ih fun c hc => h c ?_⟩
    exact mem_cons_of_mem _ (mem_cons_of_mem _ hc)
  | case3 prev rest ih =>
    refine forall_mem_cons.mpr ⟨?_, ih fun c hc => h c (mem_cons_of_mem _ hc)⟩
    split <;> trivial
  | case4 prev c rest hlevel hc ih =>
    refine forall_mem_cons.mpr ⟨h c mem_cons_self hc, ih fun c hc => h c ?_⟩
    exact mem_cons_of_mem _ hc

theorem mem_prod_placesFrom (prev cs) : cs ∈ ((placesFrom prev cs).map Place.language).prod := by
  fun_induction placesFrom prev cs with
  | case1 => exact Language.nil_mem_one
  | case2 prev rest ih =>
    have hlevel : ['/', '?'] ∈ Place.level.language := .inr ⟨['/'], rfl, ['?'], Nat.le_refl 1, rfl⟩
    exact Language.append_mem_mul hlevel ih
  | case3 prev rest ih =>
    refine Language.append_mem_mul (a := ['?']) ?_ ih
    split
    · exact Nat.le_refl 1
    · exact Nat.zero_le 1
  | case4 prev c rest hlevel hc ih => exact Language.append_mem_mul (a := [c]) rfl ih

theorem placesFrom_eq_map (h : '?' ∉ cs) : placesFrom prev cs = cs.map Place.known := by
  fun_induction placesFrom prev cs <;> simp_all

theorem prod_known (cs : List Char) : ((cs.map Place.known).map Place.language).prod = {cs} := by
  induction cs with
  | nil => rfl
  | cons c cs ih =>
    rw [map_cons, map_cons, prod_cons, ih]
    exact Set.image2_singleton

/-- The pattern of a name is a pattern, and it matches just what the name may stand for. -/
theorem accepts_pattern (hne : n.full.toList ≠ [])
    (hchars : ∀ c ∈ n.full.toList, c ≠ '?' → c ∉ Place.signs) (hapart : Apart n.full.toList) :
    ∃ text p, n.pattern = .ok text ∧ Pattern.parse text = .ok p ∧ p.Accepts n.instances := by
  by_cases hall : n.full = "?"
  · have haccepts := (Pattern.denotes_repeated 1).accepts_seq Pattern.accepts_finish
    refine ⟨".+$", _, by simp [pattern, hall, pure, Except.pure], rfl, ?_⟩
    simpa [instances, places, hall, Place.language] using haccepts
  · have hplain : ∀ p ∈ n.places, p.Plain := by
      rw [places, if_neg hall]
      exact plain_placesFrom hchars
    exact ⟨_, _, pattern_eq hne hall hapart, Place.parse_renderAll hplain,
      Place.accepts_patterns n.places⟩

theorem mem_instances (n : Name) : n.full.toList ∈ n.instances := by
  rw [instances, places]
  split
  · rename_i hall
    rw [map_singleton, prod_singleton, hall]
    exact Nat.le_refl 1
  · exact mem_prod_placesFrom none _

theorem instances_known (h : '?' ∉ n.full.toList) : n.instances = {n.full.toList} := by
  have hall : n.full ≠ "?" := by
    intro hall
    simp [hall] at h
  rw [instances, places, if_neg hall, placesFrom_eq_map h, prod_known]

theorem isWord_signs : ('\n' :: Place.signs).all (fun c => !isWord c) = true := by decide +kernel

/-- The pattern of a name matches just the texts that the name may stand for. A name without unknown
parts stands for itself alone, and every name may stand for itself. -/
theorem pattern_instances (n : Name) (hne : n.full.toList ≠ [])
    (hchars : ∀ c ∈ n.full.toList, isWord c = true ∨ c = '/' ∨ c = '~' ∨ c = '?')
    (hapart : Apart n.full.toList) :
    ∃ text p, n.pattern = .ok text ∧ Pattern.parse text = .ok p ∧
      (∀ t : String, '\n' ∉ t.toList → (p.matchesStart t = true ↔ t.toList ∈ n.instances)) ∧
      ('?' ∉ n.full.toList →
        ∀ t : String, '\n' ∉ t.toList → (p.matchesStart t = true ↔ t = n.full)) ∧
      p.matchesStart n.full = true := by
  have hsigns : ∀ c ∈ n.full.toList, c ≠ '?' → c ∉ '\n' :: Place.signs := by
    intro c hc hknown hsign
    have hword := all_eq_true.mp isWord_signs c hsign
    rcases hchars c hc with h | rfl | rfl | rfl
    · simp [h] at hword
    · simp [Place.signs] at hsign
    · simp [Place.signs] at hsign
    · exact hknown rfl
  have hline : '\n' ∉ n.full.toList := fun h => hsigns _ h (by decide) mem_cons_self
  obtain ⟨text, p, htext, hp, haccepts⟩ := accepts_pattern hne
    (fun c hc hknown hsign => hsigns c hc hknown (mem_cons_of_mem _ hsign)) hapart
  refine ⟨text, p, htext, hp, fun t ht => haccepts.matchesStart ht, fun hknown t ht => ?_,
    (haccepts.matchesStart hline).mpr n.mem_instances⟩
  rw [haccepts.matchesStart ht, instances_known hknown]
  exact String.toList_inj

/-- A level that is not known may be missing. -/
theorem pattern_instances_level :
    ∃ text p, Name.pattern ⟨"/?/topic", "/?/topic"⟩ = .ok text ∧ Pattern.parse text = .ok p ∧
      p.matchesStart "/topic" = true := by
  have hall : "/?/topic".toList.all (fun c => isWord c || c == '/' || c == '?') = true := by
    decide +kernel
  have hchars : ∀ c ∈ "/?/topic".toList, isWord c = true ∨ c = '/' ∨ c = '~' ∨ c = '?' := by
    intro c hc
    have := all_eq_true.mp hall c hc
    simp only [Bool.or_eq_true, beq_iff_eq] at this
    tauto
  obtain ⟨text, p, htext, hp, hinstances, -, -⟩ := pattern_instances ⟨"/?/topic", "/?/topic"⟩
    (by decide) hchars (by unfold Apart; decide)
  refine ⟨text, p, htext, hp, (hinstances "/topic" (by decide)).mpr ?_⟩
  exact ⟨[], .inl rfl, "/topic".toList, mem_prod_placesFrom (some '?') _, rfl⟩

end Name

end RosAudit
