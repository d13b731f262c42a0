import Mathlib.Tactic.Common
import RosAudit.CMake.Script
import RosAudit.Proofs.Job

/-!
# Reading blocks with a stack

`Statement.block` reads a script by recursion : a block ends at a line that is left for the reader
of the block around it, and the flags of `LineSource` tell that reader that the line has ended a
block already. `BlockMachine` reads the same script without recursion. It keeps the open blocks on a
stack; a line first closes the innermost block if it is one of its ends, then takes its place, and
opens a block if its command does. `Blocked` says of a tree of statements that each one has the
block that it opens.

`block_run` relates them : what the recursion returns for a block is a tree that lists the lines
read, which the machine adds to its innermost block, and the recursion fails where the machine ends
with open blocks, or at a command that it does not understand. `ofScript_eq_read` says it of a whole
script of complete lines.
-/

namespace RosAudit.CMake

open RosAudit.Text List

/-! ## The machine -/

/-- The commands that end the block of a command, in any case; none if it opens no block. -/
def closers (command : String) : Option (List String) :=
  Statement.blockEnds.lookup (lower command)

/-- A block under construction : the line that opened it, and its statements so far. -/
structure OpenBlock where
  opener : Line
  inside : List Statement := []

/-- A script under construction : the statements outside all blocks, and the open blocks from the
inside out. -/
structure BlockMachine where
  outside : List Statement := []
  blocks : List OpenBlock := []

namespace BlockMachine

def add (m : BlockMachine) (x : Statement) : BlockMachine :=
  match m.blocks with
  | [] => { m with outside := m.outside ++ [x] }
  | b :: bs => { m with blocks := { b with inside := b.inside ++ [x] } :: bs }

def enders (m : BlockMachine) : List String :=
  match m.blocks with
  | [] => []
  | b :: _ => (closers b.opener.command).getD []

/-- Closes the innermost block, which becomes the body of the statement that opened it. -/
def close (m : BlockMachine) : BlockMachine :=
  match m.blocks with
  | [] => m
  | b :: bs => { m with blocks := bs }.add (.mk b.opener (some b.inside))

def place (m : BlockMachine) (l : Line) : BlockMachine :=
  match closers l.command with
  | some _ => { m with blocks := { opener := l } :: m.blocks }
  | none => m.add (.mk l none)

/-- Takes one line : it may close the innermost block, and is then put in its place. -/
def step (m : BlockMachine) (l : Line) : BlockMachine :=
  (if lower l.command ∈ m.enders then m.close else m).place l

def result (m : BlockMachine) : Result (List Statement) :=
  if m.blocks.isEmpty then pure m.outside else throw .unclosedBlock

/-- Reads the lines of a script. -/
def read (ls : List Line) : Result (List Statement) :=
  (ls.foldl step {}).result

end BlockMachine

/-- A command that the reader of blocks understands : its letters are ASCII, and it is one of the
commands that open a block or does not begin like one, in any case. -/
def Understood (command : String) : Prop :=
  (∀ c ∈ command.toList, c.toNat < 128) ∧
    (lower command ∈ Statement.blockEnds.map Prod.fst ∨
      ∀ k ∈ Statement.blockEnds.map Prod.fst, ¬ k.toList <+: (lower command).toList)

instance (command : String) : Decidable (Understood command) :=
  -- named here, or the search may settle on an instance that runs over every character there is
  letI : Decidable (∀ c ∈ command.toList, c.toNat < 128) := List.decidableBAll _ _
  inferInstanceAs (Decidable (_ ∧ _))

/-! ## Commands -/

theorem foldChar_of_ascii {c} (h : c.toNat < 128) : Statement.foldChar c = lowerChar c := by
  unfold Statement.foldChar
  split <;> first | omega | rfl

variable {command : String}

theorem fold_eq_lower (h : ∀ c ∈ command.toList, c.toNat < 128) :
    Statement.fold command = (lower command).toList := by
  rw [lower, String.toList_ofList]
  exact map_congr_left fun c hc => foldChar_of_ascii (h c hc)

theorem closers_eq_none_iff :
    closers command = none ↔ lower command ∉ Statement.blockEnds.map Prod.fst := by
  simp only [closers, List.lookup_eq_none_iff, mem_map, not_exists, not_and, bne_iff_ne]
  exact ⟨fun h p hp he => h p hp he.symm, fun h p hp he => h p hp he.symm⟩

theorem endsOf_of_understood (h : Understood command) :
    Statement.endsOf command = .ok (closers command) := by
  obtain ⟨hascii, hword⟩ := h
  rw [Statement.endsOf, fold_eq_lower hascii]
  cases hc : closers command with
  | some ends =>
    have hmem : lower command ∈ Statement.blockEnds.map Prod.fst := by
      by_contra hn
      rw [closers_eq_none_iff.2 hn] at hc
      cases hc
    obtain ⟨e, he, heq⟩ := mem_map.1 hmem
    have hany :
        (Statement.blockEnds.any fun e => e.1.toList.isPrefixOf (lower command).toList) := by
      refine any_eq_true.2 ⟨e, he, ?_⟩
      rw [heq]
      simp
    rw [closers] at hc
    rw [if_pos hany, hc]
    rfl
  | none =>
    have hout := closers_eq_none_iff.1 hc
    have hany :
        ¬ (Statement.blockEnds.any fun e => e.1.toList.isPrefixOf (lower command).toList) := by
      simp only [any_eq_true, isPrefixOf_iff_prefix, not_exists, not_and]
      intro e he
      exact (hword.resolve_left hout) e.1 (mem_map_of_mem he)
    rw [if_neg hany]
    rfl

theorem endsOf_of_not_understood (hascii : ∀ c ∈ command.toList, c.toNat < 128)
    (h : ¬ Understood command) : Statement.endsOf command = .error .noKey := by
  simp only [Understood, not_and_or, not_or, not_forall, not_not] at h
  obtain ⟨hout, k, hk, hprefix⟩ := h.resolve_left (not_exists.mpr fun c => by simpa using hascii c)
  obtain ⟨e, he, rfl⟩ := mem_map.mp hk
  have hany : (Statement.blockEnds.any fun e => e.1.toList.isPrefixOf (lower command).toList) :=
    any_eq_true.mpr ⟨e, he, isPrefixOf_iff_prefix.mpr hprefix⟩
  have hnone : Statement.blockEnds.lookup (lower command) = none := closers_eq_none_iff.mpr hout
  rw [Statement.endsOf, fold_eq_lower hascii, if_pos hany, hnone]
  rfl

theorem any_fold_iff (hascii : ∀ c ∈ command.toList, c.toNat < 128) (ends : List String) :
    (ends.any fun e => e.toList == Statement.fold command) = true ↔ lower command ∈ ends := by
  rw [fold_eq_lower hascii, any_eq_true]
  constructor
  · rintro ⟨e, he, heq⟩
    obtain rfl := String.toList_inj.1 (beq_iff_eq.1 heq)
    exact he
  · intro he
    exact ⟨_, he, by simp⟩

/-! ## Trees -/

mutual

/-- The lines of a statement and of the block that it opens, in the order of the script. -/
def Statement.listing : Statement → List Line
  | .mk l body => l :: Statement.listingBody body

def Statement.listingBody : Option (List Statement) → List Line
  | none => []
  | some xs => Statement.listingAll xs

def Statement.listingAll : List Statement → List Line
  | [] => []
  | x :: xs => x.listing ++ Statement.listingAll xs

end

theorem Statement.listingAll_cons (l body xs) :
    listingAll (.mk l body :: xs) = l :: (listingBody body ++ listingAll xs) := by
  simp [listingAll, listing]

/-- The statements of a block that `ends` end, each with the block that it opens if it opens one.
After a block comes a statement that ends it. No other one ends the block around it; only the first
one may do so, and must be there, if it has ended another block before (`seen`). -/
inductive Blocked : List String → Bool → List Statement → Prop
  | nil (ends : List String) : Blocked ends false []
  | plain {ends : List String} {seen : Bool} {l : Line} {xs : List Statement}
    (hc : closers l.command = none) (hfits : lower l.command ∈ ends → seen = true)
    (h : Blocked ends false xs) : Blocked ends seen (.mk l none :: xs)
  | opens {ends es : List String} {seen : Bool} {l : Line} {ys xs : List Statement} {x : Statement}
    (hc : closers l.command = some es) (hfits : lower l.command ∈ ends → seen = true)
    (hbody : Blocked es false ys) (hend : lower x.line.command ∈ es)
    (h : Blocked ends true (x :: xs)) : Blocked ends seen (.mk l (some ys) :: x :: xs)

/-! ## Groups of lines -/

def joined (g : List String) : String := "\n".intercalate g

theorem joined_singleton (t : String) : joined [t] = t :=
  String.intercalate_singleton

variable {g : List String}

theorem joined_concat (hg : g ≠ []) (t : String) : joined (g ++ [t]) = joined g ++ "\n" ++ t := by
  rw [joined, String.intercalate_append_of_ne_nil hg (cons_ne_nil t []),
    String.intercalate_singleton]
  rfl

def Unfinished (g : List String) : Prop :=
  ∀ g', g' <+: g → g' ≠ [] → g' ≠ g → ∃ f, Line.parse (joined g') = .error f

theorem unfinished_singleton (t : String) : Unfinished [t] := by
  rintro g' ⟨r, hr⟩ hne hlt
  rcases append_eq_singleton_iff.mp hr with ⟨h, -⟩ | ⟨h, -⟩
  · exact absurd h hne
  · exact absurd h hlt

theorem Unfinished.concat (h : Unfinished g) {f} (hf : Line.parse (joined g) = .error f)
    (t : String) : Unfinished (g ++ [t]) := by
  intro g' hpre hne hlt
  rcases prefix_concat_iff.mp hpre with heq | hpre
  · exact absurd heq hlt
  · by_cases hg : g' = g
    · exact ⟨f, hg ▸ hf⟩
    · exact h g' hpre hne hg

def Dangling (ts : List String) : Prop :=
  ∀ g, g <+: ts → g ≠ [] → ∃ f, Line.parse (joined g) = .error f

theorem dangling_nil : Dangling [] :=
  fun _ hg hne => absurd (prefix_nil.mp hg) hne

/-- The lines make the statement `l`, and no fewer of them make one. -/
structure LineGroup (g : List String) (l : Line) : Prop where
  nonempty : g ≠ []
  whole : Line.parse (joined g) = .ok l
  shortest : Unfinished g

/-! ## Many lines -/

namespace BlockMachine

variable (m : BlockMachine)

def addAll (xs : List Statement) : BlockMachine :=
  xs.foldl add m

/-- Takes some lines. If the first was seen before, it has closed its block already. -/
def run (seen : Bool) : List Line → BlockMachine
  | [] => m
  | l :: ls => ls.foldl step (if seen then m.place l else m.step l)

theorem run_false (ls : List Line) : m.run false ls = ls.foldl step m := by
  cases ls <;> rfl

variable (x : Statement)

@[simp] theorem enders_add : (m.add x).enders = m.enders := by
  obtain ⟨outside, _ | ⟨b, bs⟩⟩ := m <;> rfl

@[simp] theorem blocks_add_eq_nil_iff : (m.add x).blocks = [] ↔ m.blocks = [] := by
  obtain ⟨outside, _ | ⟨b, bs⟩⟩ := m <;> simp [add]

@[simp] theorem addAll_cons (xs) : m.addAll (x :: xs) = (m.add x).addAll xs :=
  rfl

variable {m}

theorem enders_addAll (xs) : (m.addAll xs).enders = m.enders := by
  induction xs generalizing m with
  | nil => rfl
  | cons x xs ih => rw [addAll_cons, ih, enders_add]

theorem addAll_of_blocks {b bs} (h : m.blocks = b :: bs) (xs) :
    m.addAll xs = { m with blocks := { b with inside := b.inside ++ xs } :: bs } := by
  induction xs generalizing m b with
  | nil => simp [addAll, ← h]
  | cons x xs ih =>
    have hx : m.add x = { m with blocks := { b with inside := b.inside ++ [x] } :: bs } := by
      simp [add, h]
    rw [addAll_cons, ih (by rw [hx]), hx]
    simp

theorem addAll_of_outside (h : m.blocks = []) (xs) :
    m.addAll xs = { m with outside := m.outside ++ xs } := by
  induction xs generalizing m with
  | nil => simp [addAll]
  | cons x xs ih =>
    have hx : m.add x = { m with outside := m.outside ++ [x] } := by
      simp [add, h]
    rw [addAll_cons, ih (by simpa using h), hx]
    simp

variable {l : Line} {ends es : List String} {seen : Bool} {xs : List Statement}

theorem place_of_none (h : closers l.command = none) : m.place l = m.add (.mk l none) := by
  simp [place, h]

theorem blocks_place (h : closers l.command = some es) :
    (m.place l).blocks = { opener := l } :: m.blocks := by
  simp [place, h]

theorem enders_place (h : closers l.command = some es) : (m.place l).enders = es := by
  simp [enders, blocks_place h, h]

theorem close_addAll_place (h : closers l.command = some es) (xs) :
    ((m.place l).addAll xs).close = m.add (.mk l (some xs)) := by
  rw [addAll_of_blocks (blocks_place h)]
  simp [close, place, h]

theorem run_of_fits (h : lower l.command ∈ m.enders → seen = true) (ls : List Line) :
    m.run seen (l :: ls) = (m.place l).run false ls := by
  rw [run_false]
  cases seen with
  | true => rfl
  | false => rw [run, if_neg Bool.false_ne_true, step, if_neg fun he => Bool.false_ne_true (h he)]

theorem run_block (hfits : lower l.command ∈ m.enders → seen = true)
    (hc : closers l.command = some es) {ls} (hls : (m.place l).run false ls = (m.place l).addAll xs)
    {q} (hq : lower q.command ∈ es) (ls' : List Line) :
    m.run seen (l :: (ls ++ q :: ls')) = (m.add (.mk l (some xs))).run true (q :: ls') := by
  have hend : lower q.command ∈ ((m.place l).addAll xs).enders := by
    rwa [enders_addAll, enders_place hc]
  rw [run_false] at hls
  rw [run_of_fits hfits, run_false, foldl_append, hls, foldl_cons, step, if_pos hend,
    close_addAll_place hc]
  rfl

theorem run_listingAll (h : Blocked ends seen xs) (hm : m.enders = ends) :
    m.run seen (Statement.listingAll xs) = m.addAll xs := by
  induction h generalizing m with
  | nil => rfl
  | plain hc hfits _ ih =>
    rw [Statement.listingAll_cons, run_of_fits (hm ▸ hfits), place_of_none hc]
    exact ih (by simpa using hm)
  | @opens _ _ _ l ys xs x hc hfits _ hend _ ihbody ih =>
    obtain ⟨q, body⟩ := x
    have hmore := ih (m := m.add (.mk l (some ys))) (by simpa using hm)
    exact (run_block (hm ▸ hfits) hc (ihbody (enders_place hc)) hend _).trans hmore

theorem read_listingAll (h : Blocked [] false xs) : read (Statement.listingAll xs) = .ok xs := by
  rw [read, ← run_false, run_listingAll h rfl, addAll_of_outside rfl]
  rfl

end BlockMachine

/-! ## One statement of the recursion -/

variable {gs : List (List String)} {es tail more : List String} {s : LineSource} {l : Line}
  {t : String}

namespace LineSource

def givenOut (s : LineSource) : LineSource := { s with alreadySeen := s.gotLine, gotLine := true }

/-- The groups of lines `gs` and then `tail` are still to be read, and the first group may be joined
already; `seen` says whether it was given out before. -/
structure At (s : LineSource) (gs : List (List String)) (tail : List String) (seen : Bool) :
    Prop where
  rest : s.rest = gs.flatten ++ tail ∨
    ∃ g gs', gs = g :: gs' ∧ s.rest = joined g :: (gs'.flatten ++ tail)
  ended : s.ended = false
  gotLine : s.gotLine = seen

theorem exec_next (hended : s.ended = false) : next.exec s = (.ok s.rest.head?, s.givenOut) := by
  simp [next, givenOut, Job.exec_bind, Job.exec_map, hended]

theorem exec_accept_cons (hrest : s.rest = t :: more) (hgot : s.gotLine = true) :
    accept.exec s = (.ok (), { s with rest := more, gotLine := false }) := by
  simp [accept, Job.exec_bind, hrest, hgot]

theorem exec_accept_nil (hrest : s.rest = []) (hgot : s.gotLine = true) :
    accept.exec s = (.ok (), { s with ended := true, gotLine := false }) := by
  simp [accept, Job.exec_bind, hrest, hgot]

end LineSource

namespace Statement

open LineSource

variable {n : Nat} {ends : Option (List String)} {command : String}

theorem exec_block_nil_none (hrest : s.rest = []) (hended : s.ended = false) :
    (block (n + 1) none).exec s = (.ok [], s.givenOut) := by
  simp [block, complete, Job.exec_bind, Job.exec_map, exec_next hended, hrest]

theorem exec_block_nil_some (hrest : s.rest = []) (hended : s.ended = false) :
    ∃ s', (block (n + 1) (some es)).exec s = (.error .unclosedBlock, s') := by
  have haccept := exec_accept_nil (s := s.givenOut) hrest rfl
  simp [block, complete, Job.exec_bind, exec_next hended, hrest, haccept]

theorem exec_complete_succ {f} (hf : Line.parse (joined g) = .error f) (hne : g ≠ [])
    (hgot : s.gotLine = true) (hrest : s.rest = joined g :: t :: more) :
    (complete (n + 1) (some (joined g))).exec s =
      (complete n (some (joined (g ++ [t])))).exec
        { s with rest := joined (g ++ [t]) :: more } := by
  have hmerge : merge.exec s =
      (.ok (joined (g ++ [t])), { s with rest := joined (g ++ [t]) :: more }) := by
    simp [LineSource.merge, Job.exec_bind, Job.exec_map, hgot, hrest, joined_concat hne]
  simp only [complete, hf, Job.exec_bind, Job.exec_attempt, hmerge]

theorem exec_complete_group (hg : LineGroup g l) {g₀ g₁} (hsplit : g = g₀ ++ g₁) (hne : g₀ ≠ [])
    (hgot : s.gotLine = true) (hrest : s.rest = joined g₀ :: (g₁ ++ more)) (hn : g₁.length ≤ n) :
    (complete (n + 1) (some (joined g₀))).exec s =
      (.ok (some l), { s with rest := joined g :: more }) := by
  induction g₁ generalizing g₀ s n with
  | nil =>
    obtain rfl : g = g₀ := by simpa using hsplit
    rw [complete, hg.whole, ← nil_append more, ← hrest]
    rfl
  | cons t g₁ ih =>
    obtain ⟨f, hf⟩ := hg.shortest g₀ ⟨_, hsplit.symm⟩ hne (by simp [hsplit])
    obtain ⟨n, rfl⟩ : ∃ k, n = k + 1 := ⟨n - 1, by simp at hn; omega⟩
    rw [exec_complete_succ hf hne hgot hrest]
    exact ih (s := { s with rest := joined (g₀ ++ [t]) :: (g₁ ++ more) }) (by simpa using hsplit)
      (by simp) hgot rfl (by simpa using hn)

theorem exec_complete_dangling (h : Dangling (g ++ more)) (hne : g ≠ []) (hgot : s.gotLine = true)
    (hrest : s.rest = joined g :: more) :
    ∃ f s', (complete n (some (joined g))).exec s = (.error f, s') := by
  induction n generalizing g more s with
  | zero => exact ⟨_, _, rfl⟩
  | succ n ih =>
    obtain ⟨f, hf⟩ := h g (prefix_append _ _) hne
    cases more with
    | nil => simp [complete, hf, LineSource.merge, Job.exec_bind, hgot, hrest]
    | cons t more =>
      rw [exec_complete_succ hf hne hgot hrest]
      exact ih (s := { s with rest := joined (g ++ [t]) :: more }) (by simpa using h) (by simp) hgot
        rfl

theorem exec_block_dangling (h : Dangling tail) (hne : tail ≠ []) (hrest : s.rest = tail)
    (hended : s.ended = false) : ∃ f s', (block (n + 1) ends).exec s = (.error f, s') := by
  obtain ⟨t, more, rfl⟩ := exists_cons_of_ne_nil hne
  have hfirst : (Job.attempt next).exec s = (.ok (.ok (some (joined [t]))), s.givenOut) := by
    rw [Job.exec_attempt, exec_next hended, hrest]
    rfl
  obtain ⟨f, s', hc⟩ := exec_complete_dangling (s := s.givenOut) (n := s.givenOut.rest.length + 1)
    (g := [t]) h (by simp) rfl (by rw [joined_singleton]; exact hrest)
  refine ⟨f, s', ?_⟩
  rw [block, Job.exec_bind_of_ok hfirst, Job.exec_bind_of_ok (Job.exec_get _)]
  exact Job.exec_bind_of_error hc

theorem exec_block_group (hg : LineGroup g l)
    (hrest : s.rest = g ++ more ∨ s.rest = joined g :: more) (hended : s.ended = false) :
    (block (n + 1) ends).exec s =
      if (ends.getD []).any (fun e => e.toList == fold l.command) && !s.gotLine then
        (.ok [], { s.givenOut with rest := joined g :: more })
      else
        (do
          let body ← opened n l.command
          let more ← block n ends
          pure (mk l body :: more) : Job LineSource (List Statement)).exec
            { s with rest := more, gotLine := false, alreadySeen := s.gotLine } := by
  obtain ⟨g₀, g₁, hsplit, hne, hrest⟩ : ∃ g₀ g₁, g = g₀ ++ g₁ ∧ g₀ ≠ [] ∧
      s.rest = joined g₀ :: (g₁ ++ more) := by
    rcases hrest with hrest | hrest
    · obtain ⟨t, g₁, rfl⟩ := exists_cons_of_ne_nil hg.nonempty
      exact ⟨[t], g₁, rfl, by simp, by rw [hrest]; rfl⟩
    · exact ⟨g, [], by simp, hg.nonempty, hrest⟩
  have hlen : g₁.length ≤ s.rest.length := by
    rw [hrest, length_cons, length_append]
    omega
  have hfirst : (Job.attempt next).exec s = (.ok (.ok (some (joined g₀))), s.givenOut) := by
    rw [Job.exec_attempt, exec_next hended, hrest]
    rfl
  have hcomplete : (complete (s.rest.length + 1) (some (joined g₀))).exec s.givenOut =
      (.ok (some l), { s.givenOut with rest := joined g :: more }) :=
    exec_complete_group (s := s.givenOut) hg hsplit hne rfl hrest hlen
  rw [block, Job.exec_bind_of_ok hfirst, Job.exec_bind_of_ok (Job.exec_get _)]
  refine (Job.exec_bind_of_ok hcomplete).trans ?_
  rw [Job.exec_bind_of_ok (Job.exec_get _)]
  split
  case isTrue h => exact (if_pos h).symm
  case isFalse h =>
    exact (Job.exec_bind_of_ok (exec_accept_cons rfl rfl)).trans (if_neg h).symm

theorem exec_opened_error {f} (h : endsOf command = .error f) :
    (opened (n + 1) command).exec s = (.error f, s) := by
  simp [opened, Job.exec_bind, h]

theorem exec_opened_none (h : endsOf command = .ok none) :
    (opened (n + 1) command).exec s = (.ok none, s) := by
  simp [opened, Job.exec_bind, h]

theorem exec_opened_some (h : endsOf command = .ok (some es)) :
    (opened (n + 1) command).exec s = (some <$> block n (some es)).exec s := by
  simp [opened, Job.exec_bind, h]

end Statement

/-! ## The recursion and the machine -/

/-- The commands of some statements are written in ASCII. -/
def Ascii (ps : List (List String × Line)) : Prop :=
  ∀ p ∈ ps, ∀ c ∈ p.2.command.toList, c.toNat < 128

/-- What reading a block from the groups of `ps`, with `tail` after them, comes to. Either the
statements of `pre` were read, and the next one ends the block (or there is none, outside all
blocks); or the block was left open, and so does the machine leave it; or a command was not
understood. -/
inductive BlockRun (ends : Option (List String)) (seen : Bool) (ps : List (List String × Line))
    (tail : List String) : Result (List Statement) × LineSource → Prop where
  | closed (xs : List Statement) (pre post : List (List String × Line)) (s : LineSource) :
    ps = pre ++ post → pre.map Prod.snd = Statement.listingAll xs →
    s.At (post.map Prod.fst) tail true →
    (post.head?.elim (ends = none ∧ tail = []) fun p =>
      ((ends.getD []).any fun e => e.toList == Statement.fold p.2.command) = true) →
    (Ascii ps → Blocked (ends.getD []) seen xs ∧ ∀ p ∈ pre, Understood p.2.command) →
    BlockRun ends seen ps tail (.ok xs, s)
  | failed (f : Fault) (s : LineSource) :
    (Ascii ps → tail = [] → f = .noKey ∧ (∃ p ∈ ps, ¬ Understood p.2.command) ∨
      f = .unclosedBlock ∧ (∀ p ∈ ps, Understood p.2.command) ∧
      ∀ m : BlockMachine, m.enders = ends.getD [] → (ends = none ∨ m.blocks ≠ []) →
        (m.run seen (ps.map Prod.snd)).blocks ≠ []) →
    BlockRun ends seen ps tail (.error f, s)

namespace BlockRun

open BlockMachine Statement

variable {ends : Option (List String)} {seen : Bool} {ps : List (List String × Line)}

theorem nil {n} (htail : Dangling tail) (hs : s.At [] tail false) :
    BlockRun ends false [] tail ((block (n + 1) ends).exec s) := by
  have hrest : s.rest = tail := by simpa using hs.rest
  by_cases hne : tail = []
  case neg =>
    obtain ⟨f, s', h⟩ := exec_block_dangling htail hne hrest hs.ended
    rw [h]
    exact .failed f s' fun _ hnil => absurd hnil hne
  subst hne
  cases ends with
  | none =>
    rw [exec_block_nil_none hrest hs.ended]
    exact .closed [] [] [] _ rfl rfl ⟨.inl hrest, hs.ended, rfl⟩ ⟨rfl, rfl⟩
      fun _ => ⟨.nil _, by simp⟩
  | some es =>
    obtain ⟨s', h⟩ : ∃ s', (block (n + 1) (some es)).exec s = (_, s') :=
      exec_block_nil_some hrest hs.ended
    rw [h]
    exact .failed _ s' fun _ _ => .inr ⟨rfl, by simp, fun m _ hopen => by simpa [run] using hopen⟩

theorem cons {x mid qs seen' r} (hmid : mid.map Prod.snd = x.listing)
    (hascii : Ascii (mid ++ qs) → (∀ p ∈ mid, Understood p.2.command) ∧
      (∀ ys post, Blocked (ends.getD []) seen' ys → qs.map Prod.snd = listingAll ys ++ post →
      Blocked (ends.getD []) seen (x :: ys)) ∧ ∀ m : BlockMachine, m.enders = ends.getD [] →
      m.run seen (mid.map Prod.snd ++ qs.map Prod.snd) = (m.add x).run seen' (qs.map Prod.snd))
    (h : BlockRun ends seen' qs tail r) :
    BlockRun ends seen (mid ++ qs) tail (r.1.map (x :: ·), r.2) := by
  have hleft (h : Ascii (mid ++ qs)) : Ascii qs := (forall_mem_append.mp h).2
  cases h with
  | closed xs pre post s hqs hpre hs hpost hblocked =>
    refine .closed (x :: xs) (mid ++ pre) post s (by rw [hqs, append_assoc]) ?_ hs hpost ?_
    · rw [map_append, hmid, hpre, listingAll]
    · intro h
      obtain ⟨hu, htree, -⟩ := hascii h
      obtain ⟨hxs, hupre⟩ := hblocked (hleft h)
      exact ⟨htree xs _ hxs (by rw [hqs, map_append, hpre]),
        forall_mem_append.mpr ⟨hu, hupre⟩⟩
  | failed f s hf =>
    refine .failed f s fun h htail => ?_
    obtain ⟨hu, -, hrun⟩ := hascii h
    rcases hf (hleft h) htail with ⟨rfl, p, hp, hmis⟩ | ⟨rfl, huqs, hopen⟩
    · exact .inl ⟨rfl, p, mem_append_right _ hp, hmis⟩
    · refine .inr ⟨rfl, forall_mem_append.mpr ⟨hu, huqs⟩, fun m hm hnone => ?_⟩
      rw [map_append, hrun m hm]
      exact hopen _ (by simpa using hm) (by simpa using hnone)

end BlockRun

theorem endsOf_ascii {command} (h : ∀ c ∈ command.toList, c.toNat < 128) :
    (Understood command ∧ Statement.endsOf command = .ok (closers command)) ∨
      ¬ Understood command ∧ Statement.endsOf command = .error .noKey := by
  by_cases hu : Understood command
  · exact .inl ⟨hu, endsOf_of_understood hu⟩
  · exact .inr ⟨hu, endsOf_of_not_understood h hu⟩

open BlockMachine Statement in
theorem block_run (n : Nat) {ps ends seen} (hps : ∀ p ∈ ps, LineGroup p.1 p.2)
    (htail : Dangling tail) (hn : 2 * ps.length + 1 ≤ n) (hs : s.At (ps.map Prod.fst) tail seen)
    (hseen : seen = true → ps ≠ []) : BlockRun ends seen ps tail ((block n ends).exec s) := by
  induction n using Nat.strongRecOn generalizing ps ends s seen with
  | ind n ih =>
  obtain ⟨k, rfl⟩ : ∃ k, n = k + 1 := ⟨n - 1, by omega⟩
  cases ps with
  | nil =>
    obtain rfl : seen = false := by simpa using hseen
    exact .nil htail hs
  | cons p qs =>
    obtain ⟨hgroup, hqs⟩ := forall_mem_cons.mp hps
    have hrest : s.rest = p.1 ++ ((qs.map Prod.fst).flatten ++ tail) ∨
        s.rest = joined p.1 :: ((qs.map Prod.fst).flatten ++ tail) := by
      rcases hs.rest with h | ⟨g, gs, heq, h⟩
      · exact .inl (by simpa using h)
      · cases heq
        exact .inr h
    obtain rfl := hs.gotLine
    simp only [length_cons] at hn
    rw [exec_block_group hgroup hrest hs.ended]
    split
    case isTrue hstop =>
      obtain ⟨hany, hgot⟩ := (Bool.and_eq_true _ _).mp hstop
      refine .closed [] [] (p :: qs) _ rfl rfl ⟨.inr ⟨_, _, rfl, rfl⟩, hs.ended, rfl⟩ hany ?_
      rw [Bool.not_eq_eq_eq_not.mp hgot]
      exact fun _ => ⟨.nil _, by simp⟩
    case isFalse hstop =>
      have hfits (h : Ascii (p :: qs)) (hmem : lower p.2.command ∈ ends.getD []) :
          s.gotLine = true := by
        simpa [(any_fold_iff (h p mem_cons_self) _).mpr hmem] using hstop
      obtain ⟨j, rfl⟩ : ∃ j, k = j + 1 := ⟨k - 1, by omega⟩
      generalize hs₁ : ({ s with rest := _, gotLine := false, alreadySeen := _ } : LineSource) = s₁
      replace hs₁ : s₁.At (qs.map Prod.fst) tail false := hs₁ ▸ ⟨.inl rfl, hs.ended, rfl⟩
      have hends (h : Ascii (p :: qs)) := endsOf_ascii (h p mem_cons_self)
      cases he : endsOf p.2.command with
      | error f =>
        rw [Job.exec_bind_of_error (exec_opened_error he)]
        refine .failed _ _ fun h _ => .inl ?_
        rcases hends h with ⟨-, hok⟩ | ⟨hu, herr⟩
        · cases he.symm.trans hok
        · cases he.symm.trans herr
          exact ⟨rfl, p, mem_cons_self, hu⟩
      | ok block? =>
      have hclosers (h : Ascii (p :: qs)) : Understood p.2.command ∧
          closers p.2.command = block? := by
        rcases hends h with ⟨hu, hok⟩ | ⟨-, herr⟩
        · cases he.symm.trans hok
          exact ⟨hu, rfl⟩
        · cases he.symm.trans herr
      cases block? with
      | none =>
        rw [Job.exec_bind_of_ok (exec_opened_none he), Job.exec_bind_pure]
        refine .cons (x := .mk p.2 none) (show [p].map Prod.snd = _ from rfl) ?_
          (ih (j + 1) (by omega) hqs (by omega) hs₁ (by simp))
        intro h
        obtain ⟨hu, hc⟩ := hclosers h
        refine ⟨by simpa using hu, fun ys _ hys _ => .plain hc (hfits h) hys, fun m hm => ?_⟩
        rw [← place_of_none hc]
        exact run_of_fits (hm ▸ hfits h) _
      | some es =>
        have hinner : BlockRun (some es) false qs tail ((block j (some es)).exec s₁) :=
          ih j (by omega) hqs (by omega) hs₁ (by simp)
        rw [Job.exec_bind, exec_opened_some he, Job.exec_map]
        rcases hr : (block j (some es)).exec s₁ with ⟨r, s₂⟩
        rw [hr] at hinner
        cases hinner with
        | closed ys pre post _ hsplit hpre hs₂ hpost hys =>
          obtain ⟨q, post, rfl⟩ : ∃ q post', post = q :: post' :=
            exists_cons_of_ne_nil fun hn => by simp [hn] at hpost
          subst hsplit
          simp only [Job.exec_bind_pure]
          have hmore : BlockRun ends true (q :: post) tail ((block (j + 1) ends).exec s₂) :=
            ih (j + 1) (by omega) (forall_mem_append.mp hqs).2
              (by simp only [length_append, length_cons] at hn ⊢; omega) hs₂ (by simp)
          rw [← cons_append]
          refine .cons (x := .mk p.2 (some ys)) ?_ ?_ hmore
          · rw [map_cons, hpre]
            rfl
          intro h
          obtain ⟨hu, hc⟩ := hclosers h
          obtain ⟨hys, hupre⟩ := hys (forall_mem_cons.mp h).2
          have hq : lower q.2.command ∈ es := (any_fold_iff (h q (by simp)) es).mp hpost
          refine ⟨forall_mem_cons.mpr ⟨hu, hupre⟩, ?_, ?_⟩
          · intro zs rest hzs hlist
            cases zs with
            | nil => cases hzs
            | cons z zs =>
              obtain ⟨l, body⟩ := z
              obtain ⟨rfl, -⟩ := List.cons.inj hlist
              exact .opens hc (hfits h) hys hq hzs
          · intro m hm
            rw [map_cons, hpre]
            exact run_block (hm ▸ hfits h) hc (run_listingAll hys (enders_place hc)) hq _
        | failed f _ hf =>
          refine .failed _ _ fun h hnil => ?_
          obtain ⟨hu, hc⟩ := hclosers h
          rcases hf (forall_mem_cons.mp h).2 hnil with ⟨rfl, q, hq, hmis⟩ | ⟨rfl, huqs, hopen⟩
          · exact .inl ⟨rfl, q, mem_cons_of_mem _ hq, hmis⟩
          · refine .inr ⟨rfl, forall_mem_cons.mpr ⟨hu, huqs⟩, fun m hm _ => ?_⟩
            rw [map_cons, run_of_fits (hm ▸ hfits h)]
            exact hopen _ (enders_place hc) (.inr (by simp [blocks_place hc]))

/-! ## Whole scripts -/

variable {ps : List (List String × Line)}

theorem length_le_of_groups (hps : ∀ p ∈ ps, LineGroup p.1 p.2) :
    ps.length ≤ (ps.map Prod.fst).flatten.length := by
  induction ps with
  | nil => exact Nat.le_refl _
  | cons p ps ih =>
    obtain ⟨hp, hps⟩ := forall_mem_cons.mp hps
    have hpos := length_pos_iff.mpr hp.nonempty
    have hrest := ih hps
    rw [map_cons, flatten_cons, length_append, length_cons]
    omega

theorem ofScript_run {s} (hs : lines s = (ps.map Prod.fst).flatten ++ tail)
    (hps : ∀ p ∈ ps, LineGroup p.1 p.2) (htail : Dangling tail) :
    ∃ s', BlockRun none false ps tail (Statement.ofScript s, s') := by
  have hlen : ps.length ≤ (lines s).length :=
    Nat.le_trans (length_le_of_groups hps) (by rw [hs, length_append]; omega)
  exact ⟨_, block_run (s := .ofText s) _ hps htail (by simp [LineSource.ofText]; omega)
    ⟨.inl hs, rfl, rfl⟩ (by simp)⟩

theorem nothing_after {post : List (List String × Line)}
    (h : post.head?.elim ((none : Option (List String)) = none ∧ tail =
      []) fun p => (([] : List String).any fun e => e.toList == Statement.fold p.2.command) =
      true) :
    post = [] ∧ tail = [] := by
  cases post with
  | nil => exact ⟨rfl, h.2⟩
  | cons p post => cases h

open BlockMachine Statement in
/-- A script stops at the first command that is not understood, or is read by the machine. -/
theorem ofScript_of_groups {s} (hs : (ps.map Prod.fst).flatten = lines s)
    (hps : ∀ p ∈ ps, LineGroup p.1 p.2) (hascii : Ascii ps) :
    (∃ p ∈ ps, ¬ Understood p.2.command) ∧ ofScript s = .error .noKey ∨
    (∀ p ∈ ps, Understood p.2.command) ∧ ofScript s = read (ps.map Prod.snd) ∧
      (ofScript s = .error .unclosedBlock ∨
        ∃ xs, ofScript s = .ok xs ∧ Blocked [] false xs ∧ listingAll xs = ps.map Prod.snd) := by
  obtain ⟨s', hrun⟩ := ofScript_run (by rw [hs, append_nil]) hps
    dangling_nil
  generalize ofScript s = r at hrun ⊢
  cases hrun with
  | closed xs pre post _ hsplit hpre _ hpost hblocked =>
    obtain ⟨hxs, hu⟩ := hblocked hascii
    obtain rfl : ps = pre := by simpa [(nothing_after hpost).1] using hsplit
    exact .inr ⟨hu, by rw [hpre, read_listingAll hxs], .inr ⟨xs, rfl, hxs, hpre.symm⟩⟩
  | failed f _ hf =>
    rcases hf hascii rfl with ⟨rfl, hmis⟩ | ⟨rfl, hu, hopen⟩
    · exact .inl ⟨hmis, rfl⟩
    · refine .inr ⟨hu, ?_, .inl rfl⟩
      have hblocks := hopen {} rfl (.inl rfl)
      rw [run_false] at hblocks
      rw [BlockMachine.read, result, if_neg (by simpa using hblocks)]
      rfl

theorem exists_groups_of_mapM {ts ls} (h : ts.mapM Line.parse = .ok ls) :
    ∃ ps : List (List String × Line),
      (ps.map Prod.fst).flatten = ts ∧ ps.map Prod.snd = ls ∧ ∀ p ∈ ps, LineGroup p.1 p.2 := by
  induction ts generalizing ls with
  | nil =>
    cases h
    exact ⟨[], rfl, rfl, by simp⟩
  | cons t ts ih =>
    obtain ⟨l, ls', ht, hts, rfl⟩ := mapM_cons_ok.mp h
    obtain ⟨ps, rfl, rfl, hps⟩ := ih hts
    have hgroup : LineGroup [t] l :=
      ⟨by simp, by rw [joined_singleton]; exact ht, unfinished_singleton t⟩
    exact ⟨([t], l) :: ps, rfl, rfl, forall_mem_cons.mpr ⟨hgroup, hps⟩⟩

open BlockMachine Statement in
/-- A script whose lines are complete, with commands that are understood, is read into the
statements of the machine, and is refused exactly if the machine ends with open blocks. -/
theorem ofScript_eq_read (s : String) (ls : List Line) (hparse : (lines s).mapM Line.parse = .ok ls)
    (hu : ∀ l ∈ ls, Understood l.command) : ofScript s = read ls := by
  obtain ⟨ps, hts, rfl, hps⟩ := exists_groups_of_mapM hparse
  replace hu : ∀ p ∈ ps, Understood p.2.command := fun p hp => hu _ (mem_map_of_mem hp)
  rcases ofScript_of_groups hts hps fun p hp => (hu p hp).1 with ⟨⟨p, hp, hmis⟩, -⟩ | ⟨-, h, -⟩
  · exact absurd (hu p hp) hmis
  · exact h

/-- Ends that stand in the wrong block are statements of it, and those outside all blocks too. -/
theorem ofScript_misplaced_ends : ∃ ls : List Line,
    (lines "while(a)\nif(b)\nELSE()\nendwhile()\nendif()\n# x\nendwhile()\nendif()").mapM
      Line.parse = .ok ls ∧ (∀ l ∈ ls, Understood l.command) ∧
    Statement.ofScript "while(a)\nif(b)\nELSE()\nendwhile()\nendif()\n# x\nendwhile()\nendif()" =
      BlockMachine.read ls ∧
    BlockMachine.read ls = .ok [
      .mk ⟨"while", some "a", none⟩ (some [
        .mk ⟨"if", some "b", none⟩ (some []),
        .mk ⟨"ELSE", none, none⟩ (some [.mk ⟨"endwhile", none, none⟩ none]),
        .mk ⟨"endif", none, none⟩ none,
        .mk ⟨"", none, some "# x"⟩ none]),
      .mk ⟨"endwhile", none, none⟩ none, .mk ⟨"endif", none, none⟩ none] :=
  have hparse :
      (lines "while(a)\nif(b)\nELSE()\nendwhile()\nendif()\n# x\nendwhile()\nendif()").mapM
      Line.parse = .ok [⟨"while", some "a", none⟩, ⟨"if", some "b", none⟩, ⟨"ELSE", none, none⟩,
        ⟨"endwhile", none, none⟩, ⟨"endif", none, none⟩, ⟨"", none, some "# x"⟩,
        ⟨"endwhile", none, none⟩, ⟨"endif", none, none⟩] := by decide +kernel
  ⟨_, hparse, by decide +kernel, ofScript_eq_read _ _ hparse (by decide +kernel), rfl⟩

end RosAudit.CMake
