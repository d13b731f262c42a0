import RosAudit.CMake.Project
import RosAudit.Proofs.Job

/-!
# The branches of a condition

A condition of a build script is a chain of statements that stand side by side : an `if`, some
`elseif` and perhaps an `else`, each with the block that it opens. The branch that is meant to take
effect is the first whose condition holds in the state before the chain (`chosen`). It does, and
what stands before it does not (`exec_runAll_chosen`). But the branches after it (`later`) are
statements like any other : they are come to in the state that the chosen branch leaves, where an
`elseif` is tested again and an `else` is not tested at all (`branches_take_effect_twice`). So a
chain has the effect of its chosen branch if all later branches are shut in the state that this
leaves (`runAll_chain`).

A branch with an empty block is carried out like an unknown command : its arguments are read and
nothing more happens. Whether arguments can be read does not depend on the variables
(`exists_substitute`), so a condition that could be evaluated before the chain stops nothing later.
-/

namespace RosAudit.CMake

open Job List

namespace Statement

def word (s : Statement) : String := Text.lower s.line.command

/-- The arguments of a statement. -/
def args (s : Statement) : List String := splitArguments (s.line.arguments.getD "")

def inner (s : Statement) : List Statement := s.body.getD []

variable (line : Line)

@[simp] theorem inner_mk (body) : inner (.mk line body) = body.getD [] :=
  rfl

def isTail : List String → Bool
  | [] => true
  | ["else"] => true
  | w :: ws => w == "elseif" && isTail ws

def isChain : List Statement → Bool
  | [] => false
  | s :: ss => s.word == "if" && isTail (ss.map word)

def branchWords : List String := ["if", "elseif", "else"]

theorem mem_branchWords_of_isTail : ∀ {ws}, isTail ws = true →
    ∀ w ∈ ws, w ∈ branchWords := by
  intro ws h
  fun_induction isTail ws with
  | case1 => simp
  | case2 => simp [branchWords]
  | case3 w ws _ ih =>
    rw [Bool.and_eq_true, beq_iff_eq] at h
    obtain ⟨rfl, hws⟩ := h
    exact forall_mem_cons.mpr ⟨by simp [branchWords], ih hws⟩

theorem word_of_isChain {cs} (h : isChain cs = true) : ∀ s ∈ cs, s.word ∈ branchWords := by
  cases cs with
  | nil => cases h
  | cons s ss =>
    rw [isChain, Bool.and_eq_true, beq_iff_eq] at h
    refine forall_mem_cons.mpr ⟨by simp [h.1, branchWords], fun s' hs' => ?_⟩
    exact mem_branchWords_of_isTail h.2 _ (mem_map_of_mem hs')

end Statement

namespace Project

open Statement

variable {t : FileTree} {p q : Project} {s : Statement} {cs post : List Statement}

/-! ## Reading arguments -/

theorem exists_of_bind {ε α β : Type} {r : Except ε α} {f : α → Except ε β}
    (hr : ∃ a, r = .ok a) (hf : ∀ a, ∃ b, f a = .ok b) : ∃ b, (r >>= f) = .ok b := by
  obtain ⟨a, rfl⟩ := hr
  exact hf a

theorem exists_substituteChars (q : Project) {n : Nat} {cs r : List Char}
    (h : p.substituteChars n cs = .ok r) : ∃ r', q.substituteChars n cs = .ok r' := by
  induction n generalizing cs r with
  | zero => cases h
  | succ n ih =>
    rw [substituteChars] at h ⊢
    split at h
    · rename_i hrest
      exact ⟨_, if_pos hrest⟩
    · rename_i hrest
      rw [if_neg hrest]
      split at h
      · rename_i hbrace
        obtain ⟨⟨name, k⟩, hread, h⟩ := bind_eq_ok.mp h
        obtain ⟨name', hname, h⟩ := bind_eq_ok.mp h
        obtain ⟨more, hmore, -⟩ := bind_eq_ok.mp h
        rw [if_pos hbrace, hread, ok_bind]
        refine exists_of_bind (ih hname) fun name'' => ?_
        exact exists_of_bind (ih hmore) fun more' => ⟨_, rfl⟩
      · rename_i hbrace
        obtain ⟨more, hmore, -⟩ := bind_eq_ok.mp h
        rw [if_neg hbrace]
        exact exists_of_bind (ih hmore) fun more' => ⟨_, rfl⟩

theorem exists_substitute (q : Project) {a r} (h : p.substitute a = .ok r) :
    ∃ r', q.substitute a = .ok r' := by
  obtain ⟨cs, hcs, -⟩ := bind_eq_ok.mp h
  obtain ⟨cs', hcs'⟩ := exists_substituteChars q hcs
  exact ⟨String.ofList cs', bind_eq_ok.mpr ⟨cs', hcs', rfl⟩⟩

theorem exists_substitute_of_operands : ∀ {as : List String} {os : List Operand},
    p.operands t (as.map .word) = .ok os → ∀ a ∈ as, ∃ r, p.substitute a = .ok r
  | [], _, _ => forall_mem_nil _
  | a :: as, os, h => by
    rw [map_cons, operands] at h
    obtain ⟨o, ho, h⟩ := bind_eq_ok.mp h
    obtain ⟨os', hos, -⟩ := bind_eq_ok.mp h
    obtain ⟨r, hr, -⟩ := bind_eq_ok.mp ho
    exact forall_mem_cons.mpr ⟨⟨r, hr⟩, exists_substitute_of_operands hos⟩

/-! ## One branch -/

def holdsIn (t : FileTree) (p : Project) (s : Statement) : Result Bool :=
  if s.word == "else" then pure true else return (← p.condition t (s.args.map .word)).holds

/-- Can the condition of a branch be evaluated? An `else` without statements has arguments that are
to be read. -/
def evaluates (t : FileTree) (p : Project) (s : Statement) : Bool :=
  (holdsIn t p s).isOk &&
    (s.word != "else" || !s.inner.isEmpty || s.args.all fun a => (p.substitute a).isOk)

/-- Has a branch no effect in the state `q`? -/
def isShut (t : FileTree) (q : Project) (s : Statement) : Bool :=
  s.inner.isEmpty || (holdsIn t q s).toOption == some false

theorem isOk_iff {ε α : Type} {r : Except ε α} : r.isOk = true ↔ ∃ a, r = .ok a := by
  cases r <;> simp [Except.isOk, Except.toBool]

theorem exists_holdsIn (h : evaluates t p s = true) : ∃ b, holdsIn t p s = .ok b :=
  isOk_iff.mp (Bool.and_eq_true _ _ ▸ h).1

theorem exists_substitute_of_evaluates (h : evaluates t p s = true) (hempty : s.inner = []) :
    ∀ a ∈ s.args, ∃ r, p.substitute a = .ok r := by
  by_cases helse : s.word = "else"
  · simp only [evaluates, helse, hempty, Bool.and_eq_true, Bool.or_eq_true, bne_self_eq_false,
      isEmpty_nil, Bool.not_true, Bool.false_eq_true, false_or, all_eq_true] at h
    exact fun a ha => isOk_iff.mp (h.2 a ha)
  · obtain ⟨b, hb⟩ := exists_holdsIn h
    rw [holdsIn, if_neg (by simpa using helse)] at hb
    obtain ⟨o, ho, -⟩ := bind_eq_ok.mp hb
    obtain ⟨os, hos, -⟩ := bind_eq_ok.mp ho
    exact exists_substitute_of_operands hos

theorem exec_mapM_substitute : ∀ {as : List String}, (∀ a ∈ as, ∃ r, p.substitute a = .ok r) →
    ∃ ws, (as.mapM fun a => (get : Job Project Project) >>= fun p =>
      Job.ofResult (p.substitute a)).exec p = (.ok ws, p)
  | [], _ => ⟨[], rfl⟩
  | a :: as, h => by
    obtain ⟨⟨r, hr⟩, has⟩ := forall_mem_cons.mp h
    obtain ⟨ws, hws⟩ := exec_mapM_substitute has
    refine ⟨r :: ws, ?_⟩
    rw [mapM_cons]
    have ha : ((get : Job Project Project) >>= fun p => Job.ofResult (p.substitute a)).exec p =
        (.ok r, p) := by rw [exec_bind_of_ok (exec_get p), exec_ofResult, hr]
    rw [exec_bind_of_ok ha, exec_bind_of_ok hws, exec_pure]

theorem exec_command {w as} (hw : w ∈ branchWords) (has : ∀ a ∈ as, ∃ r, p.substitute a = .ok r) :
    (command t w as).exec p = (.ok (), p) := by
  obtain ⟨ws, hws⟩ := exec_mapM_substitute has
  rw [command, exec_bind_of_ok hws]
  simp only [branchWords, mem_cons, not_mem_nil, or_false] at hw
  rcases hw with rfl | rfl | rfl <;> rfl

theorem exec_run_of_empty (hw : s.word ∈ branchWords) (hempty : s.inner = [])
    (has : ∀ a ∈ s.args, ∃ r, p.substitute a = .ok r) : (run t s).exec p = (.ok (), p) := by
  obtain ⟨line, _ | _ | ⟨s, ss⟩⟩ := s
  case some.cons => cases hempty
  all_goals exact exec_command hw has

/-- A command with a block that depends on a condition runs the block if the condition holds. -/
theorem exec_run_control (hw : controlWords.contains s.word = true) (hinner : s.inner ≠ []) :
    (run t s).exec p = match holdsIn t p s with
      | .ok true => (runAll t s.inner).exec p
      | .ok false => (.ok (), p)
      | .error e => (.error e, p) := by
  obtain ⟨line, _ | _ | ⟨s, ss⟩⟩ := s
  · exact absurd rfl hinner
  · exact absurd rfl hinner
  · rw [word, Statement.line] at hw
    rw [run, holdsIn, word, args, Statement.line, inner_mk, Option.getD_some, runAll]
    simp only [hw, if_true]
    by_cases helse : (Text.lower line.command == "else") = true
    · simp only [if_pos helse]
      rfl
    · simp only [if_neg helse, exec_bind, exec_get, exec_ofResult]
      cases p.condition t ((splitArguments (line.arguments.getD "")).map .word) with
      | error e => rfl
      | ok o =>
        simp only [ok_bind]
        cases o.holds with
        | false => rfl
        | true => exact exec_bind (run t s) (fun _ => runAll t ss) p

theorem exec_run_branch (hw : s.word ∈ branchWords) (hinner : s.inner ≠ []) :
    (run t s).exec p = match holdsIn t p s with
      | .ok true => (runAll t s.inner).exec p
      | .ok false => (.ok (), p)
      | .error e => (.error e, p) := by
  refine exec_run_control ?_ hinner
  simp only [branchWords, mem_cons, not_mem_nil, or_false] at hw
  rcases hw with hw | hw | hw <;> rw [hw] <;> decide

theorem exec_run_of_shut (hw : s.word ∈ branchWords) (hshut : isShut t q s = true)
    (hread : s.inner = [] → ∀ a ∈ s.args, ∃ r, q.substitute a = .ok r) :
    (run t s).exec q = (.ok (), q) := by
  by_cases hinner : s.inner = []
  · exact exec_run_of_empty hw hinner (hread hinner)
  · have hfalse : holdsIn t q s = .ok false := by
      cases h : holdsIn t q s <;> simp_all [isShut, Except.toOption]
    rw [exec_run_branch hw hinner, hfalse]

theorem exec_run_of_open (hw : s.word ∈ branchWords) (hopen : holdsIn t p s = .ok true)
    (hread : s.inner = [] → ∀ a ∈ s.args, ∃ r, p.substitute a = .ok r) :
    (run t s).exec p = (runAll t s.inner).exec p := by
  by_cases hinner : s.inner = []
  · rw [exec_run_of_empty hw hinner (hread hinner), hinner, runAll, exec_pure]
  · rw [exec_run_branch hw hinner, hopen]

/-! ## The chain -/

theorem runAll_append (t : FileTree) : ∀ xs ys : List Statement,
    runAll t (xs ++ ys) = (do runAll t xs; runAll t ys)
  | [], ys => by simp [runAll]
  | x :: xs, ys => by simp [runAll, runAll_append t xs ys]

def fromChosen (t : FileTree) (p : Project) (cs : List Statement) : List Statement :=
  cs.dropWhile fun s => !(holdsIn t p s).toOption.getD false

/-- What the first branch holds whose condition holds. -/
def chosen (t : FileTree) (p : Project) (cs : List Statement) : List Statement :=
  ((fromChosen t p cs).head?.map inner).getD []

/-- The branches after the first whose condition holds. -/
def later (t : FileTree) (p : Project) (cs : List Statement) : List Statement :=
  (fromChosen t p cs).tail

theorem fromChosen_of_open (h : holdsIn t p s = .ok true) (ss) :
    fromChosen t p (s :: ss) = s :: ss := by
  rw [fromChosen, dropWhile_cons_of_neg]
  simp [h, Except.toOption]

theorem fromChosen_of_shut (h : holdsIn t p s = .ok false) (ss) :
    fromChosen t p (s :: ss) = fromChosen t p ss := by
  rw [fromChosen, dropWhile_cons_of_pos, ← fromChosen]
  simp [h, Except.toOption]

/-- No branch before the chosen one has an effect, and the later ones are carried out after it like
other statements. -/
theorem exec_runAll_chosen (hw : ∀ s ∈ cs, s.word ∈ branchWords)
    (heval : ∀ s ∈ cs, evaluates t p s = true) (post) :
    (runAll t (cs ++ post)).exec p =
      (runAll t (chosen t p cs ++ (later t p cs ++ post))).exec p := by
  induction cs with
  | nil => rfl
  | cons s ss ih =>
    obtain ⟨hs, hss⟩ := forall_mem_cons.mp hw
    obtain ⟨he, hes⟩ := forall_mem_cons.mp heval
    obtain ⟨b, hb⟩ := exists_holdsIn he
    have hread := exists_substitute_of_evaluates he
    rw [cons_append, runAll]
    cases b with
    | true =>
      have hfrom := fromChosen_of_open hb ss
      have hchosen : chosen t p (s :: ss) = s.inner := by rw [chosen, hfrom]; rfl
      have hlater : later t p (s :: ss) = ss := by rw [later, hfrom]; rfl
      rw [hchosen, hlater, runAll_append t s.inner, exec_bind, exec_run_of_open hs hb hread,
        ← exec_bind]
    | false =>
      have hshut : isShut t p s = true := by simp [isShut, hb, Except.toOption]
      have hfrom := fromChosen_of_shut hb ss
      have hchosen : chosen t p (s :: ss) = chosen t p ss := by rw [chosen, hfrom, ← chosen]
      have hlater : later t p (s :: ss) = later t p ss := by rw [later, hfrom, ← later]
      rw [exec_bind_of_ok (exec_run_of_shut hs hshut hread), ih hss hes, hchosen, hlater]

theorem exec_runAll_shut (hrun : ∀ s ∈ cs, (run t s).exec q = (.ok (), q)) (post) :
    (runAll t (cs ++ post)).exec q = (runAll t post).exec q := by
  induction cs with
  | nil => rfl
  | cons s ss ih =>
    obtain ⟨hs, hss⟩ := forall_mem_cons.mp hrun
    rw [cons_append, runAll, exec_bind_of_ok hs, ih hss]

theorem mem_of_mem_later (h : s ∈ later t p cs) : s ∈ cs :=
  (dropWhile_sublist _).subset (mem_of_mem_tail h)

/-- The chosen branch of a condition takes effect, and no branch before it. If the later branches
are shut in the state that it leaves, then the condition has the effect of the chosen branch. The
blocks of statements are carried out in the same way, so this holds at every depth. -/
theorem runAll_chain (hchain : isChain cs = true) (heval : ∀ s ∈ cs, evaluates t p s = true)
    (post : List Statement) :
    (runAll t (cs ++ post)).exec p =
        (runAll t (chosen t p cs ++ (later t p cs ++ post))).exec p ∧
      ((∀ q, (runAll t (chosen t p cs)).exec p = (.ok (), q) →
          ∀ s ∈ later t p cs, isShut t q s = true) →
        (runAll t (cs ++ post)).exec p = (runAll t (chosen t p cs ++ post)).exec p) := by
  have hw := word_of_isChain hchain
  have hchosen := exec_runAll_chosen hw heval post
  refine ⟨hchosen, fun hshut => ?_⟩
  rw [hchosen, runAll_append t (chosen t p cs), runAll_append t (chosen t p cs), exec_bind,
    exec_bind]
  rcases hrun : (runAll t (chosen t p cs)).exec p with ⟨e | _, q⟩
  · rfl
  · refine exec_runAll_shut (fun s hs => ?_) post
    have hmem := mem_of_mem_later hs
    refine exec_run_of_shut (hw s hmem) (hshut q hrun s hs) fun hinner a ha => ?_
    obtain ⟨r, hr⟩ := exists_substitute_of_evaluates (heval s hmem) hinner a ha
    exact exists_substitute q hr

def bare : Project :=
  make "/ws" "/ws/build" [] Table.empty (Table.ofList [("C", "ON")])

/-- A condition whose second branch is chosen, with later branches that are shut : one by what the
second branch does, and one that is empty. -/
def guarded : List Statement :=
  ((Statement.ofScript
    "if(A)\nset(B 1)\nelseif(C)\nset(D 2)\nelseif(NOT D)\nset(E 3)\nelseif(D)\nendif()"
    ).toOption.getD []).take 4

theorem runAll_chain_guarded : isChain guarded = true ∧
    (chosen {} bare guarded).map (·.line.arguments) = [some "D 2"] ∧
    (later {} bare guarded).map (·.line.arguments) = [some "NOT D", some "D"] ∧
    (runAll {} (guarded ++ [])).exec bare =
      (runAll {} (chosen {} bare guarded ++ [])).exec bare := by
  obtain ⟨hchain, heval, hchosen, hlater, hshut⟩ : isChain guarded = true ∧
      guarded.all (evaluates {} bare) = true ∧
      (chosen {} bare guarded).map (·.line.arguments) = [some "D 2"] ∧
      (later {} bare guarded).map (·.line.arguments) = [some "NOT D", some "D"] ∧
      (later {} bare guarded).all (isShut {} ((runAll {} (chosen {} bare guarded)).exec bare).2) =
        true := by
    decide +kernel
  refine ⟨hchain, hchosen, hlater, (runAll_chain hchain (all_eq_true.mp heval) []).2 ?_⟩
  intro q hq s hs
  rw [hq] at hshut
  exact all_eq_true.mp hshut s hs

/-- A condition that holds, and an `else`. -/
def either : List Statement :=
  ((Statement.ofScript "if(ON)\nset(A 1)\nelse()\nset(A 2)\nendif()").toOption.getD []).take 2

/-- A condition that its first branch changes. -/
def flipped : List Statement :=
  ((Statement.ofScript
    "if(NOT A)\nset(A ON)\nelseif(A)\nset(B 1)\nendif()").toOption.getD []).take 2

/-- An `else` takes effect after the branch that was chosen, and so does a branch whose condition
holds only because of it. -/
theorem branches_take_effect_twice :
    (isChain either = true ∧ either.all (evaluates {} bare) = true ∧
      ((runAll {} (chosen {} bare either)).exec bare).2.bindings.get? "A" = some "1" ∧
      ((runAll {} either).exec bare).2.bindings.get? "A" = some "2") ∧
    (isChain flipped = true ∧ flipped.all (evaluates {} bare) = true ∧
      ((runAll {} (chosen {} bare flipped)).exec bare).2.bindings.get? "B" = none ∧
      ((runAll {} flipped).exec bare).2.bindings.get? "B" = some "1") := by
  decide +kernel

end Project

end RosAudit.CMake
