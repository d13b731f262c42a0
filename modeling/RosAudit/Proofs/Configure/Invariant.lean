import RosAudit.Proofs.Configure.Frame.Builder

/-!
# Invariants of the work on launch files

A launch file is worked through tag by tag, and a tag with tags inside opens a scope. What holds
all the way is stated as `I around b`, about a builder `b` and the scopes `around` that are open,
the innermost first. `Invariant I` lists the steps that have to keep it : opening and closing a
scope, starting and linking a node, a tag without tags inside, and the work before and after the
tree of a file. A step that stops at a fault must keep it as well, since the fault may only be
noted.

`Steps P I` asks this of the work on tags alone, and of no other faults than those with `P`. From
these steps it follows for a tag (`Steps.carryOut`), for lists of tags at any depth of nesting
(`Steps.analyse`), for included files (`Steps.includeFile`) and for whole launch files, whether they
can be used or not (`Invariant.addLaunch`).

It also holds in every state on the way (`Passing`, `Invariant.passing`).
-/

namespace RosAudit

open Job

/-! ## Notes -/

namespace Builder

variable {α : Type} {a a' : α} {j : Job Builder α} {b b' : Builder} {f : Fault}

theorem noting_ok (h : (noting a j).exec b = (.ok a', b')) :
    j.exec b = (.ok a', b') ∨ ∃ f b₁ errors, j.exec b = (.error f, b₁) ∧ f.isNoted = true ∧
      a' = a ∧ b' = { b₁ with errors := errors } := by
  unfold noting at h
  rw [exec_bind, exec_attempt] at h
  rcases hj : j.exec b with ⟨f | a₁, b₁⟩
  · rw [hj] at h
    cases f with
    | substitution c | configuration c =>
      cases h
      exact .inr ⟨_, b₁, _, rfl, rfl, rfl, rfl⟩
    | _ => cases h
  · rw [hj] at h
    exact .inl h

theorem noting_error (h : (noting a j).exec b = (.error f, b')) : f.isNoted = false := by
  unfold noting at h
  rw [exec_bind, exec_attempt] at h
  rcases hj : j.exec b with ⟨g | a₁, b₁⟩
  · rw [hj] at h
    cases g with
    | substitution c | configuration c => cases h
    | _ =>
      cases h
      rfl
  · rw [hj] at h
    cases h

variable (go : Inclusion)

theorem throws_analyseTag (t s) : Throws (·.isNoted = false) (analyseTag go t s) := by
  intro b f b' h
  cases t with
  | error message =>
    cases h
  | tag k text attrs children =>
    exact noting_error h

theorem throws_analyse (ts s) : Throws (·.isNoted = false) (analyse go ts s) := by
  induction ts generalizing s with
  | nil =>
    exact throws_pure s
  | cons t ts ih =>
    exact (throws_analyseTag go t s).bind ih

theorem meets_noting {P Q E} (hj : Meets P Q E j)
    (ha : ∀ f b errors, f.isNoted = true → E f b → Q a { b with errors := errors }) :
    Meets P Q E (noting a j) := by
  intro b hb
  have h := hj b hb
  unfold noting
  rw [exec_bind, exec_attempt]
  rcases hjb : j.exec b with ⟨f | a', b'⟩ <;> rw [hjb] at h
  · cases f with
    | substitution c | configuration c => exact ha _ b' _ rfl h
    | _ => exact h
  · exact h

/-! ## The scope of some tags -/

theorem returns_noting {Q} (ha : Q a) (hj : Returns Q j) : Returns Q (noting a j) := by
  intro b a' b' h
  rcases noting_ok h with h | ⟨f, b₁, errors, -, -, rfl, -⟩
  · exact hj b a' b' h
  · exact ha

theorem frame_leafTag (k text attrs s) :
    Returns (fun s' => s'.frame = s.frame) (leafTag k text attrs s) := by
  by_cases hk : k = .remap
  · subst hk
    refine Returns.after fun x => returns_onBench ?_
    unfold LaunchScope.rename
    split
    · exact Returns.after fun _ => returns_pure rfl
    · exact returns_pure rfl
  · intro b s' b' h
    exact congrArg (fun s : LaunchScope => { s with remaps := Table.empty })
      (returns_leafTag hk text attrs s b s' b' h)

theorem frame_carryOut (work : LaunchScope → Job Builder LaunchScope) (k text attrs children s) :
    Returns (fun s' => s'.frame = s.frame) (carryOut go work k text attrs children s) := by
  have hleaf : ∀ k, Returns (fun s' => s'.frame = s.frame)
      (do if !children.isEmpty then throw .broken
          leafTag k text attrs s : Job Builder LaunchScope) := fun k =>
    of_ite (Returns.after fun _ => frame_leafTag k text attrs s) (frame_leafTag k text attrs s)
  refine Returns.after fun c => of_ite (returns_pure rfl) ?_
  cases k with
  | node =>
    exact Returns.after fun x => Returns.after fun _ => Returns.after fun _ => returns_pure rfl
  | group | inclusion => exact Returns.after fun _ => Returns.after fun _ => returns_pure rfl
  | test => exact returns_pure rfl
  | launch => exact returns_throw _
  | _ => exact hleaf _

theorem frame_analyseTag (t s) : Returns (fun s' => s'.frame = s.frame) (analyseTag go t s) := by
  cases t with
  | error message =>
    exact Returns.after fun _ => returns_pure rfl
  | tag k text attrs children =>
    exact returns_noting rfl (frame_carryOut go _ k text attrs children s)

theorem frame_analyse (ts s) : Returns (fun s' => s'.frame = s.frame) (analyse go ts s) := by
  induction ts generalizing s with
  | nil =>
    exact returns_pure rfl
  | cons t ts ih =>
    refine returns_bind (frame_analyseTag go t s) fun s' hs' => ?_
    rw [← hs']
    exact ih s'

theorem node_analyse (ts s) : Returns (fun s' => s'.node = s.node) (analyse go ts s) := by
  intro b s' b' h
  have hnode := congrArg LaunchScope.node (frame_analyse go ts s b s' b' h)
  exact hnode

/-! ## The work on tags -/

/-- Every step of the work on tags keeps `I`. Where it stops, it need only do so at the faults with
`P`, and all that are noted are among them. -/
structure Steps (P : Fault → Prop) (I : List LaunchScope → Builder → Prop) : Prop where
  noted : ∀ {f}, f.isNoted = true → P f
  close : ∀ {s around b}, s.node = none → I (s :: around) b → I around b
  stop : ∀ {f s around b}, P f → f.isNoted = false → I (s :: around) b → I around b
  errors : ∀ {around b} errors, I around b → I around { b with errors := errors }
  context : ∀ {around b} context, I around b → I around { b with context := context }
  openGroup : ∀ attrs s around, Meets (I (s :: around)) (fun inner => I (inner :: s :: around))
    (fun f b => P f → I (s :: around) b) (openGroup attrs s)
  openInclusion : ∀ attrs children s around, Meets (I (s :: around))
    (fun x => I (x.scope :: s :: around)) (fun f b => P f → I (s :: around) b)
    (openInclusion attrs children s)
  startNode : ∀ attrs s around, Meets (I (s :: around)) (fun x => I (x.2 :: s :: around))
    (fun f b => P f → I (s :: around) b) (startNode attrs s)
  linkNode : ∀ s around node, Meets (I (s :: around)) (fun _ => I around)
    (fun f b => P f → I around b) (linkNode s node)
  leafTag : ∀ k text attrs s around, Meets (I (s :: around)) (fun s' => I (s' :: around))
    (fun f b => P f → I (s :: around) b) (leafTag k text attrs s)

namespace Steps

variable {P : Fault → Prop} {I : List LaunchScope → Builder → Prop} (h : Steps P I)
include h

theorem counts (around c) : Within (Keeping (I around)) (counts c) := by
  refine Within.bind (fun b hb => h.context _ hb) fun v => ?_
  split
  · exact within_throw _
  · exact within_pure _
  · exact within_pure _

theorem carryOut {go work}
    (hgo : ∀ x around, x.scope.node = none → Meets (I (x.scope :: around)) (fun _ => I around) (fun
      f b => P f → I around b) (go x))
    (hwork : ∀ s around, Meets (I (s :: around)) (fun s' => I (s' :: around)) (fun f b => P f →
      I around b) (work s))
    (hnode : ∀ s, Returns (fun s' => s'.node = s.node) (work s)) (k text attrs children s around) :
    Meets (I (s :: around)) (fun s' => I (s' :: around)) (fun f b => P f → I (s :: around) b)
      (carryOut go work k text attrs children s) := by
  have hcounts : Meets (I (s :: around)) (fun _ => I (s :: around))
      (fun f b => P f → I (s :: around) b) (Builder.counts (Condition.of attrs)) :=
    (meets_keeping_iff.mpr (h.counts (s :: around) _)).stop fun _ _ hb _ => hb
  refine hcounts.bind fun c => ?_
  refine of_ite (meets_pure fun _ hb => hb) ?_
  have hleaf : ∀ k, Meets (I (s :: around)) (fun s' => I (s' :: around))
      (fun f b => P f → I (s :: around) b)
      (do if !children.isEmpty then throw .broken
          Builder.leafTag k text attrs s : Job Builder LaunchScope) := by
    intro k
    exact of_ite (fun _ hb _ => hb) (h.leafTag k text attrs s around)
  cases k with
  | node =>
    refine (h.startNode attrs s around).bind fun x => ?_
    refine (hwork x.2 (s :: around)).bind fun inner => ?_
    exact (h.linkNode inner (s :: around) x.1).bind fun _ => meets_pure fun _ hb => hb
  | group =>
    have hopen := (h.openGroup attrs s around).returning (V := fun inner => inner.node = none)
      fun _ _ _ h => (opened_group h).inside.node
    refine hopen.bind fun inner b hb => ?_
    refine (((hwork inner (s :: around)).returning (hnode inner)).bind fun inner' => ?_) b hb.1
    exact meets_pure fun _ hb' => h.close (hb'.2.trans hb.2) hb'.1
  | inclusion =>
    have hopen := (h.openInclusion attrs children s around).returning
      (V := fun x => x.scope.node = none) fun _ _ _ h => (opened_inclusion h).inside.node
    refine hopen.bind fun x b hb => ?_
    refine ((hgo x (s :: around) hb.2).bind fun _ => ?_) b hb.1
    exact meets_pure fun _ hb => hb
  | test => exact meets_pure fun _ hb => hb
  | launch => exact meets_throw fun _ hb _ => hb
  | _ => exact hleaf _

mutual

theorem analyse {go}
    (hgo : ∀ x around, x.scope.node = none → Meets (I (x.scope :: around)) (fun _ => I around) (fun
      f b => P f → I around b) (go x)) :
    ∀ ts s around,
      Meets (I (s :: around)) (fun s' => I (s' :: around)) (fun f b => P f → I around b)
        (analyse go ts s)
  | [], s, around => meets_pure fun _ hb => hb
  | t :: ts, s, around => by
    have htag := (analyseTag hgo t s around).throwing (throws_analyseTag go t s)
    refine (htag.stop fun f b hb hf => h.stop hf hb.2 (hb.1 hf)).bind fun s' => ?_
    exact analyse hgo ts s' around

theorem analyseTag {go}
    (hgo : ∀ x around, x.scope.node = none → Meets (I (x.scope :: around)) (fun _ => I around) (fun
      f b => P f → I around b) (go x)) :
    ∀ t s around,
      Meets (I (s :: around)) (fun s' => I (s' :: around)) (fun f b => P f → I (s :: around) b)
        (analyseTag go t s)
  | .error message, s, around => fun b hb => h.errors _ hb
  | .tag k text attrs children, s, around => by
    refine meets_noting ?_ fun f b errors hf hb => h.errors errors (hb (h.noted hf))
    exact h.carryOut hgo (analyse hgo children) (node_analyse go children) k text attrs children s
      around

end

theorem includeFile : ∀ n x around, x.scope.node = none →
    Meets (I (x.scope :: around)) (fun _ => I around) (fun f b => P f → I around b)
      (includeFile n x)
  | 0, x, around, hx => meets_throw fun _ hb _ => h.close hx hb
  | n + 1, x, around, hx => by
    refine meets_get fun b hb => ?_
    have henter : Meets (· = b) (fun _ => I (x.scope :: around)) (fun f b => P f → I around b)
        (set (b.enter x) : Job Builder PUnit) := fun _ _ => h.context _ hb
    refine henter.bind fun _ => ?_
    have htags := (h.analyse (includeFile n) (tagsOf x.tree) x.scope around).returning
      (node_analyse _ _ _)
    refine htags.bind fun s' => ?_
    exact fun b' hb' => h.context _ (h.close (hb'.2.trans hx) hb'.1)

end Steps

/-! ## Whole launch files -/

theorem exists_of_runLaunch {f tree u} (h : (runLaunch f tree).exec b = (.ok u, b')) : ∃ s₁ b₁,
      (analyse (includeFile nesting) (tagsOf tree)
        { configuration := b.configuration, launch := f }).exec (b.launching f) = (.ok s₁, b₁) ∧
      settleParams.exec b₁ = (.ok u, b') :=
  exec_bind_ok.mp h

theorem exists_of_addLaunch {f done} (h : (addLaunch f).exec b = (.ok done, b')) :
    (done = false ∧ (b.bench.model.file f).tree = none ∧
      ∃ errors, b' = { b.enlist f with errors := errors }) ∨
    (done = true ∧ ∃ tree b₁, (b.bench.model.file f).tree = some tree ∧
      (runLaunch f tree).exec (b.enlist f) = (.ok (), b₁) ∧
      ∃ packageUses environmentUses, b' = { b₁ with bench := { b₁.bench with
        model := b₁.bench.model.updateConfiguration b.configuration fun k =>
          { k with packageUses := packageUses, environmentUses := environmentUses } } }) := by
  unfold addLaunch at h
  rw [exec_bind_of_ok (exec_get b)] at h
  dsimp only at h
  split at h
  · cases h
  rw [exec_bind_of_ok (exec_modify _ _)] at h
  split at h
  · rename_i htree
    cases h
    exact .inl ⟨rfl, htree, _, rfl⟩
  · rename_i tree htree
    rw [exec_bind_of_ok (exec_attempt _ _)] at h
    rcases hrun :
      (runLaunch f tree).exec (b.enlist f) with ⟨e | u, b₁⟩ <;> rw [hrun] at h <;> cases h
    exact .inr ⟨rfl, tree, b₁, htree, hrun, _, _, rfl⟩

/-- Every step of the work on a launch file keeps `I`. -/
structure Invariant (I : List LaunchScope → Builder → Prop) : Prop where
  close : ∀ {s around b}, I (s :: around) b → I around b
  errors : ∀ {around b} errors, I around b → I around { b with errors := errors }
  context : ∀ {around b} context, I around b → I around { b with context := context }
  openGroup : ∀ attrs s around, Meets (I (s :: around)) (fun inner => I (inner :: s :: around))
    (fun _ => I (s :: around)) (openGroup attrs s)
  openInclusion : ∀ attrs children s around, Meets (I (s :: around))
    (fun x => I (x.scope :: s :: around)) (fun _ =>
      I (s :: around)) (openInclusion attrs children s)
  startNode : ∀ attrs s around, Meets (I (s :: around)) (fun x => I (x.2 :: s :: around))
    (fun _ => I (s :: around)) (startNode attrs s)
  linkNode : ∀ s around node, Meets (I (s :: around)) (fun _ => I around) (fun _ => I around)
    (linkNode s node)
  leafTag : ∀ k text attrs s around, Meets (I (s :: around)) (fun s' => I (s' :: around))
    (fun _ => I (s :: around)) (leafTag k text attrs s)
  enlist : ∀ {b} f, I [] b → I [] (b.enlist f)
  launching : ∀ {b} f, I [] b →
    I [{ configuration := b.configuration, launch := f }] (b.launching f)
  settleParams : Within (Keeping (I [])) settleParams
  uses : ∀ {b} c packageUses environmentUses, I [] b →
    I [] { b with bench := { b.bench with model := b.bench.model.updateConfiguration c fun k =>
      { k with packageUses := packageUses, environmentUses := environmentUses } } }

namespace Invariant

variable {I : List LaunchScope → Builder → Prop} (h : Invariant I)
include h

theorem steps : Steps (fun _ => True) I where
  noted _ := trivial
  close _ := h.close
  stop _ _ := h.close
  errors := h.errors
  context := h.context
  openGroup attrs s around := (h.openGroup attrs s around).stop fun _ _ hb _ => hb
  openInclusion attrs children s around :=
    (h.openInclusion attrs children s around).stop fun _ _ hb _ => hb
  startNode attrs s around := (h.startNode attrs s around).stop fun _ _ hb _ => hb
  linkNode s around node := (h.linkNode s around node).stop fun _ _ hb _ => hb
  leafTag k text attrs s around := (h.leafTag k text attrs s around).stop fun _ _ hb _ => hb

theorem analyse (n ts s around) :
    Meets (I (s :: around)) (fun s' => I (s' :: around)) (fun _ => I around)
      (analyse (Builder.includeFile n) ts s) :=
  (h.steps.analyse (h.steps.includeFile n) ts s around).stop fun _ _ hb => hb trivial

theorem analyseTag (n t s around) :
    Meets (I (s :: around)) (fun s' => I (s' :: around)) (fun _ => I (s :: around))
      (analyseTag (Builder.includeFile n) t s) :=
  (h.steps.analyseTag (h.steps.includeFile n) t s around).stop fun _ _ hb => hb trivial

theorem runLaunch (f tree) : Within (Keeping (I [])) (runLaunch f tree) := by
  have hbegin : Meets (I []) (fun _ b => I [{ configuration := b.configuration, launch := f }] b)
      (fun _ => I []) (modify (Builder.launching f) : Job Builder PUnit) :=
    fun b hb => h.launching (b := b) f hb
  refine meets_keeping_iff.mp (hbegin.bind fun _ => meets_get fun b hb => ?_)
  have htags := h.analyse nesting (tagsOf tree)
    { configuration := b.configuration, launch := f } []
  have hstart : ∀ b', b' = b → I [{ configuration := b.configuration, launch := f }] b' := by
    rintro _ rfl
    exact hb
  refine (htags.pre hstart).bind fun s' => ?_
  exact (meets_keeping_iff.mpr h.settleParams).pre fun _ hb => h.close hb

theorem addLaunch (f : Ref .file) : Within (Keeping (I [])) (addLaunch f) := by
  refine within_get.bind fun b => ?_
  extract_lets x next
  have hnext : ∀ u, Within (Keeping (I [])) (next u) := by
    intro u
    refine Within.bind (within_modify fun b hb => h.enlist f hb) fun _ => ?_
    split
    · exact Within.bind (within_modify fun b hb => h.errors _ hb) fun _ => within_pure _
    · refine Within.bind (h.runLaunch f _).attempt fun r => within_get.bind fun b' => ?_
      refine Within.bind (fun b'' hb => h.uses _ _ _ hb) fun _ => ?_
      exact (within_ofResult _).bind fun _ => within_pure _
  exact of_ite ((within_throw _).bind hnext) (hnext ())

end Invariant

/-! ## On the way -/

/-- While the tags `ts` in the scope `s` are worked through from the state `b`, the state `b'` is
passed and the scopes `inner` are open, the innermost first and `s` last. Inclusions may nest `n`
deep. -/
inductive Passing : Nat → List LaunchTree → LaunchScope → Builder → List LaunchScope →
    Builder → Prop
  | start {n : Nat} {ts : List LaunchTree} {s : LaunchScope} {b : Builder} : Passing n ts s b [s] b
  | later {n : Nat} {t : LaunchTree} {ts : List LaunchTree} {s s' : LaunchScope} {b b₁ b' : Builder}
    {inner : List LaunchScope} (htag : (analyseTag (includeFile n) t s).exec b = (.ok s', b₁))
    (h : Passing n ts s' b₁ inner b') : Passing n (t :: ts) s b inner b'
  | stopped {n : Nat} {t : LaunchTree} {ts : List LaunchTree} {s : LaunchScope} {b b' : Builder}
    {f : Fault} (htag : (analyseTag (includeFile n) t s).exec b = (.error f, b')) :
    Passing n (t :: ts) s b [s] b'
  | inNode {n : Nat} {text : String} {attrs : Table String Subst} {children ts : List LaunchTree}
    {s : LaunchScope} {b b₁ b₂ b' : Builder} {x : Ref .node × LaunchScope} {inner :
      List LaunchScope}
    (hcounts : (counts (Condition.of attrs)).exec b = (.ok true, b₁))
    (hopen : (startNode attrs s).exec b₁ = (.ok x, b₂)) (h : Passing n children x.2 b₂ inner b') :
    Passing n (.tag .node text attrs children :: ts) s b (inner ++ [s]) b'
  | inGroup {n : Nat} {text : String} {attrs : Table String Subst} {children ts : List LaunchTree}
    {s s' : LaunchScope} {b b₁ b₂ b' : Builder} {inner : List LaunchScope}
    (hcounts : (counts (Condition.of attrs)).exec b = (.ok true, b₁))
    (hopen : (openGroup attrs s).exec b₁ = (.ok s', b₂)) (h : Passing n children s' b₂ inner b') :
    Passing n (.tag .group text attrs children :: ts) s b (inner ++ [s]) b'
  | inInclusion {n : Nat} {text : String} {attrs : Table String Subst} {children ts :
    List LaunchTree}
    {s : LaunchScope} {b b₁ b₂ b' : Builder} {x : Included} {inner : List LaunchScope}
    (hcounts : (counts (Condition.of attrs)).exec b = (.ok true, b₁))
    (hopen : (openInclusion attrs children s).exec b₁ = (.ok x, b₂))
    (h : Passing n (tagsOf x.tree) x.scope (b₂.enter x) inner b') :
    Passing (n + 1) (.tag .inclusion text attrs children :: ts) s b (inner ++ [s]) b'

theorem Invariant.passing {I} (h : Invariant I) {n ts s b b' inner}
    (hpass : Passing n ts s b inner b') {around} (hb : I (s :: around) b) :
    I (inner ++ around) b' := by
  induction hpass generalizing around with
  | start => exact hb
  | later htag _ ih => exact ih ((h.analyseTag _ _ _ around).of_ok hb htag)
  | stopped htag => exact (h.analyseTag _ _ _ around).of_error hb htag
  | inNode hcounts hopen _ ih =>
    have hb₁ := (h.steps.counts _ _).of_exec hcounts hb
    rw [List.append_assoc]
    exact ih ((h.startNode _ _ around).of_ok hb₁ hopen)
  | inGroup hcounts hopen _ ih =>
    have hb₁ := (h.steps.counts _ _).of_exec hcounts hb
    rw [List.append_assoc]
    exact ih ((h.openGroup _ _ around).of_ok hb₁ hopen)
  | inInclusion hcounts hopen _ ih =>
    have hb₁ := (h.steps.counts _ _).of_exec hcounts hb
    rw [List.append_assoc]
    exact ih (h.context _ ((h.openInclusion _ _ _ around).of_ok hb₁ hopen))

end Builder

/-! ## Faults that are not noted -/

open LaunchScope

/-! ## Nodes -/

theorem LaunchScope.throws_makeNode (s : LaunchScope) (node name ns argv guard) :
    Throws Fault.Stops (s.makeNode node name ns argv guard) := by
  refine throws_get.bind fun w => ?_
  have hname : Fails Fault.Stops (s.nodeName w.model node name ns) := by
    refine (s.fails_namespaceOf _ _ _).bind fun space => ?_
    extract_lets next
    have hnext : ∀ own, Fails Fault.Stops (next own) :=
      fun own => (Name.fails_make _ _ _ _).bind fun full => fails_pure _
    split
    · exact (fails_pure _).bind hnext
    · exact (fails_pure _).bind hnext
    · exact Fails.bind (fails_throw rfl) hnext
  exact (throws_ofResult hname).bind fun x => (throws_change _).bind fun r => throws_pure _

namespace Builder

theorem throws_node : ∀ p : Program, Throws Fault.Stops p.node
  | .known n => throws_pure n
  | .named _ _ =>
    (throws_ofResult (Name.fails_make _ _ _ _)).bind fun _ => throws_onBench (throws_change _)

theorem throws_linkNode (s node) : Throws Fault.Stops (linkNode s node) :=
  (bounded_linkNode (R := Model.Anyhow) s node).throws

/-! ## Files -/

theorem throws_passedArgs : ∀ ts args,
    Throws Fault.Stops (passedArgs ts args)
  | [], args => throws_pure args
  | .error message :: ts, args => (throws_modify _).bind fun _ => throws_passedArgs ts args
  | .tag k _ attrs children :: ts, args => by
    refine Throws.bind ?_ fun args => throws_passedArgs ts args
    exact fun b f b' h => noting_error h

theorem throws_includeFile : ∀ n x, Throws Fault.Stops (includeFile n x)
  | 0, x => throws_throw rfl
  | n + 1, x => by
    refine throws_get.bind fun b => Throws.bind (fun _ _ _ h => by cases h) fun _ => ?_
    exact (throws_analyse _ _ _).bind fun _ => throws_modify _

theorem throws_settleParams : Throws Fault.Stops settleParams := by
  refine throws_get.bind fun b => (chains_throws.forIn (fun p _ _ => ?_) _).bind fun _ => ?_
  · exact (throws_onBench (throws_change _)).bind fun _ => throws_pure _
  · refine throws_get.bind fun b => (chains_throws.forIn (fun f _ _ => ?_) _).bind fun _ =>
      throws_pure _
    have hmake : Bounded (Workbench.Along Model.Anyhow) Fault.Stops f.make :=
      f.bounded_make fun _ _ => trivial
    exact (throws_onBench hmake.throws).bind fun _ => throws_pure _

theorem throws_runLaunch (f tree) : Throws Fault.Stops (runLaunch f tree) := by
  refine (throws_modify _).bind fun _ => throws_get.bind fun b => ?_
  exact (throws_analyse _ _ _).bind fun _ => throws_settleParams

end Builder

end RosAudit
