import RosAudit.Proofs.Configure.Frame.Links
import RosAudit.Proofs.Configure.Frame.Steps

/-!
# What a tag changes

A builder carries out the tags of a launch file on its workbench. `Along R` relates two states of a
builder whose models are related by `R` and that build on the same configuration, with the same
hints and the same links noted for later; `Onward R` leaves the notes open. Reading a field or a
condition only asks something of the context (`Asking`), and a package or a program may be looked
for (`Seeking`). All that is done beside the configuration moves the builder along every relation
that is `Aside` of it, and a tag without tags inside that states no renaming along every `Making`
one (`within_leafTag`).

The tags that open a scope do so as the scope says :

* `opened_group` and `opened_inclusion` for groups and inclusions;
* `meets_startNode` for nodes, which stop before anything was changed, or start a node and then may
still stop at parameters that wait (`StartedFrom`, `StoppedFrom`).

After the tags, `along_settleParams` lists the parameters and links those that were noted.
-/

namespace RosAudit

open Job Model LaunchScope

variable {R : Model → Model → Prop}

namespace Builder

/-- How many node instances there are. -/
def count (b : Builder) : Nat := b.bench.model.instances.size

/-- The same configuration is built on with the same hints, no link is noted for later, and the
models are related. -/
structure Along (R : Model → Model → Prop) (b b' : Builder) : Prop where
  configuration : b'.configuration = b.configuration
  given : b'.specs = b.specs ∧ b'.hints = b.hints
  future : b'.future = b.future
  model : R b.bench.model b'.bench.model

instance [IsPreorder Model R] : IsPreorder Builder (Along R) where
  refl b := ⟨rfl, ⟨rfl, rfl⟩, rfl, refl_of R b.bench.model⟩
  trans _ _ _ h h' :=
    ⟨h'.configuration.trans h.configuration,
      ⟨h'.given.1.trans h.given.1, h'.given.2.trans h.given.2⟩, h'.future.trans h.future,
      trans_of R h.model h'.model⟩

/-- The same configuration is built on with the same hints, and the models are related. -/
structure Onward (R : Model → Model → Prop) (b b' : Builder) : Prop where
  configuration : b'.configuration = b.configuration
  given : b'.specs = b.specs ∧ b'.hints = b.hints
  model : R b.bench.model b'.bench.model

instance [IsPreorder Model R] : IsPreorder Builder (Onward R) where
  refl b := ⟨rfl, ⟨rfl, rfl⟩, refl_of R b.bench.model⟩
  trans _ _ _ h h' :=
    ⟨h'.configuration.trans h.configuration,
      ⟨h'.given.1.trans h.given.1, h'.given.2.trans h.given.2⟩, trans_of R h.model h'.model⟩

variable (k : TagKind) (attrs : Table String Subst) (s : LaunchScope) {α : Type} {b b' : Builder}

theorem Along.onward (h : Along R b b') : Onward R b b' :=
  ⟨h.configuration, h.given, h.model⟩

variable {j : Job Workbench α}

theorem within_onBench (h : Within (Workbench.Along R) j) : Within (Along R) (onBench j) :=
  fun b => ⟨rfl, ⟨rfl, rfl⟩, rfl, h b.bench⟩

theorem returns_onBench {Q} (h : Returns Q j) : Returns Q (onBench j) := by
  intro b a b' hb
  rw [Prod.mk.injEq] at hb
  exact h b.bench a _ (Prod.ext hb.1 rfl)

theorem throws_onBench {E} (h : Throws E j) : Throws E (onBench j) := by
  intro b f b' hb
  rw [Prod.mk.injEq] at hb
  exact h b.bench f _ (Prod.ext hb.1 rfl)

theorem within_onBench_of_eq {S} [IsPreorder Builder S] (hj : Within Eq j) :
    Within S (onBench j) := by
  intro b
  rw [exec_onBench]
  rw [← hj b.bench]
  exact refl_of S b

/-- A relation that holds when something is asked of the context. -/
class Asking (S : Builder → Builder → Prop) : Prop extends IsPreorder Builder S where
  context (b : Builder) {context : SubstContext} (h : b.context.Matches context) :
    S b { b with context := context }

section Asking

variable {S : Builder → Builder → Prop} [Asking S]

instance (b₀ : Builder) : Seeing (Tied S b₀) where
  reads := by
    rintro b _ ⟨rfl, -⟩
    exact ⟨rfl, rfl, rfl, rfl⟩
  context _ hj := Within.blind (fun b => Asking.context b (hj b.context)) b₀

theorem within_resolveField (field : String) : Within S (resolveField k attrs field) :=
  within_of_blind fun _ => blind_resolveField k attrs field

theorem within_textField (field : String) : Within S (textField k attrs field) :=
  within_of_blind fun _ => blind_textField k attrs field

theorem within_counts (c : Condition) : Within S (counts c) :=
  within_of_blind fun _ => blind_counts c

theorem within_readOrder (text : String) : Within S (readOrder text attrs) :=
  within_of_blind fun _ => blind_readOrder attrs text

theorem within_openGroup : Within S (openGroup attrs s) :=
  within_of_blind fun _ => blind_openGroup attrs s

theorem within_renamingOf : Within S (renamingOf attrs s) :=
  within_of_blind fun _ => blind_renamingOf attrs s

end Asking

/-- A relation that also holds when packages and programs are looked for. -/
class Seeking (S : Builder → Builder → Prop) : Prop extends Asking S where
  search (b : Builder) (search : PackageSearch) : S b { b with search := search }
  foreign (b : Builder) (foreign : List (Ref .package)) : S b { b with foreign := foreign }
  addManifest (b : Builder) (x : Manifest) :
    S b { b with bench := { b.bench with model := (b.bench.model.addManifest x none).1 } }
  addNode (b : Builder) {n : Node} (h : n.IsBare) :
    S b { b with bench := { b.bench with model := (b.bench.model.addNode n).1 } }

section Seeking

variable {S : Builder → Builder → Prop} [Seeking S]

theorem within_findPackage (name : String) : Within S (findPackage name) := by
  intro b
  simp only [findPackage, exec_bind, exec_get]
  split
  · exact refl_of S b
  · refine within_set (R := S) (Seeking.search b _) ?_
    split
    · refine Within.bind (fun b => Seeking.addManifest b _) fun p => ?_
      exact Within.bind (within_modify fun b => Seeking.foreign b _) fun _ => within_pure p
    all_goals exact within_throw _

theorem within_node : ∀ p : Program, Within S p.node
  | .known n => within_pure n
  | .named _ _ =>
    Within.bind (within_ofResult _) fun _ b => Seeking.addNode b fun k => by cases k <;> rfl

instance (b₀ : Builder) : Tracing (Tied S b₀) where
  findPackage name := (within_findPackage name).blind b₀
  node p := (within_node p).blind b₀

theorem within_findProgram (pkg exe args) : Within S (findProgram pkg exe args) :=
  within_of_blind fun _ => blind_findProgram pkg exe args

end Seeking

/-- A relation that holds along all that a builder does beside its configuration : it looks for
packages and programs, notes messages, and gives values to arguments. -/
class Aside (S : Builder → Builder → Prop) : Prop extends Seeking S where
  note (b : Builder) (message : String) : S b { b with errors := b.errors ++ [message] }
  arguments (b : Builder) (arguments : Table String Argument) :
    S b { b with context := { b.context with arguments := arguments } }

instance [Making R] : Aside (Along R) where
  context b _ _ := ⟨rfl, ⟨rfl, rfl⟩, rfl, refl_of R b.bench.model⟩
  note b _ := ⟨rfl, ⟨rfl, rfl⟩, rfl, refl_of R b.bench.model⟩
  arguments b _ := ⟨rfl, ⟨rfl, rfl⟩, rfl, refl_of R b.bench.model⟩
  search b _ := ⟨rfl, ⟨rfl, rfl⟩, rfl, refl_of R b.bench.model⟩
  foreign b _ := ⟨rfl, ⟨rfl, rfl⟩, rfl, refl_of R b.bench.model⟩
  addManifest b x := ⟨rfl, ⟨rfl, rfl⟩, rfl, Making.addManifest b.bench.model x none⟩
  addNode b _ h := ⟨rfl, ⟨rfl, rfl⟩, rfl, Making.addNode b.bench.model h⟩

variable {I : Builder → Prop} {k : TagKind}

theorem aside_of_along [Making R] (h : ∀ {b b'}, I b → Along R b b' → I b') :
    Aside (Keeping I) where
  context _ _ hx hb := h hb (Asking.context (S := Along R) _ hx)
  note _ _ hb := h hb (Aside.note (S := Along R) _ _)
  arguments _ _ hb := h hb (Aside.arguments (S := Along R) _ _)
  search _ _ hb := h hb (Seeking.search (S := Along R) _ _)
  foreign _ _ hb := h hb (Seeking.foreign (S := Along R) _ _)
  addManifest _ _ hb := h hb (Seeking.addManifest (S := Along R) _ _)
  addNode _ _ hn hb := h hb (Seeking.addNode (S := Along R) _ hn)

section Aside

variable {S : Builder → Builder → Prop} [Aside S]

instance (b₀ : Builder) : Noticing (Tied S b₀) where
  note message := (within_modify fun b => Aside.note b message).blind b₀
  arguments _ := (within_modify fun b => Aside.arguments b _).blind b₀

theorem within_openInclusion (children s) : Within S (openInclusion attrs children s) :=
  within_of_blind fun _ => blind_openInclusion attrs children s

theorem within_leafTag_of (hk : k ≠ .remap) (text attrs) {s}
    (hset : ∀ name type text, Within S (onBench (s.setParam name type text none)))
    (hload : ∀ name ns document, Within S (onBench (s.setDocument name ns document none))) :
    Within S (leafTag k text attrs s) :=
  within_of_blind fun b₀ => blind_leafTag_of attrs text (fun h => absurd h hk)
    (fun _ _ _ => (hset _ _ _).blind b₀) (fun _ _ _ => (hload _ _ _).blind b₀)
    fun _ _ => (within_onBench_of_eq (s.within_deleteParam _ _ none)).blind b₀

end Aside

theorem within_leafTag [Making R] (hk : k ≠ .remap) (text attrs s) :
    Within (Along R) (leafTag k text attrs s) :=
  within_leafTag_of hk text attrs (fun _ _ _ => within_onBench (s.bounded_setParam _ _ _ _).within)
    fun _ _ _ => within_onBench (s.within_setDocument _ _ _ _)

theorem returns_paramTag : Returns (fun s' => s'.core = s.core) (paramTag attrs s) := by
  refine Returns.after fun name => Returns.after fun type => Returns.after fun text => ?_
  refine returns_bind (returns_onBench (s.returns_setParam _ _ _ _)) fun r hr => ?_
  split
  · exact returns_pure (hr _ rfl)
  all_goals exact returns_throw _

theorem returns_rosparamTag (text attrs s) :
    Returns (fun s' => s'.core = s.core) (rosparamTag text attrs s) := by
  rw [rosparamTag_eq]
  refine Returns.after fun o => ?_
  cases o with
  | load name ns document => exact returns_onBench (s.returns_setDocument name ns document none)
  | delete name ns => exact Returns.after fun _ => returns_pure rfl
  | other => exact returns_pure rfl

theorem returns_leafTag (hk : k ≠ .remap) (text attrs s) :
    Returns (fun s' => s'.core = s.core) (leafTag k text attrs s) := by
  unfold leafTag
  split
  · exact absurd rfl hk
  · exact returns_paramTag attrs s
  · exact returns_rosparamTag text attrs s
  · exact Returns.after fun b => Returns.after fun args => Returns.after fun _ => returns_pure rfl
  · exact returns_pure rfl

theorem meets_leafTag_of {I text attrs s} (hcore : ∀ {s' b}, s'.core = s.core → I s b → I s' b)
    (hremap : Meets (I s) I (fun _ => I s) (leafTag .remap text attrs s))
    (hleaf : k ≠ .remap → Within (Keeping (I s)) (leafTag k text attrs s)) :
    Meets (I s) I (fun _ => I s) (leafTag k text attrs s) := by
  by_cases hk : k = .remap
  · exact hk ▸ hremap
  · exact (hleaf hk).meets (returns_leafTag hk text attrs s) (fun _ _ _ hb h hs' =>
      hcore hs' (h hb)) fun _ _ _ hb h => h hb

/-! ## Tags that open a scope -/

section Inside

variable {s inner : LaunchScope} {attrs : Table String Subst} {children : List LaunchTree}
    {x : Included}

def Opened (s : LaunchScope) (b : Builder) (inner : LaunchScope) : Prop :=
  ∃ b₁ ns file, (∀ {S : Builder → Builder → Prop} [Asking S], S b b₁) ∧
    s.child b₁.bench.model ns none file = .ok inner

theorem opened_group (h : (openGroup attrs s).exec b = (.ok inner, b')) : Opened s b inner := by
  obtain ⟨ns, b₁, hns, h⟩ := exec_bind_ok.mp h
  rw [exec_bind_of_ok (exec_model b₁), exec_ofResult, Prod.mk.injEq] at h
  exact ⟨b₁, ns, s.launch, (within_textField _ _ _).of_exec hns, h.1⟩

theorem openInclusion_ok (h : (openInclusion attrs children s).exec b = (.ok x, b')) :
    ∃ b₁ ns, (∀ {S : Builder → Builder → Prop} [Asking S], S b b₁) ∧
      x.file ∈ b₁.catalogue.files ∧ s.child b₁.bench.model ns none x.file = .ok x.scope := by
  obtain ⟨path, b₁, hpath, h⟩ := exec_bind_ok.mp h
  obtain ⟨ns, b₂, hns, h⟩ := exec_bind_ok.mp h
  obtain ⟨passAll, b₃, hpass, h⟩ := exec_bind_ok.mp h
  have hasked : ∀ {S : Builder → Builder → Prop} [Asking S], S b b₃ := fun {S} _ =>
    trans_of S (trans_of S ((within_textField _ _ _).of_exec hpath)
      ((within_textField _ _ _).of_exec hns)) ((within_resolveField _ _ _).of_exec hpass)
  rw [exec_bind_of_ok (exec_get b₃)] at h
  dsimp only at h
  split at h
  · cases h
  · rename_i file hfind
    split at h
    · cases h
    · obtain ⟨scope, b₄, hscope, h⟩ := exec_bind_ok.mp h
      obtain ⟨arguments, b₅, -, h⟩ := exec_bind_ok.mp h
      cases h
      rw [exec_ofResult, Prod.mk.injEq] at hscope
      exact ⟨b₃, ns, hasked, List.mem_of_find?_eq_some hfind, hscope.1⟩

theorem opened_inclusion (h : (openInclusion attrs children s).exec b = (.ok x, b')) :
    Opened s b x.scope := by
  obtain ⟨b₁, ns, hasked, -, hchild⟩ := openInclusion_ok h
  exact ⟨b₁, ns, x.file, hasked, hchild⟩

theorem Opened.inside (h : Opened s b inner) : Inside s b.bench.model inner := by
  obtain ⟨b₁, ns, file, hasked, hchild⟩ := h
  have hquiet : Along Quiet b b₁ := hasked
  have h := inside_child hchild
  exact { h with remaps := h.remaps.trans (s.remapsIn_quiet hquiet.model) }

theorem meets_opening {I : Builder → Prop} {J : LaunchScope → Builder → Prop} [Asking (Keeping I)]
    {scopeOf : α → LaunchScope} {j : Job Builder α} (hj : Within (Keeping I) j)
    (hopen : ∀ {b a b'}, j.exec b = (.ok a, b') → Opened s b (scopeOf a))
    (hchild : ∀ {b₁ b ns file inner}, I b₁ → s.child b₁.bench.model ns none file = .ok inner → I b →
      J inner b) : Meets I (fun a => J (scopeOf a)) (fun _ => I) j := by
  intro b hb
  have hkept := hj b hb
  rcases hexec : j.exec b with ⟨f | a, b'⟩ <;> rw [hexec] at hkept
  · exact hkept
  · obtain ⟨b₁, ns, file, hasked, hinner⟩ := hopen hexec
    have hb₁ : Keeping I b b₁ := hasked
    exact hchild (hb₁ hb) hinner hkept

end Inside

/-! ## Node tags -/

theorem bounded_linkNode [TopicSteady R] [ServiceSteady R] (node : Ref .node) :
    Bounded (Onward R) Fault.Stops (linkNode s node) := by
  refine bounded_get.bind fun b =>
    (bounded_ofResult (Hints.fails_merge _ _ _ _)).bind fun hints => ?_
  refine Bounded.bind ?_ fun s' => bounded_modify fun b =>
    ⟨rfl, ⟨rfl, rfl⟩, refl_of R b.bench.model⟩
  have hlink : Bounded (Workbench.Along R) Fault.Stops (Hints.link s hints) :=
    Hints.bounded_link s hints
  exact ⟨(within_onBench hlink.within).mono fun _ _ => Along.onward, throws_onBench hlink.throws⟩

theorem meets_linkNode_of {I J s node} (hback : ∀ b, I b → J b)
    (hlink : ∀ {b v node inst}, I b → Hints.merge b.specs b.hints node inst = .ok v → Meets (· =
      b.bench) (fun s' w => J { b with bench := w, future := b.future ++ s'.future }) (fun _ w => J
      { b with bench := w }) (Hints.link s v)) :
    Meets I (fun _ => J) (fun _ => J) (linkNode s node) := by
  refine meets_get fun b hb => ?_
  refine (meets_ofResult (Q := fun v b' => b' = b ∧ Hints.merge b.specs b.hints _ _ = .ok v)
    (fun _ _ hb' hv => ⟨hb', hv⟩) fun _ _ hb' => hb' ▸ hback b hb).bind fun v => ?_
  rintro b' ⟨rfl, hv⟩
  have h := hlink hb hv b'.bench rfl
  rw [exec_bind, exec_onBench]
  rcases hw : (Hints.link s v).exec b'.bench with ⟨f | s', w⟩ <;> rw [hw] at h <;> exact h

def StartedFrom (R : Model → Model → Prop) (s : LaunchScope) (b : Builder) (inner : LaunchScope)
    (b' : Builder) : Prop :=
  b'.configuration = b.configuration ∧ (b'.specs = b.specs ∧ b'.hints = b.hints) ∧
    b'.future = b.future ∧ ∃ m, R b.bench.model m ∧ Started s m inner b'.bench.model

/-- How starting the node of a tag may stop. If it stops after the node was started, the tag could
not take the parameters that wait. -/
def StoppedFrom (R : Model → Model → Prop) (s : LaunchScope) (b : Builder) (f : Fault)
    (b' : Builder) : Prop :=
  Along R b b' ∨ f = .noField ∧ ∃ inner, StartedFrom R s b inner b'

theorem meets_startNode_of {J E} [Aside (Keeping I)] {attrs s} (hstop : ∀ f b, I b → E f b)
    (hback : ∀ inner b, J inner b → E .noField b)
    (hmake : ∀ node name ns argv, Meets I J E (onBench (s.makeNode node name ns argv none))) :
    Meets I (fun x => J x.2) E (startNode attrs s) := by
  have hfirst : ∀ {α : Type} {j : Job Builder α} {f : α → Job Builder (Ref .node × LaunchScope)},
      Within (Keeping I) j → (∀ a, Meets I (fun x => J x.2) E (f a)) →
      Meets I (fun x => J x.2) E (j >>= f) :=
    fun hj hf => ((meets_keeping_iff.mpr hj).stop fun f b hb => hstop f b hb).bind hf
  refine hfirst (within_textField _ _ _) fun pkg => hfirst (within_textField _ _ _) fun exe => ?_
  refine hfirst (within_textField _ _ _) fun args => ?_
  split
  · refine hfirst (within_findProgram _ _ _) fun program => ?_
    refine hfirst (within_textField _ _ _) fun name => hfirst (within_textField _ _ _) fun ns => ?_
    refine hfirst (within_node program) fun node => (hmake node name ns _).bind fun inner b hb => ?_
    by_cases hheld : s.held.isEmpty
    · simp only [LaunchScope.handOver, hheld]
      exact hb
    · simp only [LaunchScope.handOver, hheld]
      exact hback inner b hb
  · exact meets_throw fun b hb => hstop _ b hb

theorem meets_startNode [Making R] (b : Builder) :
    Meets (· = b) (fun x b' => StartedFrom R s b x.2 b') (StoppedFrom R s b)
      (startNode attrs s) := by
  have : Aside (Keeping (Along R b)) := aside_of_along fun h h' => trans_of (Along R) h h'
  refine Meets.pre (meets_startNode_of (I := Along R b) (J := StartedFrom R s b)
    (fun _ _ h => .inl h) (fun inner _ h => .inr ⟨rfl, inner, h⟩) fun node name ns argv b₁ h => ?_)
    fun _ hb => hb ▸ refl_of (Along R) b
  rw [exec_onBench]
  rcases s.exec_makeNode node name ns argv none b₁.bench with ⟨f, hf⟩ | ⟨inner, w', hw, hst⟩
  · rw [hf]
    exact .inl h
  · rw [hw]
    exact ⟨h.configuration, h.given, h.future, b₁.bench.model, h.model, hst⟩

/-! ## Parameters at the end -/

theorem keeping_settleParams_of {P : Model → Ref .param → Prop}
    (hwait : ∀ b, I b → ∀ p ∈ b.bench.params, P b.bench.model p)
    (hlist : ∀ (b : Builder) p, I b → P b.bench.model p →
      I { b with bench := { b.bench with model := (b.bench.model.listParam p).1 } } ∧
        ∀ q, P b.bench.model q → P (b.bench.model.listParam p).1 q)
    (hmake : ∀ (b : Builder) f, I b → f ∈ b.future →
      I { b with bench := (f.make.exec b.bench).2 }) : Within (Keeping I) settleParams := by
  refine meets_keeping_iff.mp (meets_get fun b hb => ?_)
  have hlists : Within (Keeping fun b' : Builder => I b' ∧ ∀ p ∈ b.bench.params, P b'.bench.model p)
      (forIn b.bench.params PUnit.unit fun p _ => do
        let _ ← onBench (LaunchScope.change fun m => m.listParam p)
        pure (.yield PUnit.unit)) := by
    refine chains_within.forIn (fun p hp _ => Within.bind ?_ fun _ => within_pure _) _
    intro b' hb'
    obtain ⟨hI, hP⟩ := hlist b' p hb'.1 (hb'.2 p hp)
    exact ⟨hI, fun q hq => hP q (hb'.2 q hq)⟩
  have hlinks : ∀ future : List FutureLink, Within (Keeping fun b' : Builder => I b' ∧
      b'.future = future) (do for f in future do onBench f.make : Job Builder Unit) := by
    intro future
    refine Within.bind (chains_within.forIn (fun f hf _ => Within.bind ?_ fun _ => within_pure _) _)
      fun _ => within_pure _
    intro b' hb'
    exact ⟨hmake b' f hb'.1 (hb'.2 ▸ hf), hb'.2⟩
  have hstart : ∀ b', b' = b → I b' ∧ ∀ p ∈ b.bench.params, P b'.bench.model p := by
    rintro _ rfl
    exact ⟨hb, hwait _ hb⟩
  have hlisted := ((meets_keeping_iff.mpr hlists).pre hstart).stop fun _ _ h => h.1
  refine hlisted.bind fun _ => meets_get fun b₂ hb₂ => ?_
  have hlinked := (meets_keeping_iff.mpr (hlinks b₂.future)).stop fun _ _ h => h.1
  refine (hlinked.post fun _ _ h => h.1).pre ?_
  rintro _ rfl
  exact ⟨hb₂.1, rfl⟩

/-- The parameters that a launch file has set are listed quietly. Those that were noted are linked
on the sides that they were noted for. -/
theorem along_settleParams [Steady R] (hfuture : ∀ f ∈ b.future, ∀ m l, R m (m.attach l f.side)) :
    Along R b (settleParams.exec b).2 := by
  refine keeping_settleParams_of (I := Along R b) (P := fun _ _ => True) (fun _ _ _ _ => trivial)
    (fun b' p hb' _ => ⟨?_, fun _ h => h⟩) (fun b' f hb' hf => ?_) b (refl_of (Along R) b)
  · have hlisted : R b'.bench.model _ := Steady.listParam b'.bench.model p
    exact { hb' with model := trans_of R hb'.model hlisted }
  · have hmade : Within (Workbench.Along R) f.make :=
      (f.bounded_make (hfuture f (hb'.future ▸ hf))).within
    exact { hb' with model := trans_of R hb'.model (hmade b'.bench) }

end Builder

/-! ## Small launch files -/

/-- A launch file in the folder of its package. -/
def launchFile (package name : String) (tree : Option LaunchTree) : SourceFile where
  name := name
  directory := ""
  package := ⟨0⟩
  packageName := package
  fullName := name
  folder := "/" ++ package
  path := "/" ++ package ++ "/" ++ name
  language := "launch"
  tree := tree

/-- A tag that starts a program under a name. -/
def startTag (package type name : String) : LaunchTree :=
  .tag .node "" ⟨[("pkg", .text package), ("type", .text type), ("name", .text name)]⟩ []

end RosAudit
