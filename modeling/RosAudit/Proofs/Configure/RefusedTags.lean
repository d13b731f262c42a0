import RosAudit.Proofs.Configure.Akin

/-!
# Tags that are refused

A tag that ends in a substitution or configuration fault is refused : its message is noted, and the
work goes on with the next tag. This file says what the tag may have done before the fault.

`Harmless S` : a job that moves its state only along `S` where it is refused. Once a tag has changed
its configuration it is not refused any more, because the faults from there on are not noted
(`Fault.Stops`), so it is enough to look at the steps before (`harmless_carryOut`).
-/

namespace RosAudit

open Job LaunchScope

/-- The message of a fault that is noted. -/
def Fault.note : Fault → Option String
  | .substitution c => some c.text
  | .configuration c => some c.text
  | _ => none

theorem Fault.Stops.not_isNoted {f : Fault} (h : f.Stops) : ¬ f.isNoted = true :=
  ne_true_of_eq_false h

theorem Fault.isNoted_of_note {f : Fault} {message} (h : f.note = some message) :
    f.isNoted = true := by
  cases f <;> first | rfl | cases h

/-! ## Models -/

namespace Model

/-- All that a configuration is made of is the same. -/
structure SamePlan (m m' : Model) : Prop where
  configurations : m'.configurations = m.configurations
  instances : m'.instances = m.instances
  topics : m'.topics = m.topics
  services : m'.services = m.services
  params : m'.params = m.params
  links : m'.links = m.links

instance : IsPreorder Model SamePlan where
  refl _ := ⟨rfl, rfl, rfl, rfl, rfl, rfl⟩
  trans _ _ _ h h' := ⟨h'.configurations.trans h.configurations, h'.instances.trans h.instances,
    h'.topics.trans h.topics, h'.services.trans h.services, h'.params.trans h.params,
    h'.links.trans h.links⟩

theorem samePlan_addManifest (m x p) : SamePlan m (m.addManifest x p).1 := by
  refine trans_of SamePlan ?_ (along_foldl (fun m' e => ?_) _ _)
  all_goals exact ⟨rfl, rfl, rfl, rfl, rfl, rfl⟩

end Model

/-! ## Jobs that are refused -/

/-- Where the job is refused with a fault that is noted, it has moved its state only along `S`. -/
def Job.Harmless {σ α : Type} (S : σ → σ → Prop) (j : Job σ α) : Prop :=
  ∀ s f s', j.exec s = (.error f, s') → f.isNoted = true → S s s'

section Harmless

variable {σ α β : Type} {S : σ → σ → Prop} {j : Job σ α} {f : α → Job σ β}

theorem harmless_of_within (h : Within S j) : Harmless S j :=
  fun _ _ _ hj _ => h.of_exec hj

theorem harmless_of_throws (h : Throws Fault.Stops j) : Harmless S j := by
  intro s f s' hj hf
  exact absurd hf (h s f s' hj).not_isNoted

theorem Job.Harmless.bind [IsPreorder σ S] (hj : Within S j) (hf : ∀ a, Harmless S (f a)) :
    Harmless S (j >>= f) := by
  intro s e s' h he
  rw [exec_bind] at h
  have hfirst := hj s
  rcases hjs : j.exec s with ⟨e' | a, s₁⟩ <;> rw [hjs] at h hfirst
  · cases h
    exact hfirst
  · exact trans_of S hfirst (hf a s₁ e s' h he)

theorem Job.Harmless.andThen (hj : Harmless S j) (hf : ∀ a, Throws Fault.Stops (f a)) :
    Harmless S (j >>= f) := by
  intro s e s' h he
  rw [exec_bind] at h
  rcases hjs : j.exec s with ⟨e' | a, s₁⟩ <;> rw [hjs] at h
  · cases h
    exact hj s e s' hjs he
  · exact absurd he (hf a s₁ e s' h).not_isNoted

end Harmless

theorem LaunchScope.harmless_setDocument (s : LaunchScope) (name ns document guard) :
    Harmless Eq (s.setDocument name ns document guard) := by
  intro w f w' hw hf
  rcases s.exec_setDocument_or name ns document guard w with ⟨f, h⟩ | ⟨name', v, h⟩ <;> rw [h] at hw
  · cases hw
    rfl
  · exact harmless_of_throws
      (s.bounded_setLeaves (T := Workbench.Along Model.Quiet) name' v _ _).throws w f w' hw hf

theorem LaunchScope.meets_setParam (s : LaunchScope) (name type text guard w) :
    Meets (· = w) (fun r w' => ∀ u, r = .error u → w = w') (fun _ _ => True)
      (s.setParam name type text guard) := by
  unfold setParam
  extract_lets converted guards
  rcases converted with _ | ⟨value, _⟩
  · rintro _ rfl u -
    rfl
  · refine Within.meets (R := fun _ _ => True) (V := fun r => ∃ s', r = .ok s') (fun _ =>
      trivial) ?_ (fun _ _ r _ _ hr u hu => ?_) fun _ _ _ _ _ => trivial
    · refine of_ite (Returns.after fun _ => returns_pure ⟨_, rfl⟩) ?_
      refine Returns.after fun _ => Returns.after fun _ => Returns.after fun _ => ?_
      exact Returns.after fun _ => Returns.after fun _ => returns_pure ⟨_, rfl⟩
    · obtain ⟨s', rfl⟩ := hr
      cases hu

namespace Builder

variable {S : Builder → Builder → Prop}

theorem harmless_onBench [IsPreorder Builder S] {α : Type} {j : Job Workbench α}
    (hj : Harmless Eq j) : Harmless S (onBench j) := by
  intro b f b' h hf
  rcases hb : j.exec b.bench with ⟨r, w⟩
  rw [exec_onBench, hb] at h
  cases h
  obtain rfl : b.bench = w := hj _ _ _ hb hf
  exact refl_of S b

section Asking

variable [Asking S] (k : TagKind) (text : String) (attrs : Table String Subst) (s : LaunchScope)

theorem harmless_paramTag : Harmless S (paramTag attrs s) := by
  refine Harmless.bind (within_textField _ _ _) fun name => ?_
  refine Harmless.bind (within_textField _ _ _) fun type => ?_
  refine Harmless.bind (within_of_blind fun _ => blind_paramText attrs) fun text => ?_
  intro b f b' h hf
  rw [exec_bind, exec_onBench] at h
  rcases hset : (s.setParam (name.getD "") type text none).exec b.bench with ⟨e | u | s', w⟩
  · rw [hset] at h
    cases h
    have hstops := (s.bounded_setParam (T := Workbench.Along Model.Quiet) _ _ _ _).throws _ _ _ hset
    exact absurd hf hstops.not_isNoted
  · obtain rfl := (s.meets_setParam _ _ _ _ b.bench).of_ok rfl hset u rfl
    rw [hset] at h
    dsimp only at h
    split at h <;> cases h <;> exact refl_of S b
  · rw [hset] at h
    cases h

theorem harmless_rosparamTag : Harmless S (rosparamTag text attrs s) := by
  rw [rosparamTag_eq]
  refine Harmless.bind (within_readOrder attrs text) fun o => ?_
  cases o with
  | load name ns document => exact harmless_onBench (s.harmless_setDocument name ns document none)
  | delete name ns =>
    refine Harmless.andThen (harmless_onBench ?_) fun _ => throws_pure s
    exact harmless_of_within (s.within_deleteParam name ns none)
  | other => exact harmless_of_within (within_pure s)

theorem harmless_leafTag : Harmless S (leafTag k text attrs s) := by
  unfold leafTag
  split
  · refine Harmless.bind (within_renamingOf attrs s) fun x => harmless_of_throws (throws_onBench ?_)
    unfold LaunchScope.rename
    split
    · exact (throws_modify _).bind fun _ => throws_pure s
    · exact throws_pure _
  · exact harmless_paramTag attrs s
  · exact harmless_rosparamTag text attrs s
  · refine Harmless.bind within_get fun b =>
      Harmless.bind (within_of_blind fun _ => blind_argTag attrs _) fun args => ?_
    exact harmless_of_throws ((throws_modify _).bind fun _ => throws_pure s)
  · exact harmless_of_within (within_pure s)

theorem harmless_openInclusion (children s) : Harmless S (openInclusion attrs children s) := by
  refine Harmless.bind (within_textField _ _ _) fun path => ?_
  refine Harmless.bind (within_textField _ _ _) fun ns => ?_
  refine Harmless.bind (within_resolveField _ _ _) fun passAll =>
    Harmless.bind within_get fun b => ?_
  dsimp only
  split
  · exact harmless_of_within (within_throw _)
  · split
    · exact harmless_of_within (within_throw _)
    · refine Harmless.bind (within_ofResult _) fun scope => harmless_of_throws ?_
      exact (throws_passedArgs _ _).bind fun arguments => throws_pure _

theorem harmless_startNode (hfind : ∀ pkg exe args, Within S (findProgram pkg exe args)) (attrs s) :
    Harmless S (startNode attrs s) := by
  refine Harmless.bind (within_textField _ _ _) fun pkg => ?_
  refine Harmless.bind (within_textField _ _ _) fun exe => ?_
  refine Harmless.bind (within_textField _ _ _) fun args => ?_
  split
  · refine Harmless.bind (hfind _ _ _) fun program => ?_
    refine Harmless.bind (within_textField _ _ _) fun name => ?_
    refine Harmless.bind (within_textField _ _ _) fun ns => harmless_of_throws ?_
    refine (throws_node program).bind fun node => ?_
    refine (throws_onBench (s.throws_makeNode _ _ _ _ _)).bind fun inner => ?_
    exact (throws_ofResult s.fails_handOver).bind fun _ => throws_pure _
  · exact harmless_of_within (within_throw _)

theorem harmless_carryOut {go} (hgo : ∀ x, Throws Fault.Stops (go x)) {work}
    (hwork : ∀ s, Throws Fault.Stops (work s)) {k} (attrs s)
    (hstart : k = .node → Harmless S (startNode attrs s)) (text children) :
    Harmless S (carryOut go work k text attrs children s) := by
  have hleaf : ∀ k, Harmless S
      (do if !children.isEmpty then throw .broken
          leafTag k text attrs s : Job Builder LaunchScope) := fun k =>
    of_ite (harmless_of_within (within_throw _)) (harmless_leafTag k text attrs s)
  refine Harmless.bind (within_counts _) fun c => ?_
  refine of_ite (harmless_of_within (within_pure s)) ?_
  cases k with
  | node =>
    refine (hstart rfl).andThen fun x => (hwork x.2).bind fun inner => ?_
    exact (throws_linkNode inner x.1).bind fun _ => throws_pure s
  | group =>
    refine Harmless.bind (within_openGroup attrs s) fun inner => harmless_of_throws ?_
    exact (hwork inner).bind fun _ => throws_pure s
  | inclusion =>
    exact (harmless_openInclusion attrs children s).andThen fun x =>
      (hgo x).bind fun _ => throws_pure s
  | test => exact harmless_of_within (within_pure s)
  | launch => exact harmless_of_within (within_throw _)
  | _ => exact hleaf _

end Asking

/-! ## What is left of a tag that is refused -/

def Consulted (b b' : Builder) : Prop :=
  ∃ context, b.context.Matches context ∧ b' = { b with context := context }

instance : Asking Consulted where
  refl b := ⟨b.context, refl_of SubstContext.Matches _, rfl⟩
  trans := by
    rintro b _ _ ⟨c, hc, rfl⟩ ⟨c', hc', rfl⟩
    exact ⟨c', trans_of SubstContext.Matches hc hc', rfl⟩
  context _ context h := ⟨context, h, rfl⟩

/-- The search may have been asked as well, and gives the same answers as before. -/
def Asked (b b' : Builder) : Prop :=
  ∃ context search, b.context.Matches context ∧
    PackageSearch.SameAnswers b.files b.search search ∧
    b' = { b with context := context, search := search }

theorem Consulted.asked {b b'} (h : Consulted b b') : Asked b b' := by
  obtain ⟨c, hc, rfl⟩ := h
  exact ⟨c, b.search, hc, fun _ => rfl, rfl⟩

theorem Consulted.trans_asked {b b' b''} (h : Consulted b b') (h' : Asked b' b'') :
    Asked b b'' := by
  obtain ⟨c, hc, rfl⟩ := h
  obtain ⟨c', s, hc', hs, rfl⟩ := h'
  exact ⟨c', s, trans_of SubstContext.Matches hc hc', hs, rfl⟩

/-- The configuration, its messages and all that waits for it are the same. -/
structure Unmoved (b b' : Builder) : Prop where
  configuration : b'.configuration = b.configuration
  future : b'.future = b.future
  errors : b'.errors = b.errors
  waiting : b'.bench.params = b.bench.params
  model : Model.SamePlan b.bench.model b'.bench.model

instance : Seeking Unmoved where
  refl b := ⟨rfl, rfl, rfl, rfl, refl_of Model.SamePlan b.bench.model⟩
  trans _ _ _ h h' := ⟨h'.configuration.trans h.configuration, h'.future.trans h.future,
    h'.errors.trans h.errors, h'.waiting.trans h.waiting, trans_of Model.SamePlan h.model h'.model⟩
  context b _ _ := ⟨rfl, rfl, rfl, rfl, refl_of Model.SamePlan b.bench.model⟩
  search b _ := ⟨rfl, rfl, rfl, rfl, refl_of Model.SamePlan b.bench.model⟩
  foreign b _ := ⟨rfl, rfl, rfl, rfl, refl_of Model.SamePlan b.bench.model⟩
  addManifest b x := ⟨rfl, rfl, rfl, rfl, b.bench.model.samePlan_addManifest x none⟩
  addNode _ _ _ := ⟨rfl, rfl, rfl, rfl, rfl, rfl, rfl, rfl, rfl, rfl⟩

section Node

variable {α : Type} {j : Job Builder α} {b : Builder}

theorem meets_findPackage (hwhole : b.search.IsWhole b.files) (name : String) :
    Meets (· = b) (fun _ b' => b'.foreign = b.foreign → b' = b) (fun _ => Asked b)
      (findPackage name) := by
  have hasked := PackageSearch.sameAnswers_locate hwhole name
  refine meets_get fun b₁ hb₁ => ?_
  subst hb₁
  dsimp only
  split
  · exact meets_pure fun _ hb _ => hb
  · split
    · rintro _ rfl
      exact fun h => absurd (List.append_right_eq_self.mp h) (List.cons_ne_nil _ _)
    all_goals
      rintro _ rfl
      exact ⟨_, _, refl_of SubstContext.Matches _, hasked, rfl⟩

theorem meets_findProgram (hwhole : b.search.IsWhole b.files) (pkg exe args) :
    Meets (· = b) (fun _ b' => b'.foreign = b.foreign → b' = b) (fun _ => Asked b)
      (findProgram pkg exe args) := by
  have hrefl : ∀ b', b' = b → Asked b b' := by
    rintro _ rfl
    exact Consulted.asked (refl_of Consulted _)
  refine (meets_ofResult (Q := fun _ => (· = b)) (fun _ _ hb _ => hb) fun b' _ => hrefl b').bind
    fun target => meets_get fun b₁ hb₁ => ?_
  subst hb₁
  extract_lets known next
  clear_value known
  have hnext : ∀ p, Meets (fun b' => b'.foreign = b₁.foreign → b' = b₁)
      (fun _ b' => b'.foreign = b₁.foreign → b' = b₁) (fun _ => Asked b₁) (next p) := by
    intro p
    cases known <;> exact meets_pure fun _ hb => hb
  split
  · exact (meets_pure fun _ hb _ => hb).bind hnext
  · have hfind := (meets_findPackage hwhole target.1).bind hnext
    exact of_ite (Meets.bind (meets_throw hrefl) fun _ => hfind) hfind

/-- Nothing is left, unless the fault is not noted or a new package was found. -/
def Clear (b : Builder) (f : Fault) (b' : Builder) : Prop :=
  f.isNoted = true → b'.foreign = b.foreign → Asked b b'

theorem meets_clear_of_throws {P} (h : Throws Fault.Stops j) :
    Meets P (fun _ _ => True) (Clear b) j := by
  have hany : Meets P (fun _ _ => True) (fun _ _ => True) j := fun b' _ => by split <;> trivial
  exact (hany.throwing h).stop fun f b' hf hnoted => absurd hnoted hf.2.not_isNoted

theorem meets_clear_of_within (h : Within Consulted j) :
    Meets (Consulted b) (fun _ => Consulted b) (Clear b) j :=
  h.meets (returns_true _) (fun _ _ _ hb h' _ => trans_of Consulted hb h')
    fun _ _ _ hb h' _ _ => (trans_of Consulted hb h').asked

theorem meets_startNode_refused (hwhole : b.search.IsWhole b.files) (attrs s) :
    Meets (Consulted b) (fun _ _ => True) (Clear b) (startNode attrs s) := by
  refine (meets_clear_of_within (within_textField _ _ _)).bind fun pkg => ?_
  refine (meets_clear_of_within (within_textField _ _ _)).bind fun exe => ?_
  refine (meets_clear_of_within (within_textField _ _ _)).bind fun args => ?_
  split
  case h_2 => exact meets_throw fun _ hb _ _ => hb.asked
  rename_i pkg exe _ _
  -- from here on, a builder with the same packages has only been asked
  let Held (b' : Builder) : Prop := b'.foreign = b.foreign → Consulted b b'
  have hfield : ∀ field, Meets Held (fun _ => Held) (Clear b) (textField .node attrs field) := by
    refine fun field => (within_textField (S := Consulted) _ _ _).meets (returns_true _) ?_ ?_
    · rintro b' _ _ hb' ⟨c, hc, rfl⟩ - hforeign
      exact trans_of Consulted (hb' hforeign) ⟨c, hc, rfl⟩
    · rintro b' _ _ hb' ⟨c, hc, rfl⟩ - hforeign
      exact (trans_of Consulted (hb' hforeign) ⟨c, hc, rfl⟩).asked
  have hfind : Meets (Consulted b) (fun _ => Held) (Clear b) (findProgram pkg exe args) := by
    rintro b₁ ⟨c, hc, rfl⟩
    have hb₁ : Consulted b { b with context := c } := ⟨c, hc, rfl⟩
    have hprogram := meets_findProgram (b := { b with context := c }) hwhole pkg exe args
    refine ((hprogram.post ?_).stop ?_) _ rfl
    · intro _ b' hb' hforeign
      obtain rfl := hb' hforeign
      exact hb₁
    · exact fun f b' hb' _ _ => hb₁.trans_asked hb'
  refine hfind.bind fun program => (hfield _).bind fun name => (hfield _).bind fun ns => ?_
  refine meets_clear_of_throws ((throws_node program).bind fun node => ?_)
  refine (throws_onBench (s.throws_makeNode _ _ _ _ _)).bind fun inner => ?_
  exact (throws_ofResult s.fails_handOver).bind fun _ => throws_pure _

end Node

/-! ## Refused tags -/

theorem exec_noting_of_note {α : Type} {a} {j : Job Builder α} {b} {b' : Builder} {f : Fault}
    {message} (h : j.exec b = (.error f, b')) (hf : f.note = some message) :
    (noting a j).exec b = (.ok a, { b' with errors := b'.errors ++ [message] }) := by
  unfold noting
  rw [exec_bind, exec_attempt, h]
  cases f with
  | substitution c | configuration c =>
    cases hf
    rfl
  | _ => cases hf

/-- The tag is refused in a scope with a message, and `b'` is left of the builder `b`. A tag that
could not be read is refused from the start. -/
inductive Refused (n : Nat) (message : String) (s : LaunchScope) (b : Builder) :
    LaunchTree → Builder → Prop
  | unread : Refused n message s b (.error message) b
  | tag {k : TagKind} {text : String} {attrs : Table String Subst} {children : List LaunchTree}
      {f : Fault} {b' : Builder}
      (h : (carryOut (includeFile n) (analyse (includeFile n) children) k text attrs children
        s).exec b = (.error f, b'))
      (hf : f.note = some message) : Refused n message s b (.tag k text attrs children) b'

/-- No new package was found for a node tag, and the packages can be walked through to the end.
Other tags do not look for packages. -/
def Traceless (b b' : Builder) : LaunchTree → Prop
  | .tag .node _ _ _ => b.search.IsWhole b.files ∧ b'.foreign = b.foreign
  | _ => True

section Refused

variable {n : Nat} {message : String} {s : LaunchScope} {b b' : Builder} {t : LaunchTree}

theorem Refused.exec (h : Refused n message s b t b') : (analyseTag (includeFile n) t s).exec b =
    (.ok s, { b' with errors := b'.errors ++ [message] }) := by
  cases h with
  | unread =>
    rfl
  | tag h hf =>
    exact exec_noting_of_note h hf

theorem Refused.unmoved (h : Refused n message s b t b') : Unmoved b b' := by
  cases h with
  | unread => exact refl_of Unmoved b
  | @tag k text attrs children f b' h hf =>
    refine harmless_carryOut (throws_includeFile n) (throws_analyse _ children) attrs s
      (fun _ => ?_) text children b f b' h (Fault.isNoted_of_note hf)
    exact harmless_startNode within_findProgram attrs s

theorem Refused.asked (h : Refused n message s b t b') (hclean : Traceless b b' t) :
    Asked b b' := by
  cases h with
  | unread => exact (refl_of Consulted b).asked
  | @tag k text attrs children f b' h hf =>
    have hnoted := Fault.isNoted_of_note hf
    by_cases hk : k = .node
    · subst hk
      have hcarry : Meets (Consulted b) (fun _ _ => True) (Clear b) (carryOut (includeFile n)
          (analyse (includeFile n) children) .node text attrs children s) := by
        refine (meets_clear_of_within (within_counts _)).bind fun c => ?_
        refine of_ite (meets_pure fun _ _ => trivial) ?_
        refine (meets_startNode_refused hclean.1 attrs s).bind fun x => meets_clear_of_throws ?_
        refine Throws.bind (throws_analyse _ children x.2) fun inner => ?_
        exact (throws_linkNode inner x.1).bind fun _ => throws_pure s
      exact hcarry.of_error (refl_of Consulted b) h hnoted hclean.2
    · have hcarry := harmless_carryOut (S := Consulted) (throws_includeFile n)
        (throws_analyse (includeFile n) children) attrs s (fun h => absurd h hk) text children
      exact (hcarry b f b' h hnoted).asked

end Refused

end Builder

end RosAudit
