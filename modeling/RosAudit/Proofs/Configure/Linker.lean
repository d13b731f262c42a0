import RosAudit.Proofs.Configure.Frame.Links

/-!
# Linking a node, step by step

Topics and services are linked by the same steps. A resource is known under its name, may be meant
by a name that is partly unknown, is named by a hint, or is made. Links are made to it, and attached
one after the other. What holds on the way is stated as `On hints known ls m` : the resources
`hints` were made for hints, links may go to `known`, and the links `ls` are made and not attached
yet. The work may stop at a fault anywhere in between, in a state with `Stop`.

`Linker` lists the steps that have to keep such a statement. From these it follows for the links of
one use, which lead through hints (`Linker.meets_linksFor`), and for the resources that a section of
hints names (`Linker.meets_resources`). `TopicLinker` and `ServiceLinker` add what happens to a
topic or a service when a link is attached to it.
-/

namespace RosAudit

open Job Model LaunchScope List

theorem Model.mem_of_lookup {k} {m : Model} {known : Collection k} {name r}
    (h : m.lookup known name = some r) : r ∈ known.all :=
  mem_reverse.mp (List.mem_of_find?_eq_some h)

/-- The resource has a name that the pattern allows, and the type that is asked for. -/
def ResourceRules.Fits {k : EntityKind} (rules : ResourceRules k) (m : Model) (pattern : String)
    (type : Option String) (t : Ref k) : Prop :=
  ∃ p, Pattern.parse pattern = .ok p ∧ p.matchesStart (rules.nameOf m t).full = true ∧
    (rules.typed = true → rules.typeOf m t = type)

/-- Nothing that the configuration `c` lists was found for the name `n` and a type, with the help of
the hints `hs`. Only where there are hints is a partly unknown name more than a name. -/
def ResourceRules.Unmet {k : EntityKind} (rules : ResourceRules k) (m : Model)
    (c : Ref .configuration) (hs : List (Ref k)) (n : Name) (type : Option String) : Prop :=
  (n.isUnresolved = true ∧ hs ≠ [] ∧ ∃ pattern, n.pattern = .ok pattern ∧
    ∀ t ∈ (rules.collection (m.configuration c)).all, ¬ rules.Fits m pattern type t) ∨
  m.lookup (rules.collection (m.configuration c)) n.full = none

theorem meets_candidates {k} (rules : ResourceRules k) (pattern type rs w) :
    Meets (· = w) (fun rs' w' => w' = w ∧ (∀ t ∈ rs', t ∈ rs) ∧
      ∀ t ∈ rs, rules.Fits w.model pattern type t → t ∈ rs') (fun _ => (· = w))
      (candidates rules pattern type rs) := by
  unfold candidates
  split
  · rename_i hempty
    obtain rfl := List.isEmpty_iff.mp hempty
    exact meets_pure fun w' hw => ⟨hw, forall_mem_nil _, fun t ht _ => ht⟩
  · refine (meets_ofResult (Q := fun p w' => w' = w ∧ Pattern.parse pattern = .ok p)
      (fun _ _ hw hp => ⟨hw, hp⟩) fun _ _ hw => hw).bind fun p => meets_get fun w' hw => ?_
    obtain ⟨rfl, hp⟩ := hw
    refine meets_pure fun w'' hw => ⟨hw, fun t ht => (mem_filter.mp ht).1, fun t ht hfits => ?_⟩
    obtain ⟨p', hp', hmatch, htype⟩ := hfits
    obtain rfl : p' = p := Except.ok.inj (hp'.symm.trans hp)
    refine mem_filter.mpr ⟨ht, ?_⟩
    rw [hmatch, Bool.true_and, Bool.or_eq_true, beq_iff_eq]
    cases htyped : rules.typed with
    | false => exact .inl rfl
    | true => exact .inr (htype htyped)

theorem LaunchScope.returns_requireNode (s : LaunchScope) :
    Returns (fun r => s.node = some r) s.requireNode := by
  unfold requireNode
  split
  · exact returns_pure ‹_›
  · exact returns_throw _

theorem LaunchScope.returns_usage (s : LaunchScope) (name ns type queue guards location) :
    Returns (fun u => s.node = some u.node) (s.usage name ns type queue guards location) := by
  refine returns_bind s.returns_requireNode fun node hnode => ?_
  refine Returns.after fun w => Returns.after fun called => Returns.after fun space => ?_
  exact Returns.after fun target => returns_pure hnode

theorem sublist_effective (repeats ls) : (effective repeats ls).Sublist ls := by
  unfold effective
  split
  · exact List.Sublist.refl ls
  · exact take_sublist 1 ls

abbrev MeetsModel {α : Type} (P : Model → Prop) (Q : α → Model → Prop) (Stop : Model → Prop)
    (j : Job Workbench α) : Prop :=
  Meets (fun w => P w.model) (fun a w => Q a w.model) (fun _ w => Stop w.model) j

/-- The steps of linking the node `r` keep `On`. Changes along `R` do not matter. -/
structure Linker {k : EntityKind} (rules : ResourceRules k) (R : Model → Model → Prop)
    (c : Ref .configuration) (r : Ref .inst)
    (On : List (Ref k) → List (Ref k) → List (Ref .link) → Model → Prop) (Stop : Model → Prop) :
    Prop where
  stop : ∀ {hints known ls m}, On hints known ls m → Stop m
  guards : ∀ m, R m (m.addGuards []).1
  along : ∀ {hints known ls m m'}, On hints known ls m → R m m' → On hints known ls m'
  configuration : ∀ {hints known ls m}, On hints known ls m → (m.inst r).configuration = c
  consult : ∀ {hints m}, On hints [] [] m → On hints (rules.collection (m.configuration c)).all [] m
  forget : ∀ {hints known known' ls m}, On hints known ls m → known' ⊆ known → On hints known' ls m
  drop : ∀ {hints known ls ls' m}, On hints known ls m → ls'.Sublist ls → On hints known ls' m
  addLink : ∀ {hints known ls m t x}, On hints known ls m → t ∈ known → x.node = r →
    x.target = t.entity → On hints known (ls ++ [⟨m.links.size⟩]) (m.addLink x).1
  enter : ∀ {hints hs known m₀ m} n type, (∀ t ∈ hs, t ∈ hints) → On hints known [] m₀ →
    rules.Unmet m₀ c hs n type → R m₀ m → On hints ((rules.create m c n type).2 :: known) []
      (rules.list (rules.create m c n type).1 (rules.create m c n type).2).1
  remap : ∀ m hint n, R m (rules.remap m hint n).1
  adopt : ∀ {hints known ls m hint n}, On hints known ls m → hint ∈ hints →
    Name.make (rules.nameOf m hint).full "/" "" (m.inst r).remaps = .ok n →
    (rules.collection (m.configuration c)).contains n.full = false →
    On hints ((if rules.linksCopy then (rules.remap m hint n).2 else hint) :: known) ls
      (rules.list (rules.remap m hint n).1 (rules.remap m hint n).2).1

namespace Linker

variable {k : EntityKind} {rules : ResourceRules k} {R : Model → Model → Prop}
  {c : Ref .configuration} {r : Ref .inst}
  {On : List (Ref k) → List (Ref k) → List (Ref .link) → Model → Prop} {Stop : Model → Prop}
  (law : Linker rules R c r On Stop)

include law

variable {hints known : List (Ref k)} {ls : List (Ref .link)}

theorem meets_first {α β : Type} {V : α → Prop} {Q : β → Workbench → Prop} {j : Job Workbench α}
    {f : α → Job Workbench β} (hj : Within (Workbench.Along R) j) (hv : Returns V j)
    (hf : ∀ a, V a → Meets (fun w => On hints known ls w.model) Q (fun _ w => Stop w.model) (f a)) :
    Meets (fun w => On hints known ls w.model) Q (fun _ w => Stop w.model) (j >>= f) := by
  have hfirst : Meets (fun w => On hints known ls w.model)
      (fun a w => V a ∧ On hints known ls w.model) (fun _ w => Stop w.model) j :=
    hj.meets hv (fun _ _ _ h hr ha => ⟨ha, law.along h hr⟩)
      fun _ _ _ h hr => law.stop (law.along h hr)
  exact hfirst.bind fun a w hw => hf a hw.1 w hw.2

section Links

variable [IsPreorder Model R]

theorem meets_linkTo {u : Usage} {t : Ref k} (hu : u.node = r) (ht : t ∈ known) :
    MeetsModel (On hints known ls) (fun l => On hints known (ls ++ [l])) Stop
      (linkTo rules u t) := by
  unfold linkTo
  extract_lets next
  have hnext :
      ∀ g, MeetsModel (On hints known ls) (fun l => On hints known (ls ++ [l])) Stop (next g) :=
    fun g w hw => law.addLink hw ht hu rfl
  split
  · exact (meets_pure fun _ hw => hw).bind hnext
  · exact law.meets_first (within_change fun m => law.guards m) (returns_true _) fun g _ => hnext g

theorem meets_linkHints {F : Model → Prop} (hF : ∀ {m m'}, F m → R m m' → F m') {u : Usage}
    (hu : u.node = r) : ∀ hs {known ls},
    (∀ t ∈ hs, t ∈ hints) →
    MeetsModel (fun m => On hints known ls m ∧ (ls = [] → F m))
      (fun new m => On hints known (ls ++ new) m ∧ (ls ++ new = [] → F m)) Stop
      (linkHints rules u hs)
  | [], known, ls, _ => meets_pure fun w hw => by simpa using hw
  | hint :: hs, known, ls, hhs => by
    have hrest : ∀ t ∈ hs, t ∈ hints := fun t ht => hhs t (mem_cons_of_mem hint ht)
    have hlink : ∀ t, MeetsModel (On hints (t :: known) ls)
        (fun new m => On hints known (ls ++ new) m ∧ (ls ++ new = [] → F m)) Stop (do
          let l ← linkTo rules u t
          let new ← linkHints rules u hs
          pure (l :: new)) := by
      refine fun t => (law.meets_linkTo hu mem_cons_self).bind fun l => ?_
      have hne : ∀ new, ls ++ l :: new ≠ [] := fun new => by simp
      refine Meets.pre ?_ fun w hw => (⟨hw, fun h => absurd h (hne [])⟩ : _ ∧ (_ → F w.model))
      refine (meets_linkHints hF hu hs hrest).bind fun new => meets_pure fun w hw => ?_
      simp only [append_assoc] at hw
      exact ⟨law.forget hw.1 (subset_cons_self t known), fun h => absurd h (hne new)⟩
    refine meets_get fun w hw => ?_
    extract_lets m x
    have hconfiguration : x.configuration = c := by
      have := law.configuration hw.1
      rwa [← hu] at this
    have hremaps : x.remaps = (m.inst r).remaps := by rw [← hu]
    clear_value x
    rw [hconfiguration]
    refine (meets_ofResult (Q := fun name w' => w' = w ∧ Name.make _ "/" "" x.remaps = .ok name)
      (fun _ _ h hname => ⟨h, hname⟩) fun w' _ h => h ▸ law.stop hw.1).bind fun name => ?_
    refine meets_change fun w' hw' => ?_
    obtain ⟨rfl, hname⟩ := hw'
    split
    · refine (meets_linkHints hF hu hs hrest).pre fun _ h => ?_
      have hcopied := law.remap w'.model hint name
      exact h ▸ ⟨law.along hw.1 hcopied, fun hls => hF (hw.2 hls) hcopied⟩
    · rename_i hnew
      have hadopted := law.adopt hw.1 (hhs hint mem_cons_self) (hremaps ▸ hname)
        (Bool.not_eq_true _ ▸ hnew)
      refine meets_change fun w hw => ?_
      refine (hlink _).pre fun w' hw' => ?_
      rwa [hw', hw]

theorem meets_linksFor {u : Usage} (hu : u.node = r) {hs : List (Ref k)}
    (hhs : ∀ t ∈ hs, t ∈ hints) :
    MeetsModel (On hints [] []) (On hints []) Stop (linksFor rules u hs) := by
  refine meets_get fun w₀ hw₀ => ?_
  extract_lets m configuration known next
  have hconfiguration : configuration = c := by
    have := law.configuration hw₀
    rwa [← hu] at this
  have hknown : known = rules.collection (w₀.model.configuration c) := by
    rw [← hconfiguration]
  clear_value configuration
  subst hconfiguration
  have hw₀ : On hints known.all [] w₀.model := hknown ▸ law.consult hw₀
  clear_value known
  -- as long as there is no link, nothing was found
  let F : Model → Prop := fun m => rules.Unmet w₀.model configuration hs u.target u.type ∧
    R w₀.model m
  have hF : ∀ {m m'}, F m → R m m' → F m' := fun h hm => ⟨h.1, trans_of R h.2 hm⟩
  have hfound : ∀ t ∈ known.all, Meets (· = w₀) (fun l w => On hints known.all [l] w.model)
      (fun _ w => Stop w.model) (linkTo rules u t) := by
    intro t ht
    have hlink : MeetsModel (On hints known.all []) (fun l => On hints known.all ([] ++ [l])) Stop
        (linkTo rules u t) := law.meets_linkTo hu ht
    refine hlink.pre ?_
    rintro _ rfl
    exact hw₀
  have hlast : ∀ t, MeetsModel (On hints (t :: known.all) []) (On hints []) Stop
      (do pure [← linkTo rules u t]) := fun t =>
    (law.meets_linkTo hu mem_cons_self).bind fun _ =>
      meets_pure fun _ hw => law.forget hw (nil_subset _)
  have hnext : ∀ links, MeetsModel (fun m => On hints known.all links m ∧ (links = [] → F m))
      (On hints []) Stop (next links) := by
    intro links
    by_cases hempty : links.isEmpty
    · obtain rfl := List.isEmpty_iff.mp hempty
      refine meets_change fun w hw => meets_change fun w' hw' => ?_
      refine (hlast _).pre fun _ h => ?_
      obtain ⟨hunmet, halong⟩ := hw.2 rfl
      rw [h, hw']
      exact law.enter u.target u.type hhs hw₀ hunmet halong
    · simp only [next, hempty]
      exact meets_pure fun w hw => law.forget hw.1 (nil_subset _)
  split
  · rename_i hpartly
    rw [Bool.and_eq_true, Bool.not_eq_true', isEmpty_eq_false_iff] at hpartly
    refine (meets_ofResult (Q := fun pattern w => w = w₀ ∧ u.target.pattern = .ok pattern)
      (fun _ _ hw hpattern => ⟨hw, hpattern⟩) fun _ _ hw => hw ▸ law.stop hw₀).bind
        fun pattern => ?_
    rintro w ⟨rfl, hpattern⟩
    refine ((meets_candidates rules pattern u.type known.all w).stop
      fun _ _ hw => hw ▸ law.stop hw₀).bind (fun here => ?_) w rfl
    rintro w ⟨rfl, hhere, hfits⟩
    have hlinks : Meets (· = w)
        (fun ls w' => On hints known.all ls w'.model ∧ (ls = [] → F w'.model))
        (fun _ w' => Stop w'.model) (here.mapM (linkTo rules u)) := by
      cases here with
      | nil =>
        rintro _ rfl
        refine ⟨hw₀, fun _ => ⟨.inl ?_, refl_of R _⟩⟩
        refine ⟨hpartly.1, hpartly.2, pattern, hpattern, fun t ht hfit => ?_⟩
        exact not_mem_nil (hfits t (hknown ▸ ht) hfit)
      | cons t ts =>
        rw [mapM_cons]
        refine (hfound t (hhere t mem_cons_self)).bind fun l => ?_
        refine (meets_mapM_append (I := fun ls (w' : Workbench) => On hints known.all ls w'.model)
          (fun t' ht' ls => law.meets_linkTo hu (hhere t' (mem_cons_of_mem t ht'))) [l]).bind
          fun ls => meets_pure fun w' hw' => ⟨hw', fun h => absurd h (cons_ne_nil l ls)⟩
    refine hlinks.bind (fun ls w' hw' => ?_) w rfl
    refine ((meets_candidates rules pattern u.type hs w').stop
      fun _ _ h => h ▸ law.stop hw'.1).bind (fun there => ?_) w' rfl
    rintro w' ⟨rfl, hthere, -⟩
    refine ((law.meets_linkHints hF hu there fun t ht => hhs t (hthere t ht)).bind
      fun ls' => ?_) w' hw'
    exact (meets_pure fun _ hw => hw).bind hnext
  · split
    · rename_i t ht
      refine (hfound t (mem_of_lookup ht)).bind fun l =>
        Meets.bind (meets_pure fun _ hw => ?_) hnext
      exact ⟨hw, fun h => absurd h (cons_ne_nil l [])⟩
    · rename_i hnone
      refine Meets.bind (meets_pure ?_) hnext
      rintro _ rfl
      exact ⟨hw₀, fun _ => ⟨.inr (hknown ▸ hnone), refl_of R _⟩⟩

/-- All that is done for one use : its links are made, and those that `pick` leaves are gone
through. -/
theorem meets_use {s : LaunchScope} (hr : s.node = some r) {hs : List (Ref k)}
    (hhs : ∀ t ∈ hs, t ∈ hints) {name ns type queue guards location}
    {pick : List (Ref .link) → List (Ref .link)} (hpick : ∀ ls, (pick ls).Sublist ls)
    {each : Ref .link → PUnit → Job Workbench (ForInStep PUnit)}
    (heach : ∀ l ls, MeetsModel (On hints [] (l :: ls))
      (fun x m => (∃ b, x = .yield b) ∧ On hints [] ls m) Stop (each l ⟨⟩)) :
    MeetsModel (On hints [] []) (fun x m => (∃ b, x = .yield b) ∧ On hints [] [] m) Stop (do
      let u ← s.usage name ns type queue guards location
      let ls ← linksFor rules u hs
      let _ ← forIn (pick ls) PUnit.unit each
      pure (ForInStep.yield PUnit.unit)) := by
  refine law.meets_first (s.bounded_usage _ _ _ _ _ _).within
    (s.returns_usage _ _ _ _ _ _) fun u hu => ?_
  have hnode : u.node = r := Option.some.inj (hu.symm.trans hr)
  refine (law.meets_linksFor hnode hhs).bind fun ls => ?_
  refine Meets.pre ?_ fun w hw => law.drop hw (hpick ls)
  exact (meets_forIn (I := fun ls (w : Workbench) => On hints [] ls w.model) fun l ls _ =>
    heach l ls).bind fun _ => meets_pure fun w hw => ⟨⟨_, rfl⟩, hw⟩

end Links

theorem meets_resources [IsPreorder Model R] {s : LaunchScope} (hc : s.configuration = c) (hints)
    {v : Value} {key : String}
    (hmake : ∀ {es hints m} n type, Hints.sectionOf v key = .ok es → es ≠ [] → On hints [] [] m →
      On (hints ++ [(rules.create m c n type).2]) [] [] (rules.create m c n type).1) :
    MeetsModel (On hints [] []) (fun ts => On (hints ++ ts) [] []) Stop
      (Hints.resources rules s v key) := by
  refine (meets_ofResult
    (Q := fun es (w : Workbench) => On hints [] [] w.model ∧ Hints.sectionOf v key = .ok es)
    (fun _ _ hw hes => ⟨hw, hes⟩) fun _ _ hw => law.stop hw).bind fun es w hw => ?_
  obtain ⟨hw, hes⟩ := hw
  have hstart : On (hints ++ filterMap id []) [] [] w.model := by
    rwa [filterMap_nil, append_nil]
  refine Meets.bind (meets_mapM
    (I := fun ts (w : Workbench) => On (hints ++ ts.filterMap id) [] [] w.model) fun e he ts => ?_)
    (fun ts => meets_pure fun _ hw => hw) w hstart
  dsimp only
  split
  · refine of_ite (meets_pure fun w hw => ?_) ?_
    · rwa [filterMap_append, filterMap_cons_none rfl, filterMap_nil, append_nil]
    · refine law.meets_first within_get (returns_true _) fun w _ => ?_
      refine law.meets_first (within_ofResult _) (returns_true _) fun space _ => ?_
      refine law.meets_first (within_ofResult _) (returns_true _) fun full _ => ?_
      rw [hc]
      refine meets_change fun w hw => meets_pure fun _ h => ?_
      rw [h, filterMap_append, ← append_assoc]
      exact hmake full (some _) hes (ne_nil_of_mem he) hw
  · exact meets_throw fun w hw => law.stop hw

end Linker

/-- A linker of topics, with what happens to a topic when a link to it is attached : its guards are
settled, or extended by those of the node if a hint asked for the link. -/
structure TopicLinker (R : Model → Model → Prop) (c : Ref .configuration) (r : Ref .inst)
    (On : List (Ref .topic) → List (Ref .topic) → List (Ref .link) → Model → Prop)
    (Stop : Model → Prop) : Prop extends Linker topicRules R c r On Stop where
  attach : ∀ {hints known l ls m} {side : LinkSide}, side.isTopic = true →
    On hints known (l :: ls) m → On hints known ls
      (settleTopic ⟨((m.attach l side).link l).target.index⟩ (m.attach l side))
  attachMissing : ∀ {hints known l ls m} {side : LinkSide}, side.isTopic = true →
    On hints known (l :: ls) m → On hints known ls ((m.attach l side).extendGuards
      ((m.attach l side).topic ⟨((m.attach l side).link l).target.index⟩).guards
      ((m.attach l side).guardList ((m.attach l side).inst r).guards))

theorem Linker.topicLinker {R} [Guarding R] {c r On Stop} (law : Linker topicRules R c r On Stop)
    (hattach : ∀ {hints known l ls m} {side : LinkSide}, side.isTopic = true →
      On hints known (l :: ls) m → On hints known ls (m.attach l side)) :
    TopicLinker R c r On Stop :=
  { law with
    attach := fun hside h => law.along (hattach hside h) (along_settleTopic _ _)
    attachMissing := fun hside h => law.along (hattach hside h) (Guarding.extendGuards _ _ _) }

namespace TopicLinker

variable {R : Model → Model → Prop} {c : Ref .configuration} {r : Ref .inst}
  {On : List (Ref .topic) → List (Ref .topic) → List (Ref .link) → Model → Prop}
  {Stop : Model → Prop} (law : TopicLinker R c r On Stop)

include law

variable {s : LaunchScope} {hints hs : List (Ref .topic)} {side : LinkSide}

section Calls

variable [IsPreorder Model R]

theorem meets_linkTopicCalls (hr : s.node = some r) (hside : side.isTopic = true)
    (hhs : ∀ t ∈ hs, t ∈ hints) (calls : List Call) :
    MeetsModel (On hints [] []) (fun _ => On hints [] []) Stop
      (linkTopicCalls s side calls hs) := by
  refine (meets_forIn (I := fun _ (w : Workbench) => On hints [] [] w.model)
    fun call _ _ => ?_).bind fun _ => meets_pure fun _ hw => hw
  refine law.meets_first (within_ofResult _) (returns_true _) fun name _ => ?_
  refine law.meets_use hr hhs (sublist_effective call.repeats) fun l ls w hw => ?_
  exact ⟨⟨_, rfl⟩, law.attach hside hw⟩

theorem meets_makeTopics (hr : s.node = some r) {advertise subscribe : List (Ref .topic)}
    (hhs : ∀ t ∈ advertise ++ subscribe, t ∈ hints) :
    MeetsModel (On hints [] []) (fun _ => On hints [] []) Stop
      (s.makeTopics advertise subscribe) := by
  refine law.meets_first s.bounded_requireNode.within (returns_true _) fun _ _ => ?_
  refine law.meets_first within_get (returns_true _) fun w _ => ?_
  refine (law.meets_linkTopicCalls hr rfl (fun t ht => ?_) _).bind fun _ =>
    law.meets_linkTopicCalls hr rfl (fun t ht => ?_) _
  · exact hhs t (mem_append_left _ ht)
  · exact hhs t (mem_append_right _ ht)

theorem meets_linkMissing (hr : s.node = some r) (hside : side.isTopic = true) :
    MeetsModel (On hints [] []) (fun _ => On hints [] []) Stop (Hints.linkMissing s side hs) := by
  refine law.meets_first s.bounded_requireNode.within s.returns_requireNode fun r' hr' => ?_
  obtain rfl : r' = r := Option.some.inj (hr'.symm.trans hr)
  refine (meets_forIn (I := fun _ (w : Workbench) => On hints [] [] w.model) fun t _ _ => ?_).bind
    fun _ => meets_pure fun _ hw => hw
  refine law.meets_first within_get (returns_true _) fun w _ => ?_
  refine of_ite ?_ (meets_pure fun w hw => ⟨⟨_, rfl⟩, hw⟩)
  refine law.meets_use hr (forall_mem_nil _) Sublist.refl fun l ls w hw => ?_
  exact ⟨⟨_, rfl⟩, law.attachMissing hside hw⟩

theorem meets_makeMissing (hr : s.node = some r) (h : Hints) :
    MeetsModel (On hints [] []) (fun _ => On hints [] []) Stop (h.makeMissing s) := by
  refine (law.meets_linkMissing hr rfl).bind fun _ =>
    (law.meets_linkMissing hr rfl).bind fun _ => ?_
  refine law.meets_first s.bounded_requireNode.within (returns_true _) fun r' _ => ?_
  refine law.meets_first (within_get.bind fun w => ?_) (returns_true _) fun _ _ => ?_
  · exact of_ite (within_throw _) (within_pure _)
  · refine law.meets_first within_get (returns_true _) fun w _ => ?_
    exact of_ite (meets_throw fun w hw => law.stop hw) (meets_pure fun w hw => hw)

end Calls

section Whole

variable [ServiceSteady R] (hc : s.configuration = c) {v : Value}
  (hmake : ∀ {key es hints m} n type, key = "advertise" ∨ key = "subscribe" →
    Hints.sectionOf v key = .ok es → es ≠ [] → On hints [] [] m →
    On (hints ++ [(topicRules.create m c n type).2]) [] [] (topicRules.create m c n type).1)

include hc hmake

theorem meets_make :
    MeetsModel (On [] [] []) (fun h => On (h.advertise ++ h.subscribe) [] []) Stop
      (Hints.make s v) := by
  have hservices : ∀ v key, Within (Workbench.Along R) (Hints.resources serviceRules s v key) :=
    fun v key => (Hints.bounded_resources (fun c n type => within_change fun m =>
      drifts_serviceRules.create m c n type) s v key).within
  refine of_ite (fun w hw => law.stop hw) ?_
  generalize hv : (if v.truthy = true then v else Value.record []) = hints
  have htopics : ∀ key, key = "advertise" ∨ key = "subscribe" → ∀ ts,
      MeetsModel (On ts [] []) (fun ts' => On (ts ++ ts') [] []) Stop
        (Hints.resources topicRules s hints key) := by
    refine fun key hkey ts => law.meets_resources hc ts fun n type hes hne h => ?_
    split at hv
    · exact hmake n type hkey (hv ▸ hes) hne h
    · subst hv
      exact absurd (Except.ok.inj hes).symm hne
  refine (htopics _ (.inl rfl) []).bind fun advertise => ?_
  refine (htopics _ (.inr rfl) advertise).bind fun subscribe => ?_
  refine law.meets_first (hservices _ _) (returns_true _) fun service _ => ?_
  refine law.meets_first (hservices _ _) (returns_true _) fun client _ => ?_
  exact meets_pure fun w hw => hw

theorem meets_link (hr : s.node = some r) :
    MeetsModel (On [] [] []) (fun _ => Stop) Stop (Hints.link s v) := by
  refine (law.meets_make hc hmake).bind fun h => ?_
  refine (law.meets_makeTopics hr fun t ht => ht).bind fun _ => ?_
  have hservices : Bounded (Workbench.Along R) Fault.Stops (s.makeServices h.service h.client) :=
    bounded_makeServices (uses_of_drifts s drifts_serviceRules) ServiceSteady.attachService _ _
  refine law.meets_first hservices.within (returns_true _) fun _ _ => ?_
  refine (law.meets_makeMissing hr h).bind fun _ => ?_
  have hnote : Within (Workbench.Along R) (s.noteParams [] []) :=
    (s.bounded_noteParams [] []).within
  exact hnote.meets (returns_true _) (fun _ _ _ hw hm _ => law.stop (law.along hw hm))
    fun _ _ _ hw hm => law.stop (law.along hw hm)

end Whole

end TopicLinker

theorem Hints.exec_link_of_none {s} (hs : s.node = none) (v : Value) (w : Workbench) :
    (Hints.link s v).exec w = (.error .noField, w) := by
  have hmake : (Hints.make s v).exec w = (.error .noField, w) := by
    simp only [Hints.make, hs]
    rfl
  rw [Hints.link, exec_bind_of_error hmake]

/-- The links that a node notes are its own, go to parameters, and have no hints. -/
theorem Hints.returns_link (s : LaunchScope) (v) :
    Returns (fun s' => ∀ f ∈ s'.future, f ∈ s.future ∨
      s.node = some f.node ∧ f.side.isParam = true ∧ f.hints = []) (Hints.link s v) := by
  refine Returns.after fun _ => Returns.after fun _ => Returns.after fun _ =>
    Returns.after fun _ => ?_
  refine returns_bind s.returns_requireNode fun r hr => Returns.after fun w => ?_
  have hnote : ∀ (s' : LaunchScope) (f : FutureLink), (∀ f ∈ s'.future, f ∈ s.future ∨
        s.node = some f.node ∧ f.side.isParam = true ∧ f.hints = []) →
      f.node = r → f.side.isParam = true → f.hints = [] → ∀ g ∈ s'.future ++ [f],
        g ∈ s.future ∨ s.node = some g.node ∧ g.side.isParam = true ∧ g.hints = [] := by
    intro s' f hs' hnode hside hhints g hg
    rcases mem_append.mp hg with hg | hg
    · exact hs' g hg
    · rw [mem_singleton.mp hg, hnode]
      exact .inr ⟨hr, hside, hhints⟩
  refine returns_bind (returns_foldlM (fun s' call hs' => ?_) _ fun f hf => .inl hf) fun s' hs' =>
    returns_foldlM (fun s' call hs' => ?_) _ hs'
  all_goals exact Returns.after fun space => returns_pure (hnote s' _ hs' rfl rfl rfl)

/-- A linker of services, with what happens to a service when a link to it is attached : its guards
are settled, which may stop the work. -/
structure ServiceLinker (R : Model → Model → Prop) (c : Ref .configuration) (r : Ref .inst)
    (On : List (Ref .service) → List (Ref .service) → List (Ref .link) → Model → Prop)
    (Stop : Model → Prop) : Prop extends Linker serviceRules R c r On Stop where
  attach : ∀ {hints known l ls m} {side : LinkSide}, side.isService = true →
    On hints known (l :: ls) m → Stop (m.attach l side) ∧
      ∀ m', settleService ⟨((m.attach l side).link l).target.index⟩ (m.attach l side) = .ok m' →
        On hints known ls m'

theorem Linker.serviceLinker {R} [Guarding R] {c r On Stop}
    (law : Linker serviceRules R c r On Stop)
    (hattach : ∀ {hints known l ls m} {side : LinkSide}, side.isService = true →
      On hints known (l :: ls) m → On hints known ls (m.attach l side)) :
    ServiceLinker R c r On Stop :=
  { law with
    attach := fun hside h => ⟨law.stop (hattach hside h), fun _ hm =>
      law.along (hattach hside h) (along_settleService hm)⟩ }

namespace ServiceLinker

variable {R : Model → Model → Prop} [IsPreorder Model R] {c : Ref .configuration} {r : Ref .inst}
  {On : List (Ref .service) → List (Ref .service) → List (Ref .link) → Model → Prop}
  {Stop : Model → Prop} (law : ServiceLinker R c r On Stop)

include law

variable {s : LaunchScope} {hints hs : List (Ref .service)} {side : LinkSide}

theorem meets_linkServiceCalls (hr : s.node = some r) (hside : side.isService = true)
    (hhs : ∀ t ∈ hs, t ∈ hints) (calls : List Call) :
    MeetsModel (On hints [] []) (fun _ => On hints [] []) Stop
      (linkServiceCalls s side calls hs) := by
  refine (meets_forIn (I := fun _ (w : Workbench) => On hints [] [] w.model)
    fun call _ _ => ?_).bind fun _ => meets_pure fun _ hw => hw
  refine law.meets_first (within_ofResult _) (returns_true _) fun name _ => ?_
  refine law.meets_use hr hhs (sublist_effective call.repeats) fun l ls w hw => ?_
  obtain ⟨hstop, hsettled⟩ := law.attach hside hw
  rw [exec_bind, exec_touch]
  dsimp only
  rw [exec_bind, exec_get]
  dsimp only
  cases hm :
    settleService ⟨((w.model.attach l side).link l).target.index⟩ (w.model.attach l side) with
  | error f => exact hstop
  | ok m => exact ⟨⟨_, rfl⟩, hsettled m hm⟩

theorem meets_makeServices (hr : s.node = some r) {service client : List (Ref .service)}
    (hhs : ∀ t ∈ service ++ client, t ∈ hints) :
    MeetsModel (On hints [] []) (fun _ => On hints [] []) Stop (s.makeServices service client) := by
  refine law.meets_first s.bounded_requireNode.within (returns_true _) fun _ _ => ?_
  refine law.meets_first within_get (returns_true _) fun w _ => ?_
  refine (law.meets_linkServiceCalls hr rfl (fun t ht => ?_) _).bind fun _ =>
    law.meets_linkServiceCalls hr rfl (fun t ht => ?_) _
  · exact hhs t (mem_append_left _ ht)
  · exact hhs t (mem_append_right _ ht)

end ServiceLinker

end RosAudit
