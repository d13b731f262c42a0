import RosAudit.Proofs.Configure.Filing

/-!
# The link that settles the guards of a topic

A topic is in use without conditions if one of its links has no guards on a node without guards, and
`Model.usageGuards` says so (`usageGuards_eq_nil_iff`). The guards that a topic carries are gathered
in another way. The links of one side are gone through up to the first that is on a node without
guards, and the guards of that link are taken as they are, publishers first and subscribers after
them. So one link decides alone (`Model.deciding?`), whatever the links behind it or on the other
side are like. `settleTopic_eq_nil_iff` compares the two.
-/

namespace RosAudit

open List

namespace Model

def onFreeNode (m : Model) (l : Ref .link) : Bool :=
  (m.guardList (m.inst (m.link l).node).guards).isEmpty

/-- Neither the link nor its node has guards. -/
def Unconditional (m : Model) (l : Ref .link) : Prop :=
  m.onFreeNode l = true ∧ m.guardList (m.link l).guards = []

/-- The first link on a node without guards. -/
def firstFree? (m : Model) (ls : List (Ref .link)) : Option (Ref .link) :=
  (ls.filter m.onFreeNode).head?

/-- The first subscriber on a node without guards, or the first such publisher if nobody subscribes.
-/
def deciding? (m : Model) (t : Topic) : Option (Ref .link) :=
  m.firstFree? (if t.subscribers.isEmpty then t.publishers else t.subscribers)

/-! ## Guards of use -/

theorem linkGuards_cons (m : Model) (l ls conditional) :
    m.Unconditional l ∧ m.linkGuards conditional (l :: ls) = none ∨
    ¬ m.Unconditional l ∧
      ∃ b own, m.linkGuards conditional (l :: ls) = (m.linkGuards b ls).map (own ++ ·) ∧
      (conditional = true → own ≠ []) := by
  unfold Unconditional onFreeNode
  rw [linkGuards]
  split
  · exact .inl ⟨by simp_all, rfl⟩
  · refine .inr ⟨by simp_all, _, _, rfl, ?_⟩
    rintro rfl
    by_cases hown : m.guardList (m.link l).guards = [] <;> simp_all

theorem linkGuards_eq_none_iff (m : Model) (ls conditional) :
    m.linkGuards conditional ls = none ↔ ∃ l ∈ ls, m.Unconditional l := by
  induction ls generalizing conditional with
  | nil => simp [linkGuards]
  | cons l ls ih =>
    rcases m.linkGuards_cons l ls conditional with ⟨hl, h⟩ | ⟨hl, b, own, h, -⟩
    · simp [h, hl]
    · simp [h, hl, ih]

theorem usageGuards_eq_nil_iff (m : Model) (t : Ref .topic) : m.usageGuards t.entity = .ok [] ↔
    (m.topic t).links = [] ∨ ∃ l ∈ (m.topic t).links, m.Unconditional l := by
  have husage : m.usageGuards t.entity = .ok ((m.linkGuards true (m.topic t).links).getD []) := rfl
  rw [husage, Except.ok.injEq, ← linkGuards_eq_none_iff m _ true]
  cases (m.topic t).links with
  | nil => simp [linkGuards]
  | cons l ls =>
    rcases m.linkGuards_cons l ls true with ⟨-, h⟩ | ⟨-, b, own, h, hown⟩
    · simp [h]
    · rw [h]
      cases m.linkGuards b ls <;> simp [hown]

/-! ## Gathering -/

section Gathering

variable {t : Ref .topic} {ls : List (Ref .link)} {m m' : Model} {g : Ref .guards}

/-- The list of guards exists, and is not that of a node that the links are on. -/
abbrev Apart (m : Model) (g : Ref .guards) (ls : List (Ref .link)) : Prop :=
  g.index < m.guards.size ∧ ∀ l ∈ ls, (m.inst (m.link l).node).guards ≠ g

theorem Apart.onFreeNode (h : m.Apart g ls) (gs) :
    ∀ l ∈ ls, (m.extendGuards g gs).onFreeNode l = m.onFreeNode l := by
  intro l hl
  refine congrArg List.isEmpty (getD_modify_of_ne m.guards [] _ fun hg => h.2 l hl ?_)
  exact congrArg Ref.mk hg.symm

theorem Apart.firstFree? (h : m.Apart g ls) (gs) :
    (m.extendGuards g gs).firstFree? ls = m.firstFree? ls :=
  congrArg head? (filter_congr (h.onFreeNode gs))

theorem Apart.extendGuards (h : m.Apart g ls) (gs) : (m.extendGuards g gs).Apart g ls :=
  ⟨Array.size_modify.symm ▸ h.1, h.2⟩

theorem topic_extendGuards (m : Model) (g gs) :
    (m.extendGuards g gs).topic t = m.topic t := rfl

theorem extendGuards_extendGuards (m : Model) (g : Ref .guards) (gs gs') :
    (m.extendGuards g gs).extendGuards g gs' = m.extendGuards g (gs ++ gs') := by
  have hguards : (m.guards.modify g.index (· ++ gs)).modify g.index (· ++ gs') =
      m.guards.modify g.index (· ++ (gs ++ gs')) := by
    apply Array.ext_getElem?
    intro i
    simp only [Array.getElem?_modify]
    split <;> cases m.guards[i]? <;> simp
  exact congrArg (fun a => { m with guards := a }) hguards

def takeGuards (t : Ref .topic) (m : Model) : Option (Ref .link) → Model
  | none => m
  | some l => m.updateTopic t fun x => { x with guards := (m.link l).guards }

/-- A side of a topic was gone through : guards were added up to the first link on a node without
guards, which gives its own instead. They are added to a list that no node has. -/
def Gathered (t : Ref .topic) (ls : List (Ref .link)) (m m' : Model) : Prop :=
  ∃ gs, m' = takeGuards t (m.extendGuards (m.topic t).guards gs) (m.firstFree? ls) ∧
    (m.firstFree? ls = none → ls ≠ [] → gs ≠ []) ∧ (gs = [] ∨ m.Apart (m.topic t).guards ls)

/-- No node that the links are on has guards. -/
abbrev AllFree (m : Model) (ls : List (Ref .link)) : Prop := ∀ l ∈ ls, m.onFreeNode l = true

abbrev gatherInto (t : Ref .topic) : List (Ref .link) → Model → Model :=
  gatherGuards (fun m g => m.updateTopic t fun x => { x with guards := g }) fun m =>
    (m.topic t).guards

theorem gathered_gatherInto (h : m.AllFree ls ∨ m.Apart (m.topic t).guards ls) :
    Gathered t ls m (gatherInto t ls m) := by
  induction ls generalizing m with
  | nil => exact ⟨[], (extendGuards_nil _ _).symm, fun _ h => absurd rfl h, .inl rfl⟩
  | cons l ls ih =>
    rw [gatherInto, gatherGuards]
    dsimp only
    split
    next hfree =>
      have hfirst : m.firstFree? (l :: ls) = some l :=
        congrArg head? (filter_cons_of_pos (p := m.onFreeNode) hfree)
      refine ⟨[], ?_, fun hnone => ?_, .inl rfl⟩
      · rw [hfirst, extendGuards_nil]
        rfl
      · rw [hfirst] at hnone
        cases hnone
    next hbound =>
      replace h := h.resolve_left fun hall => hbound (hall l mem_cons_self)
      have hrest : m.Apart (m.topic t).guards ls := ⟨h.1, (forall_mem_cons.mp h.2).2⟩
      have hfirst : m.firstFree? (l :: ls) = m.firstFree? ls :=
        congrArg head? (filter_cons_of_neg (p := m.onFreeNode) hbound)
      rw [topic_extendGuards, extendGuards_extendGuards]
      obtain ⟨gs, hgather, -⟩ := ih (.inr (hrest.extendGuards _))
      rw [hrest.firstFree?, topic_extendGuards, extendGuards_extendGuards] at hgather
      refine ⟨_, hfirst ▸ hgather, fun _ _ hnil => hbound ?_, .inr h⟩
      rw [(append_eq_nil_iff.mp (append_eq_nil_iff.mp hnil).1).1]
      rfl

theorem Gathered.kept (h : Gathered t ls m m') : (m'.topic t).core = (m.topic t).core ∧
    m'.topics.size = m.topics.size ∧ ∀ {g ls'}, m.Apart g ls' → m'.Apart g ls' := by
  obtain ⟨gs, rfl, -⟩ := h
  cases m.firstFree? ls with
  | none => exact ⟨rfl, rfl, fun hg => ⟨Array.size_modify.symm ▸ hg.1, hg.2⟩⟩
  | some l =>
    exact ⟨view_getD_modify _ _ Topic.core (by intro; rfl) _ _, Array.size_modify,
      fun hg => ⟨Array.size_modify.symm ▸ hg.1, hg.2⟩⟩

theorem Gathered.guards (h : Gathered t ls m m') (ht : t.index < m.topics.size) :
    (m'.topic t).guards = (m.topic t).guards ∨
      ∃ l ∈ ls, (m'.topic t).guards = (m.link l).guards := by
  obtain ⟨gs, rfl, -⟩ := h
  cases hl : m.firstFree? ls with
  | none => exact .inl rfl
  | some l =>
    have hmem := (mem_filter.mp (mem_of_mem_head? hl)).1
    exact .inr ⟨l, hmem, congrArg Topic.guards (getD_modify_self _ _ _ ht)⟩

theorem Gathered.eq_nil_iff (h : Gathered t ls m m') (ht : t.index < m.topics.size)
    (hls : ls ≠ []) :
    m'.guardList (m'.topic t).guards = [] ↔ ∃ l, m'.firstFree? ls = some l ∧
      m'.Unconditional l := by
  obtain ⟨gs, rfl, hnone, hapart⟩ := h
  have hfirst : (m.extendGuards (m.topic t).guards gs).firstFree? ls = m.firstFree? ls := by
    rcases hapart with rfl | hapart
    · rw [extendGuards_nil]
    · exact hapart.firstFree? gs
  cases hl : m.firstFree? ls with
  | none =>
    rw [hl] at hfirst
    rw [takeGuards, hfirst, topic_extendGuards, guardList, extendGuards,
      getD_modify_self _ _ _ (hapart.resolve_left (hnone hl hls)).1]
    simp [hnone hl hls]
  | some l =>
    rw [hl] at hfirst
    have hfree := (mem_filter.mp (mem_of_mem_head? hfirst)).2
    have hguards : ((takeGuards t (m.extendGuards (m.topic t).guards gs) (some l)).topic t).guards =
        (m.link l).guards := congrArg Topic.guards (getD_modify_self _ _ _ ht)
    constructor
    · exact fun h => ⟨l, hfirst, hfree, hguards ▸ h⟩
    · rintro ⟨_, hl', -, h⟩
      obtain rfl := Option.some.inj (hl'.symm.trans hfirst)
      exact hguards ▸ h

theorem Apart.mono (h : m.Apart g ls) {ls'} (hls : ls' ⊆ ls) : m.Apart g ls' :=
  ⟨h.1, fun l hl => h.2 l (hls hl)⟩

theorem AllFree.gatherInto (h : m.AllFree ls) {ls'} (h' : m.AllFree ls') :
    (gatherInto t ls m).AllFree ls' := by
  cases ls with
  | nil => exact h'
  | cons l ls =>
    have htake : Model.gatherInto t (l :: ls) m = takeGuards t m (some l) :=
      if_pos (h l mem_cons_self)
    rw [htake]
    exact h'

theorem gatherBoth_eq_nil_iff (ht : t.index < m.topics.size)
    (hfresh : m.Apart (m.topic t).guards (m.topic t).links)
    (hnil : m.guardList (m.topic t).guards = [])
    (hlink : m.AllFree (m.topic t).links ∨
      ∀ l ∈ (m.topic t).links, m.Apart (m.link l).guards (m.topic t).links)
    (hm' : gatherInto t (m.topic t).subscribers (gatherInto t (m.topic t).publishers m) = m') :
    m'.guardList (m'.topic t).guards = [] ↔ (m'.topic t).links = [] ∨
      ∃ l, m'.deciding? (m'.topic t) = some l ∧ m'.Unconditional l := by
  have hpub := hfresh.mono (subset_append_left (m.topic t).publishers (m.topic t).subscribers)
  have hone := gathered_gatherInto (.inr hpub)
  generalize hm₁ : gatherInto t (m.topic t).publishers m = m₁ at hm' hone
  have hsub : m₁.AllFree (m.topic t).subscribers ∨
      m₁.Apart (m₁.topic t).guards (m.topic t).subscribers := by
    refine hlink.imp (fun hfree => ?_) fun hlink => ?_
    · obtain ⟨hpubs, hsubs⟩ := forall_mem_append.mp hfree
      exact hm₁ ▸ AllFree.gatherInto hpubs hsubs
    · have hall : m.Apart (m₁.topic t).guards (m.topic t).links := by
        rcases hone.guards ht with hg | ⟨l, hl, hg⟩
        · exact hg ▸ hfresh
        · exact hg ▸ hlink l (mem_append_left _ hl)
      exact (hone.kept.2.2 hall).mono
        (subset_append_right (m.topic t).publishers (m.topic t).subscribers)
  have htwo := gathered_gatherInto hsub
  rw [hm'] at htwo
  have hcore := Topic.mk.inj (htwo.kept.1.trans hone.kept.1)
  have hp : (m'.topic t).publishers = (m.topic t).publishers := hcore.2.2.2.2.1
  have hs : (m'.topic t).subscribers = (m.topic t).subscribers := hcore.2.2.2.2.2
  rw [deciding?, Topic.links, hp, hs, append_eq_nil_iff]
  by_cases hsubs : (m.topic t).subscribers = []
  · rw [hsubs, gatherInto, gatherGuards] at hm'
    rw [hsubs, isEmpty_nil, if_pos rfl, and_iff_left rfl, ← hm']
    by_cases hpubs : (m.topic t).publishers = []
    · rw [hpubs, gatherInto, gatherGuards] at hm₁
      simp [← hm₁, hnil, hpubs]
    · rw [or_iff_right hpubs]
      exact hone.eq_nil_iff ht hpubs
  · rw [or_iff_right fun h => hsubs h.2, if_neg (by simpa using hsubs)]
    exact htwo.eq_nil_iff (hone.kept.2.1.symm ▸ ht) hsubs

end Gathering

/-- The topic exists, and its nodes have lists of guards that exist. If one of these has guards,
then the links have lists that exist as well, and none shares its list with a node. -/
structure Gatherable (m : Model) (t : Ref .topic) : Prop where
  topic : t.index < m.topics.size
  node : ∀ l ∈ (m.topic t).links, (m.inst (m.link l).node).guards.index < m.guards.size
  link : m.AllFree (m.topic t).links ∨
    ∀ l ∈ (m.topic t).links, m.Apart (m.link l).guards (m.topic t).links

/-- What a topic carries after its guards were settled, beside what it is used under : no guards
exactly if the deciding link is unconditional, and no conditions exactly if any link is. -/
theorem settleTopic_eq_nil_iff {m m' : Model} {t : Ref .topic} (h : m.Gatherable t)
    (hm' : settleTopic t m = m') :
    (m'.guardList (m'.topic t).guards = [] ↔ (m'.topic t).links = [] ∨
      ∃ l, m'.deciding? (m'.topic t) = some l ∧ m'.Unconditional l) ∧
    (m'.usageGuards t.entity = .ok [] ↔ (m'.topic t).links = [] ∨
      ∃ l ∈ (m'.topic t).links, m'.Unconditional l) := by
  refine ⟨?_, m'.usageGuards_eq_nil_iff t⟩
  -- a list of guards is made for the topic, and no node has it
  generalize hm₀ :
    (m.addGuards []).1.updateTopic t (fun x => { x with guards := ⟨m.guards.size⟩ }) = m₀
  have htopic : m₀.topic t = { m.topic t with guards := ⟨m.guards.size⟩ } :=
    hm₀ ▸ getD_modify_self _ _ _ h.topic
  have hguards : (m₀.topic t).guards = ⟨m.guards.size⟩ := by rw [htopic]
  have hapart : ∀ g, g.index ≤ m.guards.size →
      (∀ l ∈ (m.topic t).links, (m.inst (m.link l).node).guards ≠ g) →
      m₀.Apart g (m₀.topic t).links := by
    intro g hg hnode
    rw [htopic, ← hm₀]
    exact ⟨Nat.lt_of_le_of_lt hg (by simp [updateTopic, addGuards]), hnode⟩
  refine gatherBoth_eq_nil_iff (m := m₀) ?_ ?_ ?_ ?_ (hm₀ ▸ hm')
  · rw [← hm₀, updateTopic, Array.size_modify]
    exact h.topic
  · refine hguards ▸ hapart _ (Nat.le_refl _) fun l hl hnode => ?_
    exact Nat.lt_irrefl _ (hnode ▸ h.node l hl)
  · rw [hguards, ← hm₀]
    exact getD_push_size _ _ _
  · refine h.link.imp (fun hfree l hl => ?_) fun hlink l hl => ?_ <;> rw [htopic] at hl
    · rw [← hm₀, ← hfree l hl]
      exact congrArg List.isEmpty (getD_push_of_lt _ _ _ (h.node l hl))
    · rw [show m₀.link l = m.link l by rw [← hm₀]; rfl]
      exact hapart _ (Nat.le_of_lt (hlink l hl).1) (hlink l hl).2

def advertisedTwice : Model where
  instances := #[{ (default : NodeInstance) with guards := ⟨0⟩ }]
  links := #[{ (default : Link) with guards := ⟨1⟩ }, { (default : Link) with guards := ⟨2⟩ }]
  topics := #[{ (default : Topic) with publishers := [⟨0⟩, ⟨1⟩] }]
  guards := #[[], [.source (.text "x > 0") none], []]

theorem settleTopic_eq_nil_iff_advertisedTwice : advertisedTwice.Gatherable ⟨0⟩ ∧
    (settleTopic ⟨0⟩ advertisedTwice).guardList
      ((settleTopic ⟨0⟩ advertisedTwice).topic ⟨0⟩).guards ≠ [] := by
  have h : advertisedTwice.Gatherable ⟨0⟩ := ⟨by decide, by decide, by decide⟩
  refine ⟨h, fun hnil => ?_⟩
  rcases (settleTopic_eq_nil_iff h rfl).1.mp hnil with hlinks | ⟨l, ⟨⟩, -, hguards⟩
  · cases hlinks
  · cases hguards

/-- The topic is in use without conditions and carries a guard all the same. -/
theorem settleTopic_advertisedTwice :
    (settleTopic ⟨0⟩ advertisedTwice).usageGuards (Ref.entity (k := .topic) ⟨0⟩) = .ok [] ∧
    (settleTopic ⟨0⟩ advertisedTwice).guardList
      ((settleTopic ⟨0⟩ advertisedTwice).topic ⟨0⟩).guards = [.source (.text "x > 0") none] :=
  ⟨rfl, rfl⟩

end Model

end RosAudit
