import RosAudit.Proofs.Configure.AbsoluteNames
import RosAudit.Proofs.Configure.ParamQueue
import RosAudit.Proofs.Configure.TopicLinks
import RosAudit.Proofs.Model.Serving

/-!
# How often a parameter is linked

At the end of a launch file a link is made for every entry of the queue, and the entry stays there.
So each later file that is used makes the same links again.

`FutureLink.make_ok` : for an entry one link is made, to the parameter that is listed under its name
or to a new one.
-/

namespace RosAudit

open Job Model LaunchScope List

/-! ## One entry -/

/-- The link that is made for an entry of the queue. -/
def FutureLink.link (f : FutureLink) (called : Name) (p : Ref .param) : Link where
  role := .param
  node := f.node
  target := p.entity
  type := f.type
  name := called
  guards := f.guards
  location := f.location

/-- The model with a link for an entry of the queue, listed on both sides. -/
def Model.tie (m : Model) (f : FutureLink) (called : Name) (p : Ref .param) : Model :=
  (m.addLink (f.link called p)).1.attach ⟨m.links.size⟩ f.side

def Model.enterParam (m : Model) (c : Ref .configuration) (name : Name) (type : Option String) :
    Model :=
  let x := paramRules.create m c name type
  (x.1.listParam x.2).1

theorem exec_linkTo {k} (rules : ResourceRules k) {u g} (hg : u.guards = some g) (r : Ref k)
    (w : Workbench) : (linkTo rules u r).exec w =
      (.ok ⟨w.model.links.size⟩, { w with model := (w.model.addLink {
        role := rules.role, node := u.node, target := r.entity, type := u.type, name := u.called
        queue := u.queue, guards := g, location := u.location }).1 }) := by
  unfold linkTo
  rw [hg]
  rfl

/-- Without hints there is one link, to the parameter that is listed under the name or to a new
one. -/
theorem linksFor_ok {u g} (hg : u.guards = some g) {w w' ls}
    (h : (linksFor paramRules u []).exec w = (.ok ls, w')) :
    ∃ m p, ls = [⟨m.links.size⟩] ∧
      w' = { w with model := (m.addLink {
        role := .param, node := u.node, target := p.entity, type := u.type, name := u.called
        queue := u.queue, guards := g, location := u.location }).1 } ∧
      let c := (w.model.inst u.node).configuration
      (m = w.model ∧ p ∈ (w.model.configuration c).params.all ∨
        m = w.model.enterParam c u.target u.type ∧ p = ⟨w.model.params.size⟩) := by
  unfold linksFor at h
  rw [exec_bind_of_ok (exec_get w)] at h
  extract_lets m c known next at h
  simp only [isEmpty_nil, Bool.not_true, Bool.and_false, Bool.false_eq_true, if_false] at h
  split at h
  · rename_i p hp
    rw [exec_bind_of_ok (exec_linkTo paramRules hg p w)] at h
    cases h
    exact ⟨w.model, p, rfl, rfl, .inl ⟨rfl, mem_of_lookup hp⟩⟩
  · rw [exec_bind_of_ok (exec_pure _ _)] at h
    simp only [next, isEmpty_nil, if_true] at h
    rw [exec_bind_of_ok (exec_change _ _), exec_bind_of_ok (exec_change _ _),
      exec_bind_of_ok (exec_linkTo paramRules hg _ _)] at h
    cases h
    exact ⟨_, ⟨w.model.params.size⟩, rfl, rfl, .inr ⟨rfl, rfl⟩⟩

variable {f : FutureLink}

theorem FutureLink.make_ok (hf : f.hints = []) {w w' u} (h : f.make.exec w = (.ok u, w')) :
    ∃ m called p, f.name = some called.given ∧
      w' = { w with model := m.tie f called p } ∧
      let c := (w.model.inst f.node).configuration
      (m = w.model ∧ p ∈ (w.model.configuration c).params.all ∨
        ∃ name, m = w.model.enterParam c name f.type ∧ p = ⟨w.model.params.size⟩) := by
  obtain ⟨name, hname, h⟩ := exec_ofResult_bind_ok.mp h
  obtain ⟨called, hcalled, h⟩ := exec_ofResult_bind_ok.mp h
  obtain ⟨target, -, h⟩ := exec_ofResult_bind_ok.mp h
  have hgiven : f.name = some called.given := by
    rw [Name.given_of_make hcalled]
    unfold namedTarget at hname
    split at hname
    · cases hname
      assumption
    · cases hname
  obtain ⟨ls, w₁, hls, h⟩ := exec_bind_ok.mp h
  rw [hf] at hls
  obtain ⟨m, p, rfl, rfl, hm⟩ := linksFor_ok rfl hls
  have heffective : ∀ l : Ref .link, effective f.repeats [l] = [l] := by
    intro l
    cases f.repeats <;> rfl
  rw [heffective] at h
  cases h
  refine ⟨m, called, p, hgiven, rfl, hm.imp_right ?_⟩
  exact fun hnew => ⟨target, hnew⟩

/-! ## A new parameter -/

section Enter

variable (m : Model) (c : Ref .configuration) (name : Name) (type : Option String)

theorem Model.resting_enterParam : Resting m (m.enterParam c name type) := by
  have hlist : ∀ (m : Model) p, Resting m (m.listParam p).1 :=
    fun m p => (m.sameUses_listParam p).resting (m.quiet_listParam p)
  refine trans_of Resting (trans_of Resting (Guarding.addGuards m []) ?_) (hlist _ _)
  exact Making.makeParam _ ⟨rfl, rfl⟩

theorem Model.size_params_enterParam : (m.enterParam c name type).params.size = m.params.size + 1 :=
  Array.size_push _

theorem Model.params_enterParam (hc : c.index < m.configurations.size) :
    ((m.enterParam c name type).configuration c).params.all =
      (m.configuration c).params.all ++ [⟨m.params.size⟩] := by
  have hnew : ((paramRules.create m c name type).1.param ⟨m.params.size⟩).configuration = c := by
    exact congrArg Parameter.configuration (getD_push_size _ _ _)
  unfold enterParam listParam
  dsimp only
  rw [show (paramRules.create m c name type).2 = ⟨m.params.size⟩ from rfl, hnew]
  exact congrArg (·.params.all) (getD_modify_self _ _ _ hc)

end Enter

/-! ## Working off the queue -/

variable {p : Ref .param} {more : List Call}

namespace Builder

/-- All that links between nodes and parameters refer to is there. -/
structure InOrder (b : Builder) : Prop where
  known : b.configuration.index < b.bench.model.configurations.size
  listed : ∀ p ∈ (b.bench.model.configuration b.configuration).params.all,
    p.index < b.bench.model.params.size
  grounded : b.bench.model.Grounded
  entries : ∀ f ∈ b.future, b.Waits f

theorem InOrder.resting {b b'} (h : InOrder b) (ha : Along Resting b b')
    (hlisted : ∀ p ∈ (b'.bench.model.configuration b'.configuration).params.all, p.index <
      b'.bench.model.params.size) :
    InOrder b' where
  known := by
    rw [ha.configuration, ha.model.size_configurations]
    exact h.known
  listed := hlisted
  grounded := h.grounded.of_sameUses ha.model.toSameUses
  entries := by
    rw [ha.future]
    exact fun f hf => (h.entries f hf).mono ha.configuration ha.model.toSameUses

/-- The program of a node instance makes the calls `own` on a side, and the links that the instance
has there were made for `calls`. -/
structure Ledger (r : Ref .inst) (side : LinkSide) (own calls : List Call) (b : Builder) : Prop
    extends InOrder b where
  program : b.bench.model.callsOf r side = own
  accounts : b.bench.model.Accounts b.configuration r side calls

namespace Ledger

variable {r : Ref .inst} {side : LinkSide} {own calls : List Call} {b b' : Builder}

theorem resting (h : Ledger r side own calls b) (hside : side.isParam = true)
    (ha : Along Resting b b')
    (hlisted : ∀ p ∈ (b'.bench.model.configuration b'.configuration).params.all,
      p.index < b'.bench.model.params.size) : Ledger r side own calls b' where
  toInOrder := h.toInOrder.resting ha hlisted
  program := (ha.model.callsOf r side).trans h.program
  accounts := by
    rw [ha.configuration]
    exact h.accounts.of_sameUses hside h.grounded ha.model.toSameUses

theorem bound (h : Ledger r side own calls b) (hf : f ∈ b.future) (called : Name)
    (hp : p.index < b.bench.model.params.size) :
    (b.bench.model.addLink (f.link called p)).1.Bound ⟨b.bench.model.links.size⟩ p := by
  have hlink : (b.bench.model.addLink (f.link called p)).1.link ⟨b.bench.model.links.size⟩ =
      f.link called p := getD_push_size _ _ _
  constructor
  · exact Nat.lt_of_lt_of_eq (Nat.lt_succ_self _) (Array.size_push _).symm
  · rw [hlink]
    exact (h.entries f hf).index
  · rw [hlink]
    rfl
  · exact hp
  · intro p' side' hl
    exact Nat.lt_irrefl _ (h.grounded p' side' _ hl).1

theorem serves (h : Ledger r side own calls b) (hf : f ∈ b.future) {called}
    (hcalled : f.name = some called.given)
    (hp : p ∈ (b.bench.model.configuration b.configuration).params.all) {call}
    (hnotes : f.Notes r side call) :
    (b.bench.model.tie f called p).Serves b.configuration r side call
      ⟨b.bench.model.links.size⟩ := by
  have hbound := h.bound hf called (h.listed p hp)
  have hlink : (b.bench.model.tie f called p).link ⟨b.bench.model.links.size⟩ =
      f.link called p := by
    rw [tie, link_attach]
    exact getD_push_size _ _ _
  constructor
  case index =>
    rw [tie, size_links_attach]
    exact hbound.index
  case target =>
    refine ⟨p, by rwa [tie, configuration_attach], by rw [hlink]; rfl, ?_⟩
    rw [tie, hnotes.side, side_param_attach (hnotes.side ▸ (h.entries f hf).side) hbound,
      if_pos ⟨rfl, rfl⟩, count_append, count_eq_zero.mpr (hbound.unlisted p side),
      count_singleton_self]
  all_goals rw [hlink]
  · exact hnotes.node
  · rfl
  · exact hnotes.name.symm.trans hcalled
  · exact hnotes.type
  · exact hnotes.guards
  · exact hnotes.location

section

variable (h : Ledger r side own calls b) (hside : side.isParam = true) {f : FutureLink}
  (hf : f ∈ b.future) {called : Name} (hcalled : f.name = some called.given)
  (hp : p ∈ (b.bench.model.configuration b.configuration).params.all)
  (hmore : NotedBy r side more (notesFor r side [f]))
include h hside hf hcalled hp hmore

theorem accounts_tie :
    (b.bench.model.tie f called p).Accounts b.configuration r side (calls ++ more) := by
  have hwaits := h.entries f hf
  have hbound := h.bound hf called (h.listed p hp)
  have hadd := b.bench.model.sameUses_addLink (f.link called p)
  have haccounts := h.accounts.of_sameUses hside h.grounded hadd
  have hlink : (b.bench.model.addLink (f.link called p)).1.link ⟨b.bench.model.links.size⟩ =
      f.link called p := getD_push_size _ _ _
  have hnew : (⟨b.bench.model.links.size⟩ : Ref .link) ∉
      ((b.bench.model.addLink (f.link called p)).1.inst r).side side := by
    exact fun hl => Nat.lt_irrefl _ (h.accounts.index hl)
  by_cases hown : f.node = r ∧ f.side = side
  · have hnotes : notesFor r side [f] = [f] := by simp [notesFor, hown]
    rw [hnotes] at hmore
    obtain ⟨call, more, hcall, hnil, rfl⟩ := forall₂_cons_right_iff.mp hmore
    obtain rfl := forall₂_nil_right_iff.mp hnil
    obtain ⟨rfl, rfl⟩ := hown
    exact haccounts.attach_own hwaits.side hbound (by rw [hlink]; rfl) hnew
      (h.serves hf hcalled hp hcall)
  · have hnotes : notesFor r side [f] = [] := by simp [notesFor, hown]
    rw [hnotes] at hmore
    obtain rfl := forall₂_nil_right_iff.mp hmore
    rw [append_nil]
    exact haccounts.attach_other hwaits.side hbound hnew (by rwa [hlink])

theorem tie : Ledger r side own (calls ++ more)
      { b with bench := { b.bench with model := b.bench.model.tie f called p } } where
  known := by
    rw [Model.tie, size_configurations_attach]
    exact h.known
  listed := by
    rw [Model.tie, configuration_attach, size_params_attach]
    exact h.listed
  grounded := by
    have hgrounded := h.grounded.of_sameUses (b.bench.model.sameUses_addLink (f.link called p))
    exact hgrounded.attach (h.entries f hf).side (h.bound hf called (h.listed p hp))
  entries f' hf' := by
    obtain ⟨hindex, hhome, hside', hplain⟩ := h.entries f' hf'
    refine ⟨?_, ?_, hside', hplain⟩
    · rwa [count, Model.tie, size_instances_attach]
    · rw [Model.tie, configuration_inst_attach]
      exact hhome
  program := (paramCalls_attach _ _ _ r side).trans h.program
  accounts := h.accounts_tie hside hf hcalled hp hmore

end

theorem listParam (h : Ledger r side own calls b) (hside : side.isParam = true)
    (hp : p.index < b.bench.model.params.size) : Ledger r side own calls
      { b with bench := { b.bench with model := (b.bench.model.listParam p).1 } } := by
  have hrest := (b.bench.model.sameUses_listParam p).resting (b.bench.model.quiet_listParam p)
  refine h.resting hside ⟨rfl, ⟨rfl, rfl⟩, rfl, hrest⟩ fun q hq => ?_
  rcases mem_listParam hq with hmem | rfl
  · exact h.listed q hmem
  · exact hp

theorem make (h : Ledger r side own calls b) (hside : side.isParam = true) (hf : f ∈ b.future) {u}
    (hexec : (onBench f.make).exec b = (.ok u, b'))
    (hmore : NotedBy r side more (notesFor r side [f])) :
    Ledger r side own (calls ++ more) b' ∧ b'.future = b.future := by
  rw [exec_onBench] at hexec
  rcases hw : f.make.exec b.bench with ⟨e | u', w⟩ <;> rw [hw] at hexec <;> cases hexec
  have hwaits := h.entries f hf
  obtain ⟨m, called, p, hcalled, rfl, hm⟩ := FutureLink.make_ok hwaits.plain hw
  rw [hwaits.home] at hm
  refine ⟨?_, rfl⟩
  rcases hm with ⟨rfl, hp⟩ | ⟨name, rfl, rfl⟩
  · exact h.tie hside hf hcalled hp hmore
  · have hall := b.bench.model.params_enterParam b.configuration name f.type h.known
    have hentered : Ledger r side own calls { b with bench := { b.bench with
        model := b.bench.model.enterParam b.configuration name f.type } } := by
      refine h.resting hside ⟨rfl, ⟨rfl, rfl⟩, rfl, resting_enterParam _ _ _ _⟩ fun p hp => ?_
      rw [hall] at hp
      rw [size_params_enterParam]
      rcases mem_append.mp hp with hp | hp
      · exact Nat.lt_succ_of_lt (h.listed p hp)
      · rw [mem_singleton.mp hp]
        exact Nat.lt_succ_self _
    refine hentered.tie hside hf hcalled ?_ hmore
    rw [hall]
    exact mem_append_right _ mem_cons_self

end Ledger

section Settle

variable {r : Ref .inst} {side : LinkSide} {own calls more : List Call} {fs : List FutureLink}

/-- At the end of a launch file, the account of a node instance grows by the calls that were noted
for it. -/
theorem meets_settleParams (hside : side.isParam = true)
    (hmore : NotedBy r side more (notesFor r side fs)) :
    Meets (fun b => Ledger r side own calls b ∧ b.future = fs ∧
        ∀ p ∈ b.bench.params, p.index < b.bench.model.params.size)
      (fun _ b => Ledger r side own (calls ++ more) b ∧ b.future = fs) (fun _ _ => True)
      settleParams := by
  refine meets_get fun b₀ hb₀ => ?_
  refine Meets.bind (Q := fun _ b => Ledger r side own calls b ∧ b.future = fs) ?_
    fun _ => meets_get fun b₁ hb₁ => ?_
  · refine ((meets_forIn (I := fun ps b => Ledger r side own calls b ∧ b.future = fs ∧
      ∀ p ∈ ps, p.index < b.bench.model.params.size) fun p ps _ b hb => ?_).pre ?_).post
        fun _ b hb => ⟨hb.1, hb.2.1⟩
    · obtain ⟨hledger, hfs, hps⟩ := hb
      obtain ⟨hp, hps⟩ := forall_mem_cons.mp hps
      exact ⟨⟨_, rfl⟩, hledger.listParam hside hp, hfs, hps⟩
    · rintro _ rfl
      exact hb₀
  refine ((meets_forIn (I := fun todo b => (∃ done left, Ledger r side own done b ∧
    done ++ left = calls ++ more ∧
      NotedBy r side left (notesFor r side todo)) ∧
    b.future = fs ∧ ∀ f ∈ todo, f ∈ fs) fun f todo _ b hb => ?_).pre ?_).bind
      fun _ => meets_pure fun b hb => ?_
  rotate_left
  · rintro _ rfl
    exact ⟨⟨calls, more, hb₁.1, rfl, hb₁.2 ▸ hmore⟩, hb₁.2, fun f hf => hb₁.2 ▸ hf⟩
  · obtain ⟨⟨done, left, hledger, htotal, hleft⟩, hfs, -⟩ := hb
    obtain rfl := forall₂_nil_right_iff.mp hleft
    rw [append_nil] at htotal
    exact ⟨htotal ▸ hledger, hfs⟩
  · obtain ⟨⟨done, left, hledger, htotal, hleft⟩, hfs, hmem⟩ := hb
    obtain ⟨hf, hmem⟩ := forall_mem_cons.mp hmem
    rw [exec_bind]
    rcases hexec : (onBench f.make).exec b with ⟨e | u, b'⟩
    · trivial
    · -- the calls for this entry, and those for the entries to come
      rw [show f :: todo = [f] ++ todo from rfl, notesFor_append] at hleft
      have hnow := forall₂_take_append _ _ _ hleft
      have hlater := forall₂_drop_append _ _ _ hleft
      obtain ⟨hledger', hfs'⟩ := hledger.make hside (hfs.symm ▸ hf) hexec hnow
      refine ⟨⟨_, rfl⟩, ⟨_, _, hledger', ?_, hlater⟩, hfs'.trans hfs, hmem⟩
      rw [append_assoc, take_append_drop, htotal]

end Settle

/-! ## Launch files -/

theorem index_of_absolute {m : Model} (h : m.Absolute p) : p.index < m.params.size := by
  obtain ⟨x, hx, -⟩ := h
  exact (Array.getElem?_eq_some_iff.mp hx).1

theorem listed_of_reachable {b : Builder} (h : Reachable b) :
    ∀ p ∈ (b.bench.model.configuration b.configuration).params.all,
      p.index < b.bench.model.params.size :=
  fun p hp => index_of_absolute ((absolute_of_reachable h).bench.listed.params p hp)

theorem resting_updateConfiguration (m c) {g} (hnodes : ∀ k, (g k).nodes = k.nodes)
    (htopics : ∀ k, (g k).topics = k.topics) (hparams : ∀ k, (g k).params = k.params) :
    Resting m (m.updateConfiguration c g) := by
  refine (m.sameUses_updateConfiguration c ?_).resting (.updateConfiguration hnodes htopics rfl)
  rw [hparams]
  exact List.Subset.refl _

theorem along_enlist (f : Ref .file) (b : Builder) : Along Resting b (b.enlist f) :=
  ⟨rfl, ⟨rfl, rfl⟩, rfl,
    resting_updateConfiguration _ _ (fun _ => rfl) (fun _ => rfl) fun _ => rfl⟩

theorem along_of_refused {f b b'} (h : (addLaunch f).exec b = (.ok false, b')) :
    Along Resting b b' := by
  rcases exists_of_addLaunch h with ⟨-, -, errors, rfl⟩ | ⟨hdone, -⟩
  · have henlist := along_enlist f b
    exact ⟨rfl, ⟨rfl, rfl⟩, rfl, henlist.model⟩
  · cases hdone

section Launch

variable {f : Ref .file} {b b' : Builder} {r : Ref .inst} {side : LinkSide} {own : List Call}
  {n : Nat}

theorem Reachable.of_launch (hr : Reachable b) {done} (h : (addLaunch f).exec b = (done, b')) :
    Reachable b' := by
  have hlaunch := hr.launch f
  rwa [h] at hlaunch

theorem inOrder_of_tags (hr : Reachable b) (hb : InOrder b) {ts s}
    (h : (analyse (includeFile nesting) ts { configuration := b.configuration, launch := f }).exec
      ((b.enlist f).launching f) = (.ok s, b')) :
    InOrder b' ∧ Underway ((b.enlist f).launching f) [] b' ∧
      ∀ p ∈ b'.bench.params, p.index < b'.bench.model.params.size := by
  have huses := (along_enlist f b).model.toSameUses
  have hstart : Underway ((b.enlist f).launching f)
      [{ configuration := b.configuration, launch := f }] ((b.enlist f).launching f) :=
    .start (fun f' hf' => (hb.entries f' hf').mono rfl huses) rfl rfl rfl
  have hsteps := steps_underway ((b.enlist f).launching f)
  have hunder := (hsteps.analyse (hsteps.includeFile nesting) ts _ []).of_ok hstart h
  have hnames := (upkeep_nameDemands b.configuration).invariant
  have habsolute := (hnames.analyse nesting ts _ []).of_ok
    (hnames.launching f (hnames.enlist f (absolute_of_reachable hr))) h
  have hinv := invariant_sound b.configuration
  have hsound := (hinv.analyse nesting ts _ []).of_ok
    (hinv.launching f (hinv.enlist f (sound_of_reachable hr))) h
  refine ⟨⟨?_, fun p hp => ?_, ?_, hunder.entries⟩, hunder.close (node_analyse _ _ _ _ _ _ h),
    fun p hp => index_of_absolute (habsolute.bench.params p hp)⟩
  · rw [hsound.configuration]
    exact hsound.bench.listed.configuration
  · rw [habsolute.configuration] at hp
    exact index_of_absolute (habsolute.bench.listed.params p hp)
  · exact (hb.grounded.of_sameUses huses).of_sameUses hunder.uses

/-- A launch file that was used. Once its tags are worked through, the account of each node instance
grows by the calls for which there are entries in the queue. -/
theorem exists_of_launch (hr : Reachable b) (hb : InOrder b)
    (h : (addLaunch f).exec b = (.ok true, b')) :
    ∃ b₁, Underway ((b.enlist f).launching f) [] b₁ ∧ InOrder b₁ ∧ b'.count = b₁.count ∧
      b'.future = b₁.future ∧ ∀ r side own calls more, side.isParam = true →
        Ledger r side own calls b₁ →
        NotedBy r side more (notesFor r side b₁.future) →
        Ledger r side own (calls ++ more) b' := by
  have hlisted := listed_of_reachable (hr.of_launch h)
  rcases exists_of_addLaunch h with ⟨hdone, -⟩ | ⟨-, tree, b₂, -, hrun, packages, environment, rfl⟩
  · cases hdone
  obtain ⟨s, b₁, htags, hsettle⟩ := exists_of_runLaunch hrun
  obtain ⟨horder, hunder, hparams⟩ := inOrder_of_tags hr hb htags
  have hquiet : Along Quiet b₁ (settleParams.exec b₁).2 :=
    along_settleParams fun f hf m l => Steady.attachParam m l (horder.entries f hf).side
  rw [hsettle] at hquiet
  refine ⟨b₁, hunder, horder, hquiet.model.size_instances, hquiet.future, ?_⟩
  intro r side own calls more hside hledger hmore
  obtain ⟨hledger', -⟩ := (meets_settleParams hside hmore).of_ok ⟨hledger, rfl, hparams⟩ hsettle
  refine hledger'.resting hside ⟨rfl, ⟨rfl, rfl⟩, rfl, ?_⟩ hlisted
  exact resting_updateConfiguration _ _ (fun _ => rfl) (fun _ => rfl) fun _ => rfl

theorem InOrder.launch (hr : Reachable b) (hb : InOrder b) {done}
    (h : (addLaunch f).exec b = (.ok done, b')) : InOrder b' := by
  have hlisted := listed_of_reachable (hr.of_launch h)
  cases done with
  | false => exact hb.resting (along_of_refused h) hlisted
  | true =>
    obtain ⟨b₁, -, hb₁, -, -, hgrow⟩ := exists_of_launch hr hb h
    -- a node instance that is not there has nothing in the queue
    have hnone : notesFor ⟨b₁.count⟩ .reads b₁.future = [] :=
      notesFor_eq_nil fun f hf hnode _ => by
        have hlt := (hb₁.entries f hf).index
        rw [hnode] at hlt
        exact Nat.lt_irrefl _ hlt
    refine (hgrow ⟨b₁.count⟩ .reads _ [] [] rfl ⟨hb₁, rfl, ?_⟩ (hnone ▸ .nil)).toInOrder
    exact accounts_nil hb₁.grounded (Nat.le_refl _)

/-- The calls `own` of a node instance on a side have been linked `n` times, and they are still in
the queue. -/
structure Served (r : Ref .inst) (side : LinkSide) (own : List Call) (n : Nat) (b : Builder) : Prop
    extends Ledger r side own (List.replicate n own).flatten b where
  index : r.index < b.count
  noted : List.Forall₂ (fun call f => f.Notes r side call) own (notesFor r side b.future)

theorem served_of_launch (hr : Reachable b) (hb : InOrder b) (hside : side.isParam = true)
    (h : (addLaunch f).exec b = (.ok true, b')) (hlo : b.count ≤ r.index) (hhi :
      r.index < b'.count) :
    Served r side (b'.bench.model.callsOf r side) 1 b' := by
  obtain ⟨b₁, hunder, hb₁, hcount, hfuture, hgrow⟩ := exists_of_launch hr hb h
  have huses := (along_enlist f b).model.toSameUses
  have hnone : b₁.bench.model.Accounts b₁.configuration r side [] :=
    (accounts_nil (hb.grounded.of_sameUses huses) hlo).of_sameUses hside
      (hb.grounded.of_sameUses huses) hunder.uses
  have hnotes := hunder.queued r hlo (hcount ▸ hhi) not_mem_nil side hside
  have hledger := hgrow r side _ [] _ hside ⟨hb₁, rfl, hnone⟩ hnotes
  rw [hledger.program]
  refine ⟨?_, hhi, hfuture ▸ hnotes⟩
  simpa using hledger

theorem Served.launch (hr : Reachable b) (hside : side.isParam = true) (hb : Served r side own n b)
    {done} (h : (addLaunch f).exec b = (.ok done, b')) :
    Served r side own (n + done.toNat) b' := by
  cases done with
  | false =>
    have hlisted := listed_of_reachable (hr.of_launch h)
    have ha := along_of_refused h
    refine ⟨hb.toLedger.resting hside ha hlisted, ?_, ha.future ▸ hb.noted⟩
    exact Nat.lt_of_lt_of_le hb.index ha.model.size_instances
  | true =>
    obtain ⟨b₁, hunder, hb₁, hcount, hfuture, hgrow⟩ := exists_of_launch hr hb.toInOrder h
    have huses := (along_enlist f b).model.toSameUses
    have hindex : r.index < b₁.count := Nat.lt_of_lt_of_le hb.index hunder.uses.size_instances
    have hown : b₁.bench.model.callsOf r side = own := by
      rw [callsOf, hunder.uses.node r hb.index, hunder.uses.calls]
      exact ((along_enlist f b).model.callsOf r side).trans hb.program
    have haccounts : b₁.bench.model.Accounts b₁.configuration r side
        (replicate n own).flatten := by
      rw [hunder.configuration]
      exact (hb.accounts.of_sameUses hside hb.grounded huses).of_sameUses hside
        (hb.grounded.of_sameUses huses) hunder.uses
    -- the entries that the file adds are for its own nodes
    have hnoted : notesFor r side b₁.future = notesFor r side b.future := by
      obtain ⟨new, hnew, hlater⟩ := hunder.queue
      have hnone : notesFor r side new = [] := notesFor_eq_nil fun f' hf' hnode _ => by
        have hle := hlater f' hf'
        rw [hnode] at hle
        exact absurd hb.index (Nat.not_lt_of_le hle)
      rw [hnew, notesFor_append, hnone, append_nil]
      rfl
    have hnotes := hnoted.symm ▸ hb.noted
    refine ⟨?_, hcount ▸ hindex, hfuture ▸ hnotes⟩
    have hledger := hgrow r side own _ own hside ⟨hb₁, hown, haccounts⟩ hnotes
    rwa [Bool.toNat_true, replicate_succ', flatten_append, flatten_singleton]

theorem launches_keep {I : List Bool → Builder → Prop}
    (hI : ∀ bs f done b b', Reachable b → I bs b → (addLaunch f).exec b = (.ok done, b') →
      I (bs ++ [done]) b') (hr : Reachable b) (hb : I [] b) {fs : List (Ref .file)} {bs : List Bool}
    (h : (fs.mapM addLaunch).exec b = (.ok bs, b')) : Reachable b' ∧ I bs b' := by
  refine (meets_mapM (E := fun _ _ => True) (I := fun bs b => Reachable b ∧ I bs b)
    fun f _ bs b hb => ?_).of_ok ⟨hr, hb⟩ h
  rcases hexec : (addLaunch f).exec b with ⟨e | done, b'⟩
  · trivial
  · exact ⟨hb.1.of_launch hexec, hI bs f done b b' hb.1 hb.2 hexec⟩

theorem Served.launches (hr : Reachable b) (hside : side.isParam = true)
    (hb : Served r side own n b)
    {fs : List (Ref .file)} {bs : List Bool} (h : (fs.mapM addLaunch).exec b = (.ok bs, b')) :
    Served r side own (n + bs.count true) b' := by
  refine (launches_keep (I := fun bs => Served r side own (n + bs.count true)) ?_ hr hb h).2
  intro bs f done b b' hr hb h
  have hserved := hb.launch hr hside h
  rw [count_append]
  cases done <;> exact hserved

end Launch

/-- A configuration is made up of the launch files `before`, `f` and `after`, and the node instance
`r` was started by `f`. Then `r` has a link for each call of its program to a parameter, and so has
the parameter, once for `f` and once more for every later file that was used. -/
theorem paramLinks_of_launches {b₀ b₁ b₂ b₃ : Builder} {before after : List (Ref .file)}
    {f : Ref .file} {earlier later : List Bool} (hstart : Reachable b₀)
    (hgrounded : b₀.bench.model.Grounded) (hempty : b₀.future = [])
    (hbefore : (before.mapM addLaunch).exec b₀ = (.ok earlier, b₁))
    (hlaunch : (addLaunch f).exec b₁ = (.ok true, b₂))
    (hafter : (after.mapM addLaunch).exec b₂ = (.ok later, b₃)) {r : Ref .inst}
    (hlo : b₁.count ≤ r.index) (hhi : r.index < b₂.count) {side : LinkSide}
    (hside : side.isParam = true) :
    b₃.bench.model.Accounts b₃.configuration r side
      (List.replicate (1 + later.count true) (b₃.bench.model.callsOf r side)).flatten := by
  have hb₀ : InOrder b₀ := by
    have hsound := sound_of_reachable hstart
    refine ⟨hsound.bench.listed.configuration, listed_of_reachable hstart, hgrounded, ?_⟩
    rw [hempty]
    exact forall_mem_nil _
  obtain ⟨hr₁, hb₁⟩ := launches_keep (I := fun _ => InOrder)
    (fun _ _ _ _ _ hr hb h => hb.launch hr h) hstart hb₀ hbefore
  have hserved := (served_of_launch hr₁ hb₁ hside hlaunch hlo hhi).launches (hr₁.of_launch hlaunch)
    hside hafter
  rw [hserved.program]
  exact hserved.accounts

/-- A program that reads one parameter and writes another, and three launch files. The first starts
the program, the second could not be read and the third is empty. -/
def shop : Model where
  packages := #[{ name := "shop" }]
  files := #[
    launchFile "shop" "open.launch"
      (some (.tag .launch "" ⟨[]⟩ [startTag "shop" "clerk" "one"])),
    launchFile "shop" "torn.launch" none,
    launchFile "shop" "close.launch" (some (.tag .launch "" ⟨[]⟩ []))]
  nodes := #[
    { name := "clerk", package := ⟨0⟩, packageName := "shop"
      readParam :=
        [{ name := some "price", guards := ⟨0⟩ }, { name := some "~till", guards := ⟨0⟩ }]
      writeParam := [{ name := some "~till", guards := ⟨0⟩ }] }]
  guards := #[[]]

def trading : Builder where
  files := default
  bench := { model := (shop.addConfiguration { name := "shop" }).1 }
  configuration := (shop.addConfiguration { name := "shop" }).2
  catalogue :=
    { packages := ⟨[("shop", ⟨0⟩)]⟩, files := [⟨0⟩, ⟨1⟩, ⟨2⟩]
      nodes := ⟨[("node:shop/clerk", ⟨0⟩)]⟩ }
  search := .across []

def traded : Builder := ((addLaunch ⟨0⟩).exec trading).2

def closed : Builder := (([⟨1⟩, ⟨2⟩].mapM addLaunch).exec traded).2

/-- Both calls that read are linked twice, and so is the one that writes. -/
theorem paramLinks_of_launches_closed :
    (closed.bench.model.inst ⟨0⟩).reads = [⟨0⟩, ⟨1⟩, ⟨3⟩, ⟨4⟩] ∧
    (closed.bench.model.callsOf ⟨0⟩ .reads).map Call.name = [some "price", some "~till"] ∧
    closed.bench.model.Accounts closed.configuration ⟨0⟩ .reads
      (List.replicate 2 (closed.bench.model.callsOf ⟨0⟩ .reads)).flatten ∧
    closed.bench.model.Accounts closed.configuration ⟨0⟩ .writes
      (List.replicate 2 (closed.bench.model.callsOf ⟨0⟩ .writes)).flatten := by
  have hstart : Reachable trading := .start shop _ _ _ _ _ _ _ _
  have hgrounded : trading.bench.model.Grounded := by
    intro p side l hl
    cases side <;> exact absurd hl not_mem_nil
  have hran : ((addLaunch ⟨0⟩).exec trading).1 = .ok true ∧
      (([⟨1⟩, ⟨2⟩].mapM addLaunch).exec traded).1 = .ok [false, true] ∧
      trading.count = 0 ∧ traded.count = 1 := by decide +kernel
  have hbefore : (([] : List (Ref .file)).mapM addLaunch).exec trading = (.ok [], trading) := rfl
  have hlaunch : (addLaunch ⟨0⟩).exec trading = (.ok true, traded) := by
    rw [traded, ← hran.1]
  have hafter : ([⟨1⟩, ⟨2⟩].mapM addLaunch).exec traded = (.ok [false, true], closed) := by
    rw [closed, ← hran.2.1]
  have hlo : trading.count ≤ 0 := Nat.le_of_eq hran.2.2.1
  have hhi : 0 < traded.count := Nat.lt_of_lt_of_eq Nat.zero_lt_one hran.2.2.2.symm
  refine ⟨by decide +kernel, by decide +kernel, ?_⟩
  exact ⟨paramLinks_of_launches hstart hgrounded rfl hbefore hlaunch hafter hlo hhi rfl,
    paramLinks_of_launches hstart hgrounded rfl hbefore hlaunch hafter hlo hhi rfl⟩

/-- The queue is never emptied. A launch file without tags links the one call for `price` again, so
the node and the parameter have two links for it. -/
theorem call_linked_twice :
    (closed.bench.model.callsOf ⟨0⟩ .reads).countP (·.name = some "price") = 1 ∧
    ((closed.bench.model.inst ⟨0⟩).reads.filter
      fun l => (closed.bench.model.link l).name.given = "price") = [⟨0⟩, ⟨3⟩] ∧
    (closed.bench.model.param ⟨0⟩).reads = [⟨0⟩, ⟨3⟩] := by
  decide +kernel

end Builder

end RosAudit
