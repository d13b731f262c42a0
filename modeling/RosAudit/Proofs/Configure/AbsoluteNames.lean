import RosAudit.Proofs.Configure.Linker
import RosAudit.Proofs.Configure.Upkeep
import RosAudit.Proofs.Model.AbsoluteNames

/-!
# Only absolute names enter a configuration

A launch file speaks of resources by relative, private and global names, in namespaces that are
themselves written relative to others. Parameters come from data whose keys may be of any kind, and
renamings change names once more. `nameDemands` says that nothing relative is left : not in what the
configuration lists, not in the parameters that wait to be listed, not in the links that are noted
for later, and not in the namespaces and renamings of the open scopes. Every step of the work on a
launch file keeps it (`upkeep_nameDemands`).
-/

namespace RosAudit

open Job Model LaunchScope List

/-! ## Scopes -/

/-- A link that is noted for later is made in absolute namespaces. -/
structure FutureLink.Absolute (f : FutureLink) (m : Model) : Prop where
  node : m.Absolute f.node
  resolvedSpace : IsAbsolute f.resolvedSpace
  privateSpace : IsAbsolute f.privateSpace

/-- The namespaces and the renamings of a scope are absolute. -/
structure LaunchScope.Absolute (s : LaunchScope) (m : Model) : Prop where
  space : IsAbsolute s.space
  remaps : s.remaps.Absolute
  node : ∀ n, s.node = some n → m.Absolute n
  future : ∀ f ∈ s.future, f.Absolute m

theorem FutureLink.Absolute.keeps {f : FutureLink} {m m'} (h : f.Absolute m) (hm : Keeps m m') :
    f.Absolute m' :=
  { h with node := hm.resource _ h.node }

namespace LaunchScope

variable {s : LaunchScope} {m : Model}

section

variable (h : s.Absolute m)
include h

theorem Absolute.keeps {m'} (hm : Keeps m m') : s.Absolute m' :=
  { h with
    node := fun n hn => hm.resource n (h.node n hn)
    future := fun f hf => (h.future f hf).keeps hm }

theorem Absolute.of_core {s' : LaunchScope} (hs : s'.core = s.core) : s'.Absolute m := by
  have hcore : s.core.Absolute m := ⟨h.space, h.remaps, h.node, h.future⟩
  rw [← hs] at hcore
  exact ⟨hcore.space, hcore.remaps, hcore.node, hcore.future⟩

theorem Absolute.privateSpace : IsAbsolute (s.privateSpace m) := by
  unfold LaunchScope.privateSpace
  split
  · rename_i n hn
    exact ((h.node n hn).getD default).name
  · exact h.space

theorem Absolute.remapsIn : (s.remapsIn m).Absolute := by
  unfold LaunchScope.remapsIn
  split
  · rename_i n hn
    exact ((h.node n hn).getD default).remaps
  · exact h.remaps

variable {ns : Option String}

theorem Absolute.namespaceOf {space} (hns : s.namespaceOf m ns = .ok space) : IsAbsolute space := by
  unfold LaunchScope.namespaceOf at hns
  split at hns
  · cases hns
    exact h.space
  · exact Name.isAbsolute_resolve h.space.isRooted (.inl rfl) hns

theorem Absolute.resolveSpace {space} (hns : s.resolveSpace m ns = .ok space) :
    IsAbsolute space := by
  unfold LaunchScope.resolveSpace at hns
  split at hns
  · cases hns
    exact h.space
  · cases hns
    exact h.privateSpace
  · exact Name.isAbsolute_resolve h.space.isRooted h.privateSpace.isRooted hns

theorem Absolute.fullNames {source target x} (hx : s.fullNames m source target = .ok x) :
    IsAbsolute x.1 ∧ IsAbsolute x.2 := by
  have hresolve : ∀ {name full}, Name.resolve name s.space (s.privateSpace m) = .ok full →
      IsAbsolute full :=
    fun hfull => Name.isAbsolute_resolve h.space.isRooted h.privateSpace.isRooted hfull
  obtain ⟨source', hsource, hx⟩ := bind_eq_ok.mp hx
  obtain ⟨target', htarget, hx⟩ := bind_eq_ok.mp hx
  cases hx
  exact ⟨hresolve hsource, hresolve htarget⟩

theorem Absolute.child {guard launch inner} (hinner : s.child m ns guard launch = .ok inner)
    (m' : Model) :
    inner.Absolute m' := by
  obtain ⟨space, hspace, hinner⟩ := bind_eq_ok.mp hinner
  cases hinner
  exact ⟨h.namespaceOf hspace, h.remapsIn, fun _ hn => (nomatch hn), fun _ hf => (nomatch hf)⟩

theorem Absolute.nodeName {node name ns x} (hx : s.nodeName m node name ns = .ok x) :
    IsAbsolute x.1 ∧ IsAbsolute x.2.full := by
  obtain ⟨space, hspace, hx⟩ := bind_eq_ok.mp hx
  have hspace := h.namespaceOf hspace
  have hown : ∀ own, (do
      let full ← Name.make own space (s.privateSpace m)
      pure (space, full)) = .ok x → IsAbsolute x.1 ∧ IsAbsolute x.2.full := by
    intro own hx
    obtain ⟨full, hfull, hx⟩ := bind_eq_ok.mp hx
    cases hx
    exact ⟨hspace, Name.isAbsolute_make hspace.isRooted h.privateSpace.isRooted
      Remaps.absolute_empty hfull⟩
  split at hx
  · exact hown _ hx
  · exact hown _ hx
  · cases hx

end

end LaunchScope

/-! ## The workbench -/

/-- All names are absolute : those that the configuration `c` lists, those of the parameters that
wait to be listed and of the links noted for later, and those of the open scopes. -/
def nameDemands (c : Ref .configuration) : Demands where
  listed m := (m.configuration c).Absolute m
  param m p := m.Absolute p
  future m f := f.Absolute m
  scope m s := s.Absolute m

abbrev Workbench.Absolute (c : Ref .configuration) := (nameDemands c).OnBench

theorem Model.Keeps.kept {m m'} (h : Keeps m m') (c) :
    (nameDemands c).Kept m m' where
  listed := h.listed c
  param := h.resource
  future _ hf := hf.keeps h
  scope _ hs := hs.keeps h

section Bench

variable {c : Ref .configuration} {future : List FutureLink} {around : List LaunchScope}

theorem Workbench.Absolute.keeps {w : Workbench} {m} (h : w.Absolute c future around)
    (hm : Keeps w.model m) : Workbench.Absolute c future around { w with model := m } :=
  h.moved (hm.kept c) rfl

instance : Workbench.Follows Keeps (Keeping (Workbench.Absolute c future around)) where
  model _ _ hm h := h.keeps hm

instance : Making Keeps where
  addGuards m gs := m.keeps_addGuards gs
  extendGuards _ _ _ := .of_eq rfl rfl rfl rfl rfl
  guardTopic m r _ := m.keeps_updateTopic r fun _ => rfl
  guardService m r _ := m.keeps_updateService r fun _ => rfl
  addNode m x _ := m.keeps_addNode x
  addManifest m x p := m.keeps_addManifest x p
  addTopic m x := m.keeps_addTopic x
  addService m x := m.keeps_addService x
  addLink _ _ := .of_eq rfl rfl rfl rfl rfl
  makeParam m x _ := m.keeps_makeParam x

namespace LaunchScope

/-! ## Setting parameters -/

theorem keeping_setNew {p : Parameter} (hp : IsAbsolute p.name.full) (s : LaunchScope) (later) :
    Within (Keeping (Workbench.Absolute c future around)) (do
      let r ← change fun m => m.makeParam p
      s.hold later r) := by
  intro w h
  have hw : Workbench.Absolute c future around { w with model := (w.model.makeParam p).1 } :=
    h.keeps (w.model.keeps_makeParam p)
  exact hw.hold (holds_push_size hp) s later

variable {s : LaunchScope}

theorem keeping_setLeaves (hs : s ∈ around) (name v guards mayHold) :
    Within (Keeping (Workbench.Absolute c future around)) (s.setLeaves name v guards mayHold) := by
  refine Yields.keeping (Q := fun _ => True) (yields_get fun w hw => ?_)
  have hprivate := (hw.scopes s hs).privateSpace.isRooted
  refine Yields.after (within_ofResult _) fun leaves => ?_
  refine Yields.after (within_change fun m => m.keeps_addGuards guards) fun g => ?_
  refine yields_foldlM (fun s' leaf _ => ?_) leaves trivial
  refine Yields.bind (P := fun full : Name => IsAbsolute full.full)
    (yields_ofResult fun full hfull => ?_)
    fun full hfull => (keeping_setNew hfull s' _).yields (returns_true _)
  split at hfull
  · exact Name.isAbsolute_make (.inr (by decide)) (.inr (by decide)) Remaps.absolute_empty hfull
  · exact Name.isAbsolute_make hprivate hprivate Remaps.absolute_empty hfull

theorem keeping_setParam (hs : s ∈ around) (name type text guard) :
    Within (Keeping (Workbench.Absolute c future around)) (s.setParam name type text guard) := by
  unfold setParam
  extract_lets converted
  rcases converted with u | ⟨value, type⟩
  · exact within_pure _
  · refine of_ite ?_ ?_
    · exact (keeping_setLeaves hs _ _ _ _).bind fun s => within_pure _
    · refine Yields.keeping (Q := fun _ => True) (yields_get fun w hw => ?_)
      have hprivate := (hw.scopes s hs).privateSpace.isRooted
      refine Yields.bind (P := fun full : Name => IsAbsolute full.full)
        (yields_ofResult fun full hfull =>
          Name.isAbsolute_make hprivate hprivate Remaps.absolute_empty hfull) fun full hfull => ?_
      refine Yields.after (within_change fun m => m.keeps_addGuards _) fun g => ?_
      rw [← bind_assoc]
      exact Yields.after (keeping_setNew hfull s _) fun _ => yields_pure trivial

end LaunchScope

/-! ## Finding and making resources -/

/-- Resources of a kind can be made and copied under any name. Under an absolute one they are
absolute, and then they can be listed. -/
structure ResourceRules.Absolute {k : EntityKind} (rules : ResourceRules k) : Prop where
  create (m : Model) (c : Ref .configuration) (n : Name) (type : Option String) :
    Keeps m (rules.create m c n type).1
  created (m : Model) (c : Ref .configuration) {n : Name} (type : Option String)
    (h : IsAbsolute n.full) : (rules.create m c n type).1.Absolute (rules.create m c n type).2
  remap (m : Model) (r : Ref k) (n : Name) : Keeps m (rules.remap m r n).1
  remapped (m : Model) (r : Ref k) {n : Name} (h : IsAbsolute n.full) :
    (rules.remap m r n).1.Absolute (rules.remap m r n).2
  list (m : Model) {r : Ref k} (h : m.Absolute r) : Keeps m (rules.list m r).1

theorem absolute_topicRules : topicRules.Absolute where
  create m _ _ _ := (m.keeps_addGuards _).trans (keeps_addTopic _ _)
  created _ _ _ _ h := holds_push_size h
  remap m _ _ := (m.keeps_addGuards _).trans (keeps_addTopic _ _)
  remapped _ _ _ h := holds_push_size h
  list m _ h := m.keeps_updateConfiguration _ fun hc =>
    { hc with topics := m.absolute_add hc.topics h _ _ }

theorem absolute_serviceRules : serviceRules.Absolute where
  create m _ _ _ := (m.keeps_addGuards _).trans (keeps_addService _ _)
  created _ _ _ _ h := holds_push_size h
  remap m _ _ := (m.keeps_addGuards _).trans (keeps_addService _ _)
  remapped _ _ _ h := holds_push_size h
  list m _ h := m.keeps_updateConfiguration _ fun hc =>
    { hc with services := m.absolute_add hc.services h _ _ }

theorem absolute_paramRules : paramRules.Absolute where
  create m _ _ _ := (m.keeps_addGuards _).trans (keeps_makeParam _ _)
  created _ _ _ _ h := holds_push_size h
  remap m _ _ := (m.keeps_addGuards _).trans (keeps_makeParam _ _)
  remapped _ _ _ h := holds_push_size h
  list m _ h := m.keeps_listParam h

section Linking

variable {k : EntityKind} {rules : ResourceRules k}

theorem meets_new {make : Model → Model × Ref k} (hmake : ∀ m, Keeps m (make m).1)
    (hnew : ∀ m, (make m).1.Absolute (make m).2) :
    Meets (Workbench.Absolute c future around)
      (fun r w => w.Absolute c future around ∧ w.model.Absolute r)
      (fun _ => Workbench.Absolute c future around) (LaunchScope.change make) :=
  fun _ hw => ⟨hw.keeps (hmake _), hnew _⟩

theorem meets_list (hrules : rules.Absolute) {r} :
    Meets (fun w => w.Absolute c future around ∧ w.model.Absolute r)
      (fun _ => Workbench.Absolute c future around) (fun _ => Workbench.Absolute c future around)
      (LaunchScope.change fun m => rules.list m r) :=
  fun w hw => hw.1.keeps (hrules.list w.model hw.2)

theorem keeping_linkHints (hrules : rules.Absolute) {u : Usage}
    (hu : ∀ w, Workbench.Absolute c future around w → w.model.Absolute u.node) :
    ∀ hints : List (Ref k),
    Within (Keeping (Workbench.Absolute c future around)) (linkHints rules u hints)
  | [] => within_pure []
  | hint :: hints => by
    have hrest := keeping_linkHints hrules hu hints
    refine Yields.keeping (Q := fun _ => True) (yields_get fun w hw => ?_)
    have hremaps := ((hu w hw).getD default).remaps
    refine Yields.bind (P := fun name : Name => IsAbsolute name.full)
      (yields_ofResult fun name hname =>
        Name.isAbsolute_make isAbsolute_root.isRooted (.inl rfl) hremaps hname) fun name hname => ?_
    refine Meets.bind (meets_new (fun m => hrules.remap m hint name)
      fun m => hrules.remapped m hint hname) fun copy => of_ite ?_ ?_
    · exact (hrest.yields (returns_true _)).pre fun w hw => hw.1
    · refine (meets_list hrules).bind fun _ => Yields.after (bounded_linkTo u _).within fun l => ?_
      exact Yields.after hrest fun ls => yields_pure trivial

theorem keeping_linksFor (hrules : rules.Absolute) {u : Usage} (htarget : IsAbsolute u.target.full)
    (hu : ∀ w, Workbench.Absolute c future around w → w.model.Absolute u.node) (hints) :
    Within (Keeping (Workbench.Absolute c future around)) (linksFor rules u hints) := by
  refine within_get.bind fun w => ?_
  extract_lets m configuration known next
  have hnext : ∀ links, Within (Keeping (Workbench.Absolute c future around)) (next links) := by
    intro links
    refine of_ite (Yields.keeping (Q := fun _ => True) ?_) (within_pure links)
    refine Meets.bind (meets_new (fun m => hrules.create m _ _ _)
      fun m => hrules.created m _ _ htarget) fun r => ?_
    refine (meets_list hrules).bind fun _ => Yields.after (bounded_linkTo u r).within fun l => ?_
    exact yields_pure trivial
  refine of_ite ?_ ?_
  · refine (within_ofResult _).bind fun pattern => ?_
    refine Within.bind (bounded_candidates _ _ _).within fun here => ?_
    refine (chains_within.mapM fun r _ => (bounded_linkTo u r).within).bind fun ls => ?_
    refine Within.bind (bounded_candidates _ _ _).within fun there => ?_
    refine (keeping_linkHints hrules hu there).bind fun ls' => ?_
    exact (within_pure _).bind hnext
  · split
    · exact (bounded_linkTo u _).within.bind fun l => (within_pure _).bind hnext
    · exact (within_pure _).bind hnext

end Linking

/-! ## The calls of a node -/

variable {s : LaunchScope}

theorem yields_usage (hs : s ∈ around) (name ns type queue guards location) :
    Yields (Workbench.Absolute c future around)
      (fun u => s.node = some u.node ∧ IsAbsolute u.target.full)
      (s.usage name ns type queue guards location) := by
  refine Yields.bind (P := fun n => s.node = some n) ?_ fun n hn => yields_get fun w hw => ?_
  · exact s.bounded_requireNode.within.yields s.returns_requireNode
  · have hscope := hw.scopes s hs
    refine Yields.after (within_ofResult _) fun called => ?_
    refine Yields.bind (P := IsAbsolute) (yields_ofResult fun space h => hscope.resolveSpace h)
      fun space hspace => ?_
    refine Yields.bind (P := fun target : Name => IsAbsolute target.full)
      (yields_ofResult fun target htarget => ?_) fun target htarget => yields_pure ⟨hn, htarget⟩
    have hremaps := ((hscope.node n hn).getD default).remaps
    exact Name.isAbsolute_make hspace.isRooted hscope.privateSpace.isRooted hremaps htarget

theorem absolute_uses {k} {rules : ResourceRules k} (hrules : rules.Absolute) (hs : s ∈ around) :
    s.Uses rules (Keeping (Workbench.Absolute c future around)) where
  use heach := by
    refine ⟨Yields.keeping (Q := fun _ =>
      True) ((yields_usage hs _ _ _ _ _ _).bind fun u hu => ?_), ?_⟩
    · have hnode : ∀ w, Workbench.Absolute c future around w → w.model.Absolute u.node :=
        fun w hw => (hw.scopes s hs).node _ hu.1
      refine Yields.after (keeping_linksFor hrules hu.2 hnode _) fun ls => ?_
      exact (heach ls).within.yields (returns_true _)
    · have hany : s.Uses rules (Workbench.Along Anyhow) := uses_of_drifts s
        ⟨fun _ _ _ _ => trivial, fun _ _ => trivial, fun _ _ _ => trivial⟩
      exact (hany.use fun ls => ⟨fun _ => trivial, (heach ls).throws⟩).throws

theorem keeping_make {f} (hf : f ∈ future) :
    Within (Keeping (Workbench.Absolute c future around)) f.make := by
  refine Yields.keeping (Q := fun _ => True) (yields_get fun w hw => ?_)
  have habsolute := hw.future f hf
  refine Yields.after (within_ofResult _) fun name =>
    Yields.after (within_ofResult _) fun called => ?_
  refine Yields.bind (P := fun target : Name => IsAbsolute target.full)
    (yields_ofResult fun target htarget => ?_) fun target htarget => ?_
  · have hremaps := (habsolute.node.getD default).remaps
    exact Name.isAbsolute_make habsolute.resolvedSpace.isRooted habsolute.privateSpace.isRooted
      hremaps htarget
  · refine Yields.after (keeping_linksFor absolute_paramRules htarget
      (fun w hw => (hw.future f hf).node) _) fun ls => ?_
    refine Yields.after (chains_within.forIn (fun l _ _ => ?_) _) fun _ => yields_pure trivial
    exact Within.bind (bounded_touch fun m => m.keeps_attach l _).within fun _ => within_pure _

theorem yields_noteParams (hs : s ∈ around) (reads writes) :
    Yields (Workbench.Absolute c future around)
      (fun s' => ∀ w : Workbench, w.Absolute c future around → s'.Absolute w.model)
      (s.noteParams reads writes) := by
  refine Yields.bind (P := fun n => s.node = some n)
    (s.bounded_requireNode.within.yields s.returns_requireNode) fun n hn =>
      yields_get fun w hw => ?_
  extract_lets m node note
  have hnote : ∀ side hints s' call,
      (∀ w : Workbench, w.Absolute c future around → s'.Absolute w.model) →
      Yields (Workbench.Absolute c future around)
        (fun s'' => ∀ w : Workbench, w.Absolute c future around → s''.Absolute w.model)
        (note side hints s' call) := by
    intro side hints s' call hs'
    refine Yields.bind (P := IsAbsolute) (yields_ofResult fun space h => (hs' w hw).resolveSpace h)
      fun space hspace => yields_pure fun w' hw' => ?_
    refine { hs' w' hw' with future := fun f hf => ?_ }
    rcases mem_append.mp hf with hf | hf
    · exact (hs' w' hw').future f hf
    · rw [mem_singleton.mp hf]
      exact ⟨(hw'.scopes s hs).node n hn, hspace, (hs' w hw).privateSpace⟩
  refine Yields.bind (yields_foldlM (hnote _ _) _ fun w hw => hw.scopes s hs) fun s' hs' => ?_
  exact yields_foldlM (hnote _ _) _ hs'

/-! ## Hints -/

theorem yields_link (hs : s ∈ around) (hints : Value) :
    Yields (Workbench.Absolute c future around)
      (fun s' => ∀ w : Workbench, w.Absolute c future around → s'.Absolute w.model)
      (Hints.link s hints) := by
  refine Yields.after (Hints.bounded_make s hints ?_ ?_).within fun h => ?_
  · exact fun c n type => within_change fun m => absolute_topicRules.create m c n type
  · exact fun c n type => within_change fun m => absolute_serviceRules.create m c n type
  have hattach := fun (m : Model) l {side : LinkSide} (_ : side.isTopic = true) =>
    m.keeps_attach l side
  refine Yields.after (bounded_makeTopics (absolute_uses absolute_topicRules hs) hattach _ _).within
    fun _ => ?_
  refine Yields.after (bounded_makeServices (absolute_uses absolute_serviceRules hs)
    (fun m l side _ => m.keeps_attach l side) _ _).within fun _ => ?_
  refine Yields.after (h.bounded_makeMissing (absolute_uses absolute_topicRules hs) hattach).within
    fun _ => ?_
  exact yields_noteParams hs _ _

/-! ## Opening the scope of a node -/

theorem meets_makeNode (hs : s ∈ around) (node name ns argv guard) :
    Meets (Workbench.Absolute c future around)
      (fun inner => Workbench.Absolute c future (inner :: around))
      (fun _ => Workbench.Absolute c future around) (s.makeNode node name ns argv guard) := by
  refine meets_get fun w hw => ?_
  have hscope := hw.scopes s hs
  have hname : Meets (· = w) (fun e w' => w' = w ∧ IsAbsolute e.1 ∧ IsAbsolute e.2.full)
      (fun _ => Workbench.Absolute c future around)
        (Job.ofResult (s.nodeName w.model node name ns)) :=
    meets_ofResult (fun _ _ hw' he => ⟨hw', hscope.nodeName he⟩) fun _ _ hw' => hw' ▸ hw
  refine hname.bind fun e => ?_
  rintro w' ⟨heq, hspace, hfull⟩
  subst heq
  have hx : ∀ g, NodeInstance.Absolute
      { configuration := s.configuration, name := e.2, node, launch := some s.launch, argv
        remaps := s.remapsIn w'.model, guards := g } := fun g => ⟨hfull, hscope.remapsIn⟩
  obtain ⟨hkeeps, hnew⟩ := w'.model.keeps_startInstance (s.guarded guard) hx
  refine (hw.keeps hkeeps).push ?_
  refine ⟨hspace, Remaps.absolute_empty, fun n hn => ?_, fun _ hf => (nomatch hf)⟩
  cases hn
  exact hnew

theorem meets_rename {source target} (hsource : IsAbsolute source) (htarget : IsAbsolute target) :
    Meets (Workbench.Absolute c future (s :: around))
      (fun s' => Workbench.Absolute c future (s' :: around))
      (fun _ => Workbench.Absolute c future (s :: around)) (s.rename source target) := by
  intro w hw
  unfold LaunchScope.rename
  cases hn : s.node with
  | some n =>
    refine hw.keeps (w.model.keeps_updateInstance n fun x hx => ?_)
    exact ⟨hx.name, hx.remaps.put hsource htarget⟩
  | none =>
    have hs := hw.scopes s mem_cons_self
    exact hw.close.push ⟨hs.space, hs.remaps.put hsource htarget, fun _ h => (nomatch h), hs.future⟩

end Bench

/-! ## Launch files -/

namespace Builder

theorem upkeep_nameDemands (c) : Upkeep (nameDemands c) c where
  addManifest m x := (m.keeps_addManifest x none).kept c
  addNode m n := (m.keeps_addNode n).kept c
  configured m c' f hf := by
    refine (m.keeps_updateConfiguration c' fun hk => ?_).kept c
    obtain ⟨hnodes, htopics, hservices, hparams⟩ := hf (m.configuration c')
    exact ⟨hnodes ▸ hk.nodes, htopics ▸ hk.topics, hservices ▸ hk.services, hparams ▸ hk.params⟩
  core h hs := h.of_core hs
  child h hinner := h.child hinner
  root _ _ := ⟨isAbsolute_root, Remaps.absolute_empty, fun _ hn => (nomatch hn),
    fun _ hf => (nomatch hf)⟩
  setParam name type text hs := keeping_setParam hs name type text none
  setDocument name ns document hs :=
    LaunchScope.within_setDocument_of _ (fun _ _ => keeping_setLeaves hs _ _ _ _) name ns document
  makeNode node name ns argv hs := meets_makeNode hs node name ns argv none
  rename hs hx := meets_rename (hs.fullNames hx).1 (hs.fullNames hx).2
  link v hs := (yields_link hs v).post fun _ w h => ⟨h.1, (h.2 w h.1).future⟩
  listParam {m p} _ hp := (m.keeps_listParam hp).kept c
  make hf := keeping_make hf

/-- The states that a builder can be in, with the scopes that are open there : between launch files
no scope is, and within one those that `Passing` says. -/
inductive Reached : List LaunchScope → Builder → Prop
  | between {b : Builder} (h : Reachable b) : Reached [] b
  | within {b b' : Builder} {f : Ref .file} {tree : LaunchTree} {inner : List LaunchScope}
    (h : Reachable b) (htree : (b.bench.model.file f).tree = some tree)
    (hpass : Passing nesting (tagsOf tree) { configuration := b.configuration, launch := f }
      ((b.enlist f).launching f) inner b') : Reached inner b'

theorem absolute_of_reachable {b} (h : Reachable b) :
    Meeting (nameDemands b.configuration) b.configuration [] b := by
  refine meeting_of_reachable upkeep_nameDemands (fun _ hnew => ?_) h
  simp only [nameDemands, hnew]
  exact ⟨fun _ h => (nomatch h), fun _ h => (nomatch h), fun _ h => (nomatch h),
    fun _ h => (nomatch h)⟩

/-- The names of all that a configuration lists begin at the root, and so do the namespaces of the
open scopes and both sides of every renaming. -/
structure OnlyAbsolute (around : List LaunchScope) (b : Builder) : Prop where
  nodes : ∀ r ∈ (b.bench.model.configuration b.configuration).nodes.all,
    IsAbsolute (b.bench.model.inst r).name.full
  topics : ∀ r ∈ (b.bench.model.configuration b.configuration).topics.all,
    IsAbsolute (b.bench.model.topic r).name.full
  services : ∀ r ∈ (b.bench.model.configuration b.configuration).services.all,
    IsAbsolute (b.bench.model.service r).name.full
  params : ∀ r ∈ (b.bench.model.configuration b.configuration).params.all,
    IsAbsolute (b.bench.model.param r).name.full
  spaces : ∀ s ∈ around, IsAbsolute s.space ∧ IsAbsolute (s.privateSpace b.bench.model)
  renamings : ∀ s ∈ around, ∀ e ∈ (s.remapsIn b.bench.model).entries, IsAbsolute e.1 ∧
    IsAbsolute e.2
  nodeRenamings : ∀ r ∈ (b.bench.model.configuration b.configuration).nodes.all,
    ∀ e ∈ (b.bench.model.inst r).remaps.entries, IsAbsolute e.1 ∧ IsAbsolute e.2

/-- Only absolute names enter a configuration. -/
theorem absolute_of_reached {b : Builder} {around : List LaunchScope} (h : Reached around b) :
    OnlyAbsolute around b := by
  have habsolute : b.bench.Absolute b.configuration b.future around := by
    cases h with
    | between h => exact (absolute_of_reachable h).bench
    | @within b₀ _ f _ _ h _ hpass =>
      have hkept := (upkeep_nameDemands b₀.configuration).invariant
      have hpassed := hkept.passing hpass
        (hkept.launching f (hkept.enlist f (absolute_of_reachable h)))
      rw [append_nil] at hpassed
      exact hpassed.configuration ▸ hpassed.bench
  have hlisted := habsolute.listed
  have hinst : ∀ r ∈ (b.bench.model.configuration b.configuration).nodes.all,
      (b.bench.model.inst r).Absolute := fun r hr => (hlisted.nodes r hr).getD default
  exact {
    nodes := fun r hr => (hinst r hr).name
    topics := fun r hr => (hlisted.topics r hr).getD default
    services := fun r hr => (hlisted.services r hr).getD default
    params := fun r hr => (hlisted.params r hr).getD default
    spaces := fun s hs => ⟨(habsolute.scopes s hs).space, (habsolute.scopes s hs).privateSpace⟩
    renamings := fun s hs => (habsolute.scopes s hs).remapsIn
    nodeRenamings := fun r hr => (hinst r hr).remaps }

def westAttrs : Table String Subst := ⟨[("ns", .text "~west")]⟩

def oneAttrs : Table String Subst :=
  ⟨[("pkg", .text "choir"), ("type", .text "sing"), ("name", .text "one")]⟩

def speechTag : LaunchTree := .tag .remap "" ⟨[("from", .text "words"), ("to", .text "~speech")]⟩ []

def pitchTags : List LaunchTree := [
  .tag .param "" ⟨[("name", .text "~pitch"), ("value", .text "5")]⟩ [],
  .tag .param "" ⟨[("name", .text "low/c"), ("value", .text "1")]⟩ [],
  .tag .param "" ⟨[("name", .text "/high"), ("value", .text "2")]⟩ []]

def choirTree : LaunchTree := .tag .launch "" ⟨[]⟩ [
  .tag .group "" westAttrs [speechTag, .tag .node "" oneAttrs pitchTags]]

/-- A program with a topic, a service and a parameter, and the launch file. -/
def choir : Builder where
  files := default
  bench := { model := ((
    { packages := #[{ name := "choir" }]
      files := #[
        launchFile "choir" "all.launch" (some choirTree)]
      nodes := #[
        { name := "sing", package := ⟨0⟩, packageName := "choir"
          advertise := [{ name := some "words", guards := ⟨0⟩ }]
          service := [{ name := some "~tune", guards := ⟨0⟩ }]
          readParam := [{ name := some "key", space := some "~", guards := ⟨0⟩ }] }]
      guards := #[[]] } : Model).addConfiguration { name := "choir" }).1 }
  configuration := ⟨0⟩
  catalogue :=
    { packages := ⟨[("choir", ⟨0⟩)]⟩, files := [⟨0⟩], nodes := ⟨[("node:choir/sing", ⟨0⟩)]⟩ }
  search := .across []

/-- The state after the launch file. -/
def sung : Builder := ((addLaunch ⟨0⟩).exec choir).2

/-- The work up to the tags inside the node : the group is opened, its renaming carried out, and the
node started. -/
def singing : Job Builder (List LaunchScope) := do
  let outer : LaunchScope := { configuration := ⟨0⟩, launch := ⟨0⟩ }
  let group ← openGroup westAttrs outer
  let group ← analyseTag (includeFile nesting) speechTag group
  let x ← startNode oneAttrs group
  pure [x.2, group, outer]

theorem reached_singing {inner b}
    (h : singing.exec ((choir.enlist ⟨0⟩).launching ⟨0⟩) = (.ok inner, b)) : Reached inner b := by
  have hchoir : Reachable choir := .start _ _ _ _ _ _ _ _ _
  obtain ⟨group, b₁, hgroup, h⟩ := exec_bind_ok.mp h
  obtain ⟨group', b₂, hremap, h⟩ := exec_bind_ok.mp h
  obtain ⟨x, b₃, hnode, h⟩ := exec_bind_ok.mp h
  cases h
  have hwest : ∀ b, (counts (Condition.of westAttrs)).exec b = (.ok true, b) := fun _ => rfl
  have hone : ∀ b, (counts (Condition.of oneAttrs)).exec b = (.ok true, b) := fun _ => rfl
  have htree : (choir.bench.model.file ⟨0⟩).tree = some choirTree := rfl
  exact .within hchoir htree
    (.inGroup (hwest _) hgroup (.later hremap (.inNode (hone _) hnode .start)))

/-- The parameters of the node are written relative, private and global, and they become absolute.
So do the names in the scopes of the node and the group, which are open while it gets them. -/
theorem absolute_of_reached_choir :
    OnlyAbsolute [] sung ∧ (sung.bench.model.params.toList.map fun p => p.name.full) =
      ["/west/one/pitch", "/west/one/low/c", "/high", "/west/one/key"] ∧
    ∃ inner b, singing.exec ((choir.enlist ⟨0⟩).launching ⟨0⟩) = (.ok inner, b) ∧
      (inner.map fun s => (s.privateSpace b.bench.model, s.remapsIn b.bench.model)) =
        [("/west/one", ⟨[("/west/words", "/west/speech")]⟩),
          ("/west", ⟨[("/west/words", "/west/speech")]⟩), ("/", ⟨[]⟩)] ∧
      OnlyAbsolute inner b := by
  have hsung : Reached [] sung := .between (.launch ⟨0⟩ (.start _ _ _ _ _ _ _ _ _))
  refine ⟨absolute_of_reached hsung, by decide +kernel, ?_⟩
  have hscopes : ((singing.exec ((choir.enlist ⟨0⟩).launching ⟨0⟩)).1.toOption.map fun inner =>
      inner.map fun s =>
        let m := (singing.exec ((choir.enlist ⟨0⟩).launching ⟨0⟩)).2.bench.model
        (s.privateSpace m, s.remapsIn m)) =
      some [("/west/one", ⟨[("/west/words", "/west/speech")]⟩),
        ("/west", ⟨[("/west/words", "/west/speech")]⟩), ("/", ⟨[]⟩)] := by decide +kernel
  rcases hsinging : singing.exec ((choir.enlist ⟨0⟩).launching ⟨0⟩) with ⟨f | inner, b⟩
  · rw [hsinging] at hscopes
    cases hscopes
  · rw [hsinging] at hscopes
    exact ⟨inner, b, rfl, Option.some.inj hscopes, absolute_of_reached (reached_singing hsinging)⟩

end Builder

end RosAudit
