import RosAudit.Proofs.Configure.WaitingParams

/-!
# Deleting what was loaded

A tag that deletes a parameter looks for it in the configuration, where the parameters of its own
file are not yet listed. A parameter that is listed there cannot be deleted either.
-/

namespace RosAudit

open Job Model LaunchScope List

variable {name full : String}

namespace LaunchScope

variable {s : LaunchScope}

def deletedName (s : LaunchScope) (m : Model) (name : String) (ns : Option String) :
    Result String :=
  let pns := s.privateSpace m
  Name.resolve name (joinName ((nonEmpty? ns).getD pns) pns) "/rosparam"

/-- Outside of conditions a deletion leaves all as it is and fails, whether the parameter is listed
or not. -/
theorem exec_deleteParam {ns w} (hguards : s.guards = [])
    (h : s.deletedName w.model name ns = .ok full) :
    (s.deleteParam name ns none).exec w =
      (.error (if (w.model.lookup (w.model.configuration s.configuration).params full).isNone then
        .configuration (.missingParameter full) else .noField), w) := by
  unfold deleteParam
  rw [exec_bind_of_ok (exec_get w)]
  have hfull : Name.resolve name (joinName ((nonEmpty? ns).getD (s.privateSpace w.model))
      (s.privateSpace w.model)) "/rosparam" = .ok full := h
  dsimp only
  rw [hfull, exec_bind_of_ok (exec_ofResult _ _)]
  have hopen : (s.guarded none).isEmpty = true := by rw [guarded, hguards]; rfl
  split <;> rfl

end LaunchScope

namespace Builder

/-! ## The tags -/

def Orders (t : LaunchTree) (b : Builder) (o : Order) (b' : Builder) : Prop :=
  ∃ text attrs b₀, t = .tag .rosparam text attrs [] ∧
    (counts (Condition.of attrs)).exec b = (.ok true, b₀) ∧
    (readOrder text attrs).exec b₀ = (.ok o, b')

section Orders

variable {t : LaunchTree} {b b' : Builder} {o : Order}

theorem Orders.consulted (h : Orders t b o b') : Consulted b b' := by
  obtain ⟨text, attrs, b₀, -, hcounts, hread⟩ := h
  exact trans_of Consulted ((within_counts _).of_exec hcounts)
    ((within_readOrder _ _).of_exec hread)

theorem Orders.exec_analyseTag (h : Orders t b o b') (go s) :
    (analyseTag go t s).exec b = (noting s (o.follow s)).exec b' := by
  obtain ⟨text, attrs, b₀, rfl, hcounts, hread⟩ := h
  rw [analyseTag]
  refine exec_noting_congr ?_
  unfold carryOut
  rw [exec_bind_of_ok hcounts]
  have htag : (rosparamTag text attrs s).exec b₀ = (o.follow s).exec b' := by
    rw [rosparamTag_eq, exec_bind_of_ok hread]
  exact htag

end Orders

/-- The tag loads these parameters. -/
def Loads (t : LaunchTree) (s : LaunchScope) (b : Builder) (ps : List (Name × Value)) : Prop :=
  ∃ name ns document b', Orders t b (.load name ns document) b' ∧
    s.documentParams b'.bench.model name ns document = .ok ps

/-- The tag deletes the parameter of this name. -/
def Deletes (t : LaunchTree) (s : LaunchScope) (b : Builder) (full : String) : Prop :=
  ∃ name ns b', Orders t b (.delete name ns) b' ∧ s.deletedName b'.bench.model name ns = .ok full

section Tags

variable {t : LaunchTree} {s : LaunchScope} {b : Builder}

theorem Loads.exec {ps} (h : Loads t s b ps) (go : Inclusion) : ∃ b',
    (analyseTag go t s).exec b = (.ok s, b') ∧ ∀ p ∈ ps, b'.bench.Waits s.configuration p := by
  obtain ⟨name, ns, document, b₁, horder, hps⟩ := h
  obtain ⟨w', hw', hwaits⟩ := exec_setDocument hps none
  refine ⟨{ b₁ with bench := w' }, ?_, hwaits⟩
  have hfollow : (Order.follow s (.load name ns document)).exec b₁ =
      (.ok s, { b₁ with bench := w' }) := by
    rw [Order.follow, exec_onBench, hw']
  rw [horder.exec_analyseTag, noting, exec_bind_of_ok (exec_attempt _ _), hfollow]
  rfl

theorem lookup_isNone {m : Model} {c} :
    (m.lookup (m.configuration c).params full).isNone = true ↔
      ∀ x ∈ (m.configuration c).params.all.map m.param, x.name.full ≠ full := by
  simp [Model.lookup, Model.id?, Ref.entity]

theorem exec_follow_delete {ns} (hguards : s.guards = []) (hc : s.configuration = b.configuration)
    (hfull : s.deletedName b.bench.model name ns = .ok full) :
    (Order.follow s (.delete name ns)).exec b =
      (.error (if (b.bench.model.lookup
        (b.bench.model.configuration b.configuration).params full).isNone then
          .configuration (.missingParameter full) else .noField), b) := by
  refine exec_bind_of_error ?_
  rw [exec_onBench, exec_deleteParam hguards hfull, hc]

theorem Deletes.exec_of_missing (h : Deletes t s b full) (hguards : s.guards = [])
    (hc : s.configuration = b.configuration) (hmissing : ∀ x ∈ b.listed, x.name.full ≠ full)
    (go : Inclusion) : ∃ b', (analyseTag go t s).exec b = (.ok s, b') ∧ b'.bench = b.bench ∧
      b'.configuration = b.configuration ∧
        b'.errors = b.errors ++ ["missing parameter: " ++ full] := by
  obtain ⟨name, ns, b₁, horder, hfull⟩ := h
  obtain ⟨context, -, rfl⟩ := horder.consulted
  have hfollow := exec_follow_delete hguards (b := { b with context := context }) hc hfull
  rw [if_pos (lookup_isNone.mpr hmissing)] at hfollow
  rw [horder.exec_analyseTag, exec_noting_of_note hfollow rfl]
  exact ⟨_, rfl, rfl, rfl, rfl⟩

theorem Deletes.exec_of_listed (h : Deletes t s b full) (hguards : s.guards = [])
    (hc : s.configuration = b.configuration) (hlisted : ∃ x ∈ b.listed, x.name.full = full)
    (go : Inclusion) : ∃ b', (analyseTag go t s).exec b = (.error .noField, b') := by
  obtain ⟨name, ns, b₁, horder, hfull⟩ := h
  obtain ⟨context, -, rfl⟩ := horder.consulted
  have hfollow := exec_follow_delete hguards (b := { b with context := context }) hc hfull
  obtain ⟨x, hx, hname⟩ := hlisted
  rw [if_neg fun hnone => lookup_isNone.mp hnone x hx hname] at hfollow
  rw [horder.exec_analyseTag, exec_noting_of_stops hfollow rfl]
  exact ⟨_, rfl⟩

end Tags

/-! ## Loading and deleting -/

section Launch

variable {b : Builder} {f : Ref .file} {tree : LaunchTree}

/-- A deletion never undoes a load. Some tag of a launch file, in any scope, loads parameters, and a
later tag in the scope deletes one of them. If the configuration did not list the name before the
file, the deletion is refused with a message, and all that was loaded is listed in the end, the
deleted parameter too. If it did, the deletion stops the launch. -/
theorem delete_never_undoes_load {n : Nat} {load del : LaunchTree} {mid rest : List LaunchTree}
    {s s' : LaunchScope} {b₀ b₁ : Builder} {ps : List (Name × Value)} {p : Name × Value}
    (hlanguage : (b.bench.model.file f).language = "launch")
    (htree : (b.bench.model.file f).tree = some tree)
    (hc : b.configuration.index < b.bench.model.configurations.size)
    (hlisted : ∀ r ∈ (b.bench.model.configuration b.configuration).params.all,
      r.index < b.bench.model.params.size)
    (hplace : (start f tree b).Leads ⟨n, load :: (mid ++ del :: rest), s, b₀⟩)
    (hload : Loads load s b₀ ps)
    (hmid : (analyse (includeFile n) (load :: mid) s).exec b₀ = (.ok s', b₁))
    (hp : p ∈ ps) (hdelete : Deletes del s' b₁ p.1.full) :
    ((∀ x ∈ b.listed, x.name.full ≠ p.1.full) →
      (∃ b₂, (analyseTag (includeFile n) del s').exec b₁ = (.ok s', b₂) ∧ b₂.bench = b₁.bench ∧
        b₂.errors = b₁.errors ++ ["missing parameter: " ++ p.1.full]) ∧
      ∀ b', (addLaunch f).exec b = (.ok true, b') →
        "missing parameter: " ++ p.1.full ∈ b'.errors ∧
        (∃ x ∈ b'.listed, x.name.full = p.1.full) ∧
        ∀ q ∈ ps, ∃ x ∈ b'.listed, x.name = q.1 ∧ x.value = q.2) ∧
    ((∃ x ∈ b.listed, x.name.full = p.1.full) →
      ∃ b', (addLaunch f).exec b = (.error .noField, b')) := by
  have hpast : (start f tree b).Leads ⟨n, del :: rest, s', b₁⟩ :=
    hplace.trans (Place.leads_past hmid)
  have hguards : s'.guards = [] := hpast.scope.guards
  have hsince : Since Eq (start f tree b).builder b₁ := hpast.builder
  have hconfiguration : b₁.configuration = b.configuration := hsince.configuration
  have hscope : s'.configuration = b₁.configuration :=
    hpast.scope.configuration.trans hconfiguration.symm
  have hnames : b₁.listed.map (·.name.full) = b.listed.map (·.name.full) := by
    unfold listed
    rw [hconfiguration]
    exact ((keepsParams_start f tree b).trans hsince.bench.model).names_listed hlisted
  refine ⟨fun hmissing => ?_, fun hfound => ?_⟩
  · have hmissing₁ : ∀ x ∈ b₁.listed, x.name.full ≠ p.1.full := by
      rw [← forall_mem_map (P := (· ≠ p.1.full)), hnames]
      exact forall_mem_map.mpr hmissing
    obtain ⟨b₂, htag, hbench, hb₂, herrors⟩ :=
      hdelete.exec_of_missing hguards hscope hmissing₁ (includeFile n)
    refine ⟨⟨b₂, htag, hbench, herrors⟩, fun b' hdone => ?_⟩
    -- what was loaded waits from the load to the deletion, which leaves the bench as it is
    obtain ⟨b₃, hloaded, hwaits⟩ := hload.exec (includeFile n)
    rw [analyse, exec_bind_of_ok hloaded] at hmid
    have hlater : Since Eq b₃ b₁ := (within_analyse _ _ _).of_exec hmid
    obtain ⟨hkept, hall⟩ := listed_of_addLaunch htree (hpast.tail (.past htag)) hc hdone
    have hthere : ∀ q ∈ ps, ∃ x ∈ b'.listed, x.name = q.1 ∧ x.value = q.2 := by
      intro q hq
      have hwait := hlater.bench.waits (hwaits q hq)
      rw [← hbench, hplace.scope.configuration] at hwait
      exact hall q hwait
    refine ⟨hkept.subset ?_, ?_, hthere⟩
    · rw [herrors]
      exact mem_append_right _ (mem_singleton_self _)
    · obtain ⟨x, hx, hname, -⟩ := hthere p hp
      exact ⟨x, hx, congrArg Name.full hname⟩
  · have hfound₁ : ∃ x ∈ b₁.listed, x.name.full = p.1.full := by
      rwa [← mem_map, hnames, mem_map]
    obtain ⟨b₂, htag⟩ := hdelete.exec_of_listed hguards hscope hfound₁ (includeFile n)
    have hstops : Place.run ⟨n, del :: rest, s', b₁⟩ = (.error .noField, b₂) := by
      rw [Place.run, analyse]
      exact exec_bind_of_error htag
    exact addLaunch_of_error hlanguage htree hpast hstops

end Launch

/-- A record inside a record, loaded into the namespace `dough`. -/
def doughTag : LaunchTree :=
  .tag .rosparam "\x7bflour: \x7brye: 2\x7d\x7d" ⟨[("ns", .text "dough")]⟩ []

def noRyeTag : LaunchTree := .tag .rosparam ""
  ⟨[("command", .text "delete"), ("ns", .text "dough"), ("param", .text "flour/rye")]⟩ []

def ovenAttrs : Table String Subst := nodeAttrs "oven" (.text "one") []

/-- In a node inside a group, the dough is loaded and its rye deleted. -/
def doughTree : LaunchTree :=
  .tag .launch "" ⟨[]⟩ [.tag .group "" backAttrs [.tag .node "" ovenAttrs [doughTag, noRyeTag]]]

def kneading : Job Builder (LaunchScope × Builder × LaunchScope) := do
  let back ← openGroup backAttrs { configuration := ⟨0⟩, launch := ⟨0⟩ }
  let (_, oven) ← startNode ovenAttrs back
  let b ← get
  let s ← analyse (includeFile nesting) [doughTag] oven
  pure (oven, b, s)

/-- The names that the dough has in the scope of the oven, and the one that is deleted. -/
def kneaded (x : Result (LaunchScope × Builder × LaunchScope) × Builder) :
    Option (Option (List String) × Option String) :=
  x.1.toOption.map fun (oven, b, s) =>
    ((oven.documentParams b.bench.model none (some "dough")
      "\x7bflour: \x7brye: 2\x7d\x7d").toOption.map (·.map (·.1.full)),
      (s.deletedName x.2.bench.model "flour/rye" (some "dough")).toOption)

theorem ok_of_toOption {α : Type} {r : Result α} {a} (h : r.toOption = some a) : r = .ok a := by
  cases r with
  | error f => cases h
  | ok a' => exact congrArg Except.ok (Option.some.inj h)

/-- The work comes to the two tags, and the second deletes what the first has loaded. -/
theorem exists_kneading : ∃ oven b s b' p,
    (start ⟨0⟩ doughTree (bakery doughTree)).Leads ⟨nesting, [doughTag, noRyeTag], oven, b⟩ ∧
    Loads doughTag oven b [p] ∧
    (analyse (includeFile nesting) [doughTag] oven).exec b = (.ok s, b') ∧
    Deletes noRyeTag s b' p.1.full ∧ p.1.full = "/back/one/dough/flour/rye" := by
  have hseen : kneaded (kneading.exec (start ⟨0⟩ doughTree (bakery doughTree)).builder) =
      some (some ["/back/one/dough/flour/rye"], some "/back/one/dough/flour/rye") := by
        decide +kernel
  rcases hwork : kneading.exec (start ⟨0⟩ doughTree (bakery doughTree)).builder with
    ⟨f | ⟨oven, b, s⟩, b'⟩ <;> rw [hwork] at hseen
  · cases hseen
  obtain ⟨back, b₁, hgroup, h⟩ := exec_bind_ok.mp hwork
  obtain ⟨⟨node, _⟩, b₂, hnode, h⟩ := exec_bind_ok.mp h
  obtain ⟨_, _, hget, h⟩ := exec_bind_ok.mp h
  cases hget
  obtain ⟨_, _, hload, h⟩ := exec_bind_ok.mp h
  cases h
  obtain ⟨hloaded, hdeleted⟩ := Prod.mk.inj (Option.some.inj hseen)
  obtain ⟨ps, hps, hnames⟩ := Option.map_eq_some_iff.mp hloaded
  obtain ⟨p, rfl, hp⟩ := map_eq_singleton_iff.mp hnames
  have hplace : (start ⟨0⟩ doughTree (bakery doughTree)).Leads
      ⟨nesting, [doughTag, noRyeTag], oven, b⟩ :=
    .head (.group rfl hgroup) (.head (.node rfl hnode) .refl)
  refine ⟨oven, b, s, b', p, hplace, ?_, hload, ?_, hp⟩
  · exact ⟨none, some "dough", _, b, ⟨_, _, b, rfl, rfl, rfl⟩, ok_of_toOption hps⟩
  · refine ⟨"flour/rye", some "dough", b', ⟨_, _, b', rfl, rfl, rfl⟩, ?_⟩
    rw [hp]
    exact ok_of_toOption hdeleted

/-- The rye was loaded by its own launch file and cannot be deleted there. -/
theorem delete_never_undoes_load_dough :
    ((addLaunch ⟨0⟩).exec (bakery doughTree)).1 = .ok true ∧
    "missing parameter: /back/one/dough/flour/rye" ∈
      ((addLaunch ⟨0⟩).exec (bakery doughTree)).2.errors ∧
    ∃ x ∈ ((addLaunch ⟨0⟩).exec (bakery doughTree)).2.listed,
      x.name.full = "/back/one/dough/flour/rye" := by
  have hdone : ((addLaunch ⟨0⟩).exec (bakery doughTree)).1 = .ok true := by decide +kernel
  obtain ⟨oven, b, s, b', p, hplace, hload, hmid, hdelete, hp⟩ := exists_kneading
  have hlanguage : ((bakery doughTree).bench.model.file ⟨0⟩).language = "launch" := rfl
  have htree : ((bakery doughTree).bench.model.file ⟨0⟩).tree = some doughTree := rfl
  have hnone : (bakery doughTree).listed = [] := rfl
  have hsize : (bakery doughTree).configuration.index <
      (bakery doughTree).bench.model.configurations.size := by decide
  have htags : (start ⟨0⟩ doughTree (bakery doughTree)).Leads
      ⟨nesting, doughTag :: ([] ++ noRyeTag :: []), oven, b⟩ := hplace
  have hundone := (delete_never_undoes_load hlanguage htree hsize (forall_mem_nil _) htags hload
    hmid (mem_singleton_self p) hdelete).1 (hnone ▸ forall_mem_nil _)
  rcases hexec : (addLaunch ⟨0⟩).exec (bakery doughTree) with ⟨r, b₁⟩
  rw [hexec] at hdone
  obtain rfl : r = .ok true := hdone
  obtain ⟨hmessage, hlisted, -⟩ := hundone.2 b₁ hexec
  rw [hp] at hmessage hlisted
  exact ⟨rfl, hmessage, hlisted⟩

/-- After a load and a deletion of the same parameter there is a message, and the parameter. -/
theorem deleted_param_stays :
    let ran := (addLaunch ⟨0⟩).exec
      (bakery (.tag .launch "" ⟨[]⟩ [.tag .group "" backAttrs [doughTag, noRyeTag]]))
    ran.1 = .ok true ∧ ran.2.errors = ["missing parameter: /back/dough/flour/rye"] ∧
      ran.2.listed.map (·.name.full) = ["/back/dough/flour/rye"] := by
  decide +kernel

end Builder

end RosAudit
