import RosAudit.Proofs.Configure.RefusedTags

/-!
# Launch files without a refused tag

A refused tag leaves its message, and the rest of the file is worked through as if the tag were not
there.

`Drops.matching` : the two lists give the same result and leave builders that differ by the message
(`Less`). The induction follows the way to the tag; from there on the steps are blind to the
difference.
-/

namespace RosAudit

open Job

variable {ts ts' : List LaunchTree}

namespace Builder

variable {message : String} {b b' : Builder}

theorem Asked.less (h : Asked b b') :
    Less b.errors message { b' with errors := b'.errors ++ [message] } b := by
  obtain ⟨context, search, hcontext, hsearch, rfl⟩ := h
  exact { files := rfl, bench := rfl, configuration := rfl, catalogue := rfl, search := fun ns =>
          (hsearch ns).symm,
          foreign := rfl, specs := rfl, hints := rfl, context := hcontext.symm, future := rfl,
          errors := ⟨[], rfl, (List.append_nil _).symm⟩ }

theorem Asked.matching {α β : Type} {j : Job Builder α} {k : α → Job Builder β} {a : α}
    (h : Asked b b') (hj : j.exec b = (.ok a, { b' with errors := b'.errors ++ [message] }))
    (hk : ∀ before, Blind (Less before message) (k a)) :
    ∃ before, Matching (Less before message) (j >>= k) (k a) b b := by
  refine ⟨b.errors, ?_⟩
  unfold Matching
  rw [exec_bind_of_ok hj]
  exact hk _ _ _ h.less

/-! ## Passed arguments -/

theorem passedArgs_cons (t ts args) :
    passedArgs (t :: ts) args = passedArgs [t] args >>= passedArgs ts := by
  cases t with
  | error text => rfl
  | tag k text attrs children =>
    rw [passedArgs, passedArgs, bind_assoc]
    exact bind_congr fun args => (pure_bind args (passedArgs ts)).symm

theorem openInclusion_eq (attrs children s) :
    openInclusion attrs children s = (do
      let x ← openInclusion attrs [] s
      let arguments ← passedArgs children x.arguments
      pure { x with arguments } : Job Builder Included) := by
  unfold openInclusion
  simp only [bind_assoc]
  refine bind_congr fun path => bind_congr fun ns => bind_congr fun passAll =>
    bind_congr fun b => ?_
  split
  · rfl
  · split
    · rfl
    · rw [bind_assoc]
      rfl

/-- Of the tags inside an inclusion, one is refused. -/
inductive PassDrops (message : String) :
    List LaunchTree → Table String Argument → Builder → List LaunchTree → Prop
  | unread {args : Table String Argument} {b : Builder} {ts : List LaunchTree} :
      PassDrops message (.error message :: ts) args b ts
  | here {k : TagKind} {text : String} {attrs : Table String Subst} {children ts : List LaunchTree}
      {args : Table String Argument} {b b' : Builder} {f : Fault}
      (h : (passTag k attrs children args).exec b = (.error f, b')) (hf : f.note = some message) :
      PassDrops message (.tag k text attrs children :: ts) args b ts
  | later {t : LaunchTree} {ts ts' : List LaunchTree} {args args' : Table String Argument}
      {b b' : Builder} (h : (passedArgs [t] args).exec b = (.ok args', b'))
      (hts : PassDrops message ts args' b' ts') : PassDrops message (t :: ts) args b (t :: ts')

theorem PassDrops.matching {args : Table String Argument} (h : PassDrops message ts args b ts') :
    ∃ before, Matching (Less before message) (passedArgs ts args) (passedArgs ts' args) b b := by
  induction h with
  | @unread args b ts =>
    exact (refl_of Consulted b).asked.matching (exec_modify _ b) fun _ => blind_passedArgs ts args
  | @here k text attrs children ts args b b' f h hf =>
    have hasked := ((within_of_blind (R := Consulted) fun _ =>
      blind_passTag k attrs children args).of_exec h).asked
    exact hasked.matching (exec_noting_of_note h hf) fun _ => blind_passedArgs ts args
  | @later t ts ts' args args' b b' h hts ih =>
    obtain ⟨before, ih⟩ := ih
    rw [passedArgs_cons t ts, passedArgs_cons t ts']
    exact ⟨before, ih.after h⟩

/-! ## Lists of tags -/

/-- Work on some tags comes to one that is refused; without it, the other list is left. -/
inductive Drops (n : Nat) (message : String) :
    List LaunchTree → LaunchScope → Builder → List LaunchTree → Prop
  | here {t : LaunchTree} {ts : List LaunchTree} {s : LaunchScope} {b b' : Builder}
      (h : Refused n message s b t b') (hclean : Traceless b b' t) :
        Drops n message (t :: ts) s b ts
  | later {t : LaunchTree} {ts ts' : List LaunchTree} {s s' : LaunchScope} {b b' : Builder}
      (h : (analyseTag (includeFile n) t s).exec b = (.ok s', b'))
      (hts : Drops n message ts s' b' ts') : Drops n message (t :: ts) s b (t :: ts')
  | inGroup {text : String} {attrs : Table String Subst} {children children' ts : List LaunchTree}
      {s inner : LaunchScope} {b b₁ b₂ : Builder}
      (hcounts : (counts (Condition.of attrs)).exec b = (.ok true, b₁))
      (hopen : (openGroup attrs s).exec b₁ = (.ok inner, b₂))
      (hts : Drops n message children inner b₂ children') :
      Drops n message (.tag .group text attrs children :: ts) s b
        (.tag .group text attrs children' :: ts)
  | inNode {text : String} {attrs : Table String Subst} {children children' ts : List LaunchTree}
      {s inner : LaunchScope} {node : Ref .node} {b b₁ b₂ : Builder}
      (hcounts : (counts (Condition.of attrs)).exec b = (.ok true, b₁))
      (hopen : (startNode attrs s).exec b₁ = (.ok (node, inner), b₂))
      (hts : Drops n message children inner b₂ children') :
      Drops n message (.tag .node text attrs children :: ts) s b
        (.tag .node text attrs children' :: ts)
  | inInclusion {text : String} {attrs : Table String Subst} {children children' ts :
      List LaunchTree} {s : LaunchScope} {x : Included} {b b₁ b₂ : Builder}
      (hcounts : (counts (Condition.of attrs)).exec b = (.ok true, b₁))
      (hopen : (openInclusion attrs [] s).exec b₁ = (.ok x, b₂))
      (hts : PassDrops message children x.arguments b₂ children') :
      Drops n message (.tag .inclusion text attrs children :: ts) s b
        (.tag .inclusion text attrs children' :: ts)

theorem matching_analyse_cons {n before t t' s}
    (h : Matching (Less before message) (analyseTag (includeFile n) t s) (analyseTag (includeFile
      n) t' s) b b) :
    Matching (Less before message) (analyse (includeFile n) (t :: ts) s)
      (analyse (includeFile n) (t' :: ts) s) b b := by
  exact h.bind fun s' _ => blind_analyse (blind_includeFile n) ts s'

theorem Drops.matching {n : Nat} {s : LaunchScope} (h : Drops n message ts s b ts') :
    ∃ before, Matching (Less before message)
      (analyse (includeFile n) ts s) (analyse (includeFile n) ts' s) b b := by
  induction h with
  | @here t ts s b b' h hclean =>
    exact (h.asked hclean).matching h.exec fun _ => blind_analyse (blind_includeFile n) ts s
  | @later t ts ts' s s' b b' h hts ih =>
    obtain ⟨before, ih⟩ := ih
    exact ⟨before, ih.after h⟩
  | @inGroup text attrs children children' ts s inner b b₁ b₂ hcounts hopen hts ih =>
    obtain ⟨before, ih⟩ := ih
    refine ⟨before, matching_analyse_cons ?_⟩
    rw [analyseTag]
    refine matching_noting (Matching.after hcounts (Matching.after hopen ?_))
    exact ih.bind fun _ _ => blind_pure s
  | @inNode text attrs children children' ts s inner node b b₁ b₂ hcounts hopen hts ih =>
    obtain ⟨before, ih⟩ := ih
    refine ⟨before, matching_analyse_cons ?_⟩
    refine matching_noting (Matching.after hcounts (Matching.after hopen ?_))
    exact ih.bind fun inner _ => (blind_linkNode inner node).bind fun _ => blind_pure s
  | @inInclusion text attrs children children' ts s x b b₁ b₂ hcounts hopen hts =>
    obtain ⟨before, hpass⟩ := hts.matching
    refine ⟨before, matching_analyse_cons ?_⟩
    have hboth : Matching (Less before message) (openInclusion attrs children s)
        (openInclusion attrs children' s) b₁ b₁ := by
      rw [openInclusion_eq attrs children, openInclusion_eq attrs children']
      exact Matching.after hopen (hpass.bind fun _ _ => blind_pure _)
    refine matching_noting (Matching.after hcounts ?_)
    exact hboth.bind fun x _ => (blind_includeFile n x).bind fun _ => blind_pure s

/-! ## Launch files -/

theorem Drops.matching_runLaunch {f tree tree'}
    (h : Drops nesting message (tagsOf tree) { configuration := b.configuration, launch := f }
      (b.launching f) (tagsOf tree')) :
    ∃ before, Matching (Less before message) (runLaunch f tree) (runLaunch f tree') b b := by
  obtain ⟨before, h⟩ := h.matching
  refine ⟨before, Matching.after (exec_modify _ _) (Matching.after (exec_get _) ?_)⟩
  exact h.bind fun _ _ => blind_settleParams

def noteUses (c : Ref .configuration) (b : Builder) : Builder :=
  { b with bench := { b.bench with model := b.bench.model.updateConfiguration c fun k =>
      { k with
        packageUses := b.context.packageUses
        environmentUses := b.context.environmentUses } } }

theorem exec_addLaunch {f tree r} (hlanguage : (b.bench.model.file f).language = "launch")
    (htree : (b.bench.model.file f).tree = some tree)
    (hrun : (runLaunch f tree).exec (b.enlist f) = (r, b')) :
    (addLaunch f).exec b = (r.map fun _ => true, b'.noteUses b.configuration) := by
  unfold addLaunch
  rw [exec_bind_of_ok (exec_get b)]
  dsimp only
  rw [hlanguage, htree, if_neg (by decide), exec_bind_of_ok (exec_modify _ _)]
  rw [exec_bind_of_ok (exec_attempt _ _), hrun]
  cases r <;> rfl

/-- A launch file ends early only at a fault that is not noted. A tag that is refused leaves its
message and nothing in the configuration, and the file gives what it gives without the tag : the
same answer, and a builder with one message less. -/
theorem addLaunch_without_refused {f : Ref .file} {tree : LaunchTree}
    (hlanguage : (b.bench.model.file f).language = "launch")
    (htree : (b.bench.model.file f).tree = some tree) :
    (∀ fault, ((addLaunch f).exec b).1 = .error fault → fault.isNoted = false) ∧
    (∀ n message s b₁ t b₂, Refused n message s b₁ t b₂ → Unmoved b₁ b₂ ∧
      (analyseTag (includeFile n) t s).exec b₁ =
        (.ok s, { b₂ with errors := b₁.errors ++ [message] })) ∧
    ∀ message tree', Drops nesting message (tagsOf tree)
        { configuration := b.configuration, launch := f } ((b.enlist f).launching f)
          (tagsOf tree') →
      ∃ r b₁ b₂ before, (addLaunch f).exec b = (r.map fun _ => true, b₁.noteUses b.configuration) ∧
        (runLaunch f tree).exec (b.enlist f) = (r, b₁) ∧
        (runLaunch f tree').exec (b.enlist f) = (r, b₂) ∧ Less before message b₁ b₂ := by
  rcases hrun : (runLaunch f tree).exec (b.enlist f) with ⟨r, b'⟩
  have hexec := exec_addLaunch hlanguage htree hrun
  refine ⟨fun fault hfault => ?_, fun n message s b₁ t b₂ h => ?_, fun message tree' h => ?_⟩
  · rw [hexec] at hfault
    obtain rfl : r = .error fault := by
      cases r with
      | error e => exact congrArg Except.error (Except.error.inj hfault)
      | ok u => cases hfault
    exact throws_runLaunch f tree _ _ _ hrun
  · refine ⟨h.unmoved, ?_⟩
    rw [h.exec, h.unmoved.errors]
  · obtain ⟨before, hres, hless⟩ := h.matching_runLaunch (b := b.enlist f)
    rw [hrun] at hres hless
    exact ⟨r, b', ((runLaunch f tree').exec (b.enlist f)).2, before, hexec, rfl,
      Prod.ext hres.symm rfl, hless⟩

/-- The attributes of a node tag. -/
def nodeAttrs (type : String) (name : Subst) (more : List (String × Subst)) : Table String Subst :=
  ⟨[("pkg", .text "bakery"), ("type", .text type), ("name", name)] ++ more⟩

def ovenTag (name : String) : LaunchTree := .tag .node "" (nodeAttrs "oven" (.text name) []) []

/-- A program that is not known, under a name that is not known either. -/
def mixerAttrs : Table String Subst := nodeAttrs "mixer" (.pending ⟨[.command ["arg", "who"]]⟩) []

def backAttrs : Table String Subst := ⟨[("ns", .text "back")]⟩

/-- Two ovens, of which the second stands in a group after some other tags. -/
def bakeryTree (inside : List LaunchTree) : LaunchTree := .tag .launch "" ⟨[]⟩ [
  ovenTag "one", .tag .group "" backAttrs (inside ++ [ovenTag "two"])]

def bakery (tree : LaunchTree) : Builder where
  files := default
  bench := { model := ((
    { packages := #[{ name := "bakery" }]
      files := #[
        launchFile "bakery" "all.launch" (some tree)]
      nodes := #[{ name := "oven", package := ⟨0⟩, packageName := "bakery" }]
      guards := #[[]] } : Model).addConfiguration { name := "bakery" }).1 }
  configuration := ⟨0⟩
  catalogue :=
    { packages := ⟨[("bakery", ⟨0⟩)]⟩, files := [⟨0⟩], nodes := ⟨[("node:bakery/oven", ⟨0⟩)]⟩ }
  search := .across []

/-- The file with the mixer. -/
def mixed : Builder := bakery (bakeryTree [.tag .node "" mixerAttrs []])

def mixing : Job Builder (LaunchScope × Builder × Result LaunchScope) := do
  let s ← analyseTag (includeFile nesting) (ovenTag "one") { configuration := ⟨0⟩, launch := ⟨0⟩ }
  let inner ← openGroup backAttrs s
  let b ← get
  let r ← Job.attempt
    (carryOut (includeFile nesting) (analyse (includeFile nesting) []) .node "" mixerAttrs [] inner)
  pure (inner, b, r)

theorem drops_mixing : Drops nesting "undeclared arg: who"
    (tagsOf (bakeryTree [.tag .node "" mixerAttrs []])) { configuration := ⟨0⟩, launch := ⟨0⟩ }
    ((mixed.enlist ⟨0⟩).launching ⟨0⟩) (tagsOf (bakeryTree [])) := by
  have hseen : (mixing.exec ((mixed.enlist ⟨0⟩).launching ⟨0⟩)).2.foreign = [] ∧
      ((mixing.exec ((mixed.enlist ⟨0⟩).launching ⟨0⟩)).1.toOption.map fun x =>
        (x.2.1.search.packages.roots, x.2.1.search.stackFolders.roots, x.2.1.foreign,
          match x.2.2 with
          | .error f => f.note
          | .ok _ => none)) =
      some ([], [], [], some "undeclared arg: who") := by decide +kernel
  rcases hmix : mixing.exec ((mixed.enlist ⟨0⟩).launching ⟨0⟩) with ⟨f | ⟨inner, b, r⟩, b'⟩ <;>
    rw [hmix] at hseen
  · cases hseen.2
  obtain ⟨s, b₁, hfirst, h⟩ := exec_bind_ok.mp hmix
  obtain ⟨_, b₂, hgroup, h⟩ := exec_bind_ok.mp h
  obtain ⟨_, _, hget, h⟩ := exec_bind_ok.mp h
  cases hget
  obtain ⟨_, _, hr, h⟩ := exec_bind_ok.mp h
  cases h
  obtain ⟨hforeign, hseen⟩ := hseen
  obtain ⟨hpackages, hstacks, hbefore, hnote⟩ : b.search.packages.roots = [] ∧
      b.search.stackFolders.roots = [] ∧ b.foreign = [] ∧ _ := by
    simpa only [Except.toOption, Option.map_some, Option.some.injEq, Prod.mk.injEq] using hseen
  have hwhole : b.search.IsWhole b.files := by
    refine ⟨fun _ => ?_, fun _ => ?_⟩
    · rw [hpackages]
      rfl
    · rw [hstacks]
      rfl
  rcases r with f | s'
  · have hmixer : (carryOut (includeFile nesting) (analyse (includeFile nesting) []) .node ""
        mixerAttrs [] inner).exec b = (.error f, b') :=
      Prod.ext (Except.ok.inj (Prod.mk.inj hr).1) (Prod.mk.inj hr).2
    exact .later hfirst (.inGroup rfl hgroup
      (.here (.tag hmixer hnote) ⟨hwhole, hforeign.trans hbefore.symm⟩))
  · cases hnote

/-- The mixer is refused and leaves its message. The ovens before and after it are started as they
are in the file without the mixer. -/
theorem addLaunch_without_refused_mixed :
    ((addLaunch ⟨0⟩).exec mixed).1 = .ok true ∧
    ((addLaunch ⟨0⟩).exec mixed).2.errors = ["undeclared arg: who"] ∧
    (((addLaunch ⟨0⟩).exec mixed).2.bench.model.instances.toList.map fun x => x.name.full) =
      ["/one", "/back/two"] ∧
    ∃ r b₁ b₂ before,
      (addLaunch ⟨0⟩).exec mixed = (r.map fun _ => true, b₁.noteUses mixed.configuration) ∧
      (runLaunch ⟨0⟩ (bakeryTree [.tag .node "" mixerAttrs []])).exec (mixed.enlist ⟨0⟩) = (r, b₁) ∧
      (runLaunch ⟨0⟩ (bakeryTree [])).exec (mixed.enlist ⟨0⟩) = (r, b₂) ∧
      Less before "undeclared arg: who" b₁ b₂ := by
  have hran : ((addLaunch ⟨0⟩).exec mixed).1 = .ok true ∧
      ((addLaunch ⟨0⟩).exec mixed).2.errors = ["undeclared arg: who"] ∧
      (((addLaunch ⟨0⟩).exec mixed).2.bench.model.instances.toList.map fun x => x.name.full) =
        ["/one", "/back/two"] := by decide +kernel
  exact ⟨hran.1, hran.2.1, hran.2.2, (addLaunch_without_refused rfl rfl).2.2 _ _ drops_mixing⟩

/-- Not every fault is noted. A nodelet that names its program without a package stops the launch,
and the oven after it is not started. -/
theorem bare_nodelet_stops :
    let tree := bakeryTree [.tag .node ""
      (nodeAttrs "nodelet" (.text "three") [("args", .text "load oven manager")]) []]
    ((addLaunch ⟨0⟩).exec (bakery tree)).1 = .error .unreadableValue ∧
    ((addLaunch ⟨0⟩).exec (bakery tree)).2.errors = [] ∧
    (((addLaunch ⟨0⟩).exec (bakery tree)).2.bench.model.instances.toList.map fun x => x.name.full) =
      ["/one"] := by
  decide +kernel

end Builder

end RosAudit
