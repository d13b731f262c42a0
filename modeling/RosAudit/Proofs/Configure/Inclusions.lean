import RosAudit.Proofs.Configure.WaitingParams
import RosAudit.Proofs.Nesting

/-!
# How deep inclusions nest

A launch file may include any launch file of the project, itself too, under a name that is only
known when the tag is come to. Nothing keeps track of the files that are open, so a file that
includes itself is gone into again and again (`mill_never_ends`). What can be said is how the work
fails to end : only finitely many files can be included (`subset_files`), so inclusions nest without
bound exactly if some file is open without bound (`inclusions_end_iff`).
-/

namespace RosAudit

open Job List

namespace Builder

def SameCatalogue (b b' : Builder) : Prop := b'.catalogue = b.catalogue

instance : Aside SameCatalogue where
  refl _ := rfl
  trans _ _ _ h h' := h'.trans h
  context _ _ _ := rfl
  search _ _ := rfl
  foreign _ _ := rfl
  addManifest _ _ := rfl
  addNode _ _ _ := rfl
  note _ _ := rfl
  arguments _ _ := rfl

instance : Working SameCatalogue where
  swap _ _ := rfl
  setParam _ _ _ _ _ := rfl
  setDocument _ _ _ _ _ := rfl
  rename _ _ _ _ := rfl
  makeNode _ _ _ _ _ _ := rfl
  linkNode s node := by
    refine within_get.bind fun b => (within_ofResult _).bind fun hints => ?_
    refine Within.bind (fun _ => rfl) fun s' => within_modify fun _ => rfl

variable {p q r : Place} {g : Option (Ref .file)} {fs : List (Ref .file)}

theorem file_openInclusion {attrs children s x b b'}
    (h : (openInclusion attrs children s).exec b = (.ok x, b')) :
    x.scope.launch = x.file ∧ x.file ∈ b.catalogue.files := by
  obtain ⟨b₁, ns, hasked, hmem, hscope⟩ := openInclusion_ok h
  have hsame : SameCatalogue b b₁ := hasked
  obtain ⟨space, -, hchild⟩ := bind_eq_ok.mp hscope
  rw [← Except.ok.inj hchild]
  exact ⟨rfl, hsame ▸ hmem⟩

namespace Place

/-- A step of the work. One into an included file has the file as its key. -/
inductive Moves : Place → Option (Ref .file) → Place → Prop
  | past {p q : Place} (h : Step p q) (hn : q.nesting = p.nesting) : Moves p none q
  | into {p q : Place} (h : Step p q) (hn : p.nesting = q.nesting + 1) :
      Moves p (some q.scope.launch) q

theorem Moves.step : Moves p g q → Step p q
  | .past h _ => h
  | .into h _ => h

theorem Moves.mem_files {g} (h : Moves p (some g) q) : g ∈ p.builder.catalogue.files := by
  obtain _ | ⟨hstep, hn⟩ := h
  cases hstep with
  | past | group | node => exact absurd hn (Nat.ne_of_lt (Nat.lt_succ_self _))
  | inclusion hcounts hopen =>
    obtain ⟨hlaunch, hmem⟩ := file_openInclusion hopen
    have hsame : SameCatalogue _ _ := (within_counts _).of_exec hcounts
    rw [hlaunch]
    exact hsame ▸ hmem

def Exhausts (p : Place) : Prop := ∃ fs q, Trail Moves p fs q ∧ fs.length = p.nesting

theorem Exhausts.of_moves (hq : q.Exhausts) (h : Moves p g q) : p.Exhausts := by
  obtain ⟨fs, r, htrail, hlength⟩ := hq
  cases h with
  | past hstep hn => exact ⟨fs, r, htrail.head_past (.past hstep hn), hlength.trans hn⟩
  | into hstep hn =>
    refine ⟨fs ++ [q.scope.launch], r, htrail.head_into (.into hstep hn), ?_⟩
    rw [length_append, hlength, hn, length_singleton]

section Deeper

variable {n : Nat}

mutual

/-- A higher limit changes the work on some tags only where this goes down to the limit, if that
holds of included files. -/
theorem analyse_deeper (hgo : ∀ x b,
      (includeFile (n + 1) x).exec b = (includeFile n x).exec b ∨
        Exhausts ⟨n, tagsOf x.tree, x.scope, b.enter x⟩) :
    ∀ ts s b,
      (analyse (includeFile (n + 1)) ts s).exec b = (analyse (includeFile n) ts s).exec b ∨
        Exhausts ⟨n + 1, ts, s, b⟩
  | [], s, b => by
    exact .inl rfl
  | t :: ts, s, b => by
    rcases analyseTag_deeper hgo t ts s b with htag | hdeep
    · rw [analyse, analyse, exec_bind_eq_of_eq htag]
      refine exec_bind_eq_or fun s' b' hrun => ?_
      refine (analyse_deeper hgo ts s' b').imp_right fun h => ?_
      exact h.of_moves (.past (.past (htag.trans hrun)) rfl)
    · exact .inr hdeep

theorem analyseTag_deeper (hgo : ∀ x b,
      (includeFile (n + 1) x).exec b = (includeFile n x).exec b ∨
        Exhausts ⟨n, tagsOf x.tree, x.scope, b.enter x⟩) :
    ∀ t ts s b,
      (analyseTag (includeFile (n + 1)) t s).exec b = (analyseTag (includeFile n) t s).exec b ∨
        Exhausts ⟨n + 1, t :: ts, s, b⟩
  | .error message, ts, s, b => by
    exact .inl rfl
  | .tag k text attrs children, ts, s, b => by
    rw [analyseTag, analyseTag]
    refine Or.imp_left exec_noting_congr ?_
    refine exec_bind_eq_or fun c b₁ hcounts => ?_
    cases c with
    | false => simp only [Bool.not_false, if_true, true_or]
    | true =>
      -- only a tag with tags inside, or a file, comes to an inclusion
      cases k with
      | group =>
        refine exec_bind_eq_or fun inner b₂ hopen => ?_
        refine (analyse_deeper hgo children inner b₂).imp exec_bind_eq_of_eq fun h => ?_
        exact h.of_moves (.past (.group hcounts hopen) rfl)
      | node =>
        refine exec_bind_eq_or fun x b₂ hopen => ?_
        refine (analyse_deeper hgo children x.2 b₂).imp exec_bind_eq_of_eq fun h => ?_
        exact h.of_moves (.past (.node hcounts hopen) rfl)
      | inclusion =>
        refine exec_bind_eq_or fun x b₂ hopen => ?_
        refine (hgo x b₂).imp exec_bind_eq_of_eq fun h => ?_
        exact h.of_moves (.into (.inclusion hcounts hopen) rfl)
      | launch | remap | param | rosparam | arg | env | machine | test =>
        exact .inl rfl

end

end Deeper

/-- A higher limit changes the work at a place only where this goes down to the limit. -/
theorem run_deeper (n ts s b) :
    run ⟨n + 1, ts, s, b⟩ = run ⟨n, ts, s, b⟩ ∨ Exhausts ⟨n + 1, ts, s, b⟩ := by
  induction n generalizing ts s b with
  | zero => exact analyse_deeper (fun x b => .inr ⟨[], _, .start, rfl⟩) ts s b
  | succ n ih =>
    refine analyse_deeper (fun x b => ?_) ts s b
    refine (ih (tagsOf x.tree) x.scope (b.enter x)).imp_left fun heq => ?_
    exact exec_bind_eq_of_eq heq

end Place

/-! ## Launch files -/

/-- Where the work on a launch file begins, if inclusions may nest `n` deep. -/
def startTo (f : Ref .file) (tree : LaunchTree) (b : Builder) (n : Nat) : Place :=
  { start f tree b with nesting := n }

def runLaunchTo (n : Nat) (f : Ref .file) (tree : LaunchTree) : Job Builder Unit := do
  modify (launching f)
  let _ ← analyse (includeFile n) (tagsOf tree)
    { configuration := (← get).configuration, launch := f }
  settleParams

section Launch

variable {b : Builder} {f : Ref .file} {tree : LaunchTree} {n : Nat}

theorem exec_runLaunchTo_congr {m} (h : (startTo f tree b n).run = (startTo f tree b m).run) :
    (runLaunchTo n f tree).exec (b.enlist f) = (runLaunchTo m f tree).exec (b.enlist f) := by
  exact exec_bind_eq_of_eq h

theorem subset_files (h : Trail Place.Moves (startTo f tree b n) fs q) :
    fs ⊆ b.catalogue.files := by
  refine (h.subset (I := fun p => p.builder.catalogue = b.catalogue) ?_ ?_ rfl).2
  · intro p g q hp hmoves
    have hsame : SameCatalogue p.builder q.builder := hmoves.step.builder
    exact hsame.trans hp
  · intro p g q hp hmoves
    exact hp ▸ hmoves.mem_files

theorem exec_runLaunchTo_of_nestsWithin {d m} (h : NestsWithin Place.Moves (startTo f tree b) d)
    (hm : d ≤ m) (hn : d ≤ n) :
    (runLaunchTo m f tree).exec (b.enlist f) = (runLaunchTo n f tree).exec (b.enlist f) :=
  exec_runLaunchTo_congr
    (h.run_eq_run (fun n => (startTo f tree b n).run) (fun n => Place.run_deeper n _ _ _) hm hn)

theorem nestsWithin_of_recursWithin {k} (h : RecursWithin Place.Moves (startTo f tree b) k) :
    NestsWithin Place.Moves (startTo f tree b) (k * b.catalogue.files.length) :=
  h.nestsWithin fun _ _ _ => subset_files

/-- If no file is open twice at once and there are no more files than inclusions may nest deep, then
a launch is as if there were no limit. -/
theorem exec_runLaunch_of_nodup
    (h : ∀ n fs q, Trail Place.Moves (startTo f tree b n) fs q → fs.Nodup)
    (hn : b.catalogue.files.length ≤ nesting) :
    ∀ n, b.catalogue.files.length ≤ n →
      (runLaunchTo n f tree).exec (b.enlist f) = (runLaunch f tree).exec (b.enlist f) := by
  have hnests := nestsWithin_of_recursWithin (recursWithin_one_iff.mpr h)
  rw [Nat.one_mul] at hnests
  exact fun n hfiles => exec_runLaunchTo_of_nestsWithin hnests hfiles hn

/-- Inclusions nest without bound exactly if some file is open without bound. If no file is open
more than `k` times at once, they nest at most `k` times the number of files deep, and the launch
gives the same however deep they may nest from there on, without ever coming to the limit. -/
theorem inclusions_end_iff (b : Builder) (f : Ref .file) (tree : LaunchTree) :
    ((∃ d, NestsWithin Place.Moves (startTo f tree b) d) ↔
      ∃ k, RecursWithin Place.Moves (startTo f tree b) k) ∧
    ∀ k, RecursWithin Place.Moves (startTo f tree b) k →
      NestsWithin Place.Moves (startTo f tree b) (k * b.catalogue.files.length) ∧
      (∀ n, k * b.catalogue.files.length ≤ n →
        (runLaunchTo n f tree).exec (b.enlist f) =
          (runLaunchTo (k * b.catalogue.files.length) f tree).exec (b.enlist f)) ∧
      ∀ n fs q, k * b.catalogue.files.length < n →
        Trail Place.Moves (startTo f tree b n) fs q → 0 < q.nesting := by
  refine ⟨exists_nestsWithin_iff fun _ _ _ => subset_files, fun k hk => ?_⟩
  have hnests := nestsWithin_of_recursWithin hk
  refine ⟨hnests, fun n hn => exec_runLaunchTo_of_nestsWithin hnests hn (Nat.le_refl _),
    fun n fs q hn htrail => ?_⟩
  refine hnests.limit_pos Place.nesting (fun p q h => ?_) (fun p g q h => ?_) htrail hn
  · obtain ⟨-, hsame⟩ := h
    exact hsame
  · obtain _ | ⟨-, hless⟩ := h
    exact hless

end Launch

def millWith (files : List (String × LaunchTree)) : Builder where
  files := default
  bench := { model := ((
    { packages := #[{ name := "mill" }]
      files := (files.map fun x => launchFile "mill" x.1 (some x.2)).toArray
      guards := #[[]] } : Model).addConfiguration { name := "mill" }).1 }
  configuration := ⟨0⟩
  catalogue :=
    { packages := ⟨[("mill", ⟨0⟩)]⟩, files := (List.range files.length).map fun i => ⟨i⟩ }
  search := .across []

/-! ### A file that includes itself once -/

def nextTag : LaunchTree :=
  .tag .arg "" ⟨[("name", .text "next"), ("default", .text "/mill/pass.launch")]⟩ []

def handAttrs : Table String Subst := ⟨[("file", .pending ⟨[.command ["arg", "next"]]⟩)]⟩

def lastTag : LaunchTree :=
  .tag .arg "" ⟨[("name", .text "next"), ("value", .text "/mill/last.launch")]⟩ []

def handTag : LaunchTree := .tag .inclusion "" handAttrs [lastTag]

def passTree : LaunchTree := .tag .launch "" ⟨[]⟩ [nextTag, handTag]

def lastTree : LaunchTree := .tag .launch "" ⟨[]⟩ []

def relay : Builder := millWith [("pass.launch", passTree), ("last.launch", lastTree)]

def relaying (arguments : Table String Argument) : Builder :=
  let b := (startTo ⟨0⟩ passTree relay 0).builder
  { b with context := { b.context with arguments } }

def relayScope (f : Ref .file) : LaunchScope := { configuration := ⟨0⟩, launch := f }

def nextIs (path : String) : Table String Argument := ⟨[("next", .text path)]⟩

theorem exec_nextTag (n : Nat) :
    (analyseTag (includeFile n) nextTag (relayScope ⟨0⟩)).exec (relaying Table.empty) =
      (.ok (relayScope ⟨0⟩), relaying (nextIs "/mill/pass.launch")) := by
  rfl

theorem exec_nextTag_again (n : Nat) :
    (analyseTag (includeFile n) nextTag (relayScope ⟨0⟩)).exec
        (relaying (nextIs "/mill/last.launch")) =
      (.ok (relayScope ⟨0⟩), relaying (nextIs "/mill/last.launch")) := by
  rfl

theorem exec_hand : (openInclusion handAttrs [lastTag] (relayScope ⟨0⟩)).exec
      (relaying (nextIs "/mill/pass.launch")) =
    (.ok ⟨⟨0⟩, passTree, nextIs "/mill/last.launch", relayScope ⟨0⟩⟩,
      relaying (nextIs "/mill/pass.launch")) :=
  rfl

theorem exec_hand_again : (openInclusion handAttrs [lastTag] (relayScope ⟨0⟩)).exec
      (relaying (nextIs "/mill/last.launch")) =
    (.ok ⟨⟨1⟩, lastTree, nextIs "/mill/last.launch", relayScope ⟨1⟩⟩,
      relaying (nextIs "/mill/last.launch")) :=
  rfl

/-- Where the work on the files can be, and inside of which of them. -/
inductive Relaying : List (Ref .file) → Place → Prop
  | first (n : Nat) :
      Relaying [] ⟨n, [nextTag, handTag], relayScope ⟨0⟩, relaying Table.empty⟩
  | named (n : Nat) :
      Relaying [] ⟨n, [handTag], relayScope ⟨0⟩, relaying (nextIs "/mill/pass.launch")⟩
  | again (n : Nat) :
      Relaying [⟨0⟩] ⟨n, [nextTag, handTag], relayScope ⟨0⟩, relaying (nextIs "/mill/last.launch")⟩
  | last (n : Nat) :
      Relaying [⟨0⟩] ⟨n, [handTag], relayScope ⟨0⟩, relaying (nextIs "/mill/last.launch")⟩
  | done {fs : List (Ref .file)} {n : Nat} {s : LaunchScope} {b : Builder} (h : fs.Nodup) :
      Relaying fs ⟨n, [], s, b⟩

theorem Relaying.nodup (h : Relaying fs q) : fs.Nodup := by
  cases h with
  | first | named => exact List.Pairwise.nil
  | again | last => decide
  | done h => exact h

theorem moves_next {n given given'}
    (h : (analyseTag (includeFile n) nextTag (relayScope ⟨0⟩)).exec (relaying given) =
      (.ok (relayScope ⟨0⟩), relaying given'))
    (hmoves : Place.Moves ⟨n, [nextTag, handTag], relayScope ⟨0⟩, relaying given⟩ g r) :
    g = none ∧ r = ⟨n, [handTag], relayScope ⟨0⟩, relaying given'⟩ := by
  obtain ⟨⟨hpast⟩, -⟩ | ⟨⟨hpast⟩, hn⟩ := hmoves
  · rw [h] at hpast
    cases hpast
    exact ⟨rfl, rfl⟩
  · exact absurd hn (Nat.ne_of_lt (Nat.lt_succ_self _))

theorem moves_hand {n given x}
    (h : (openInclusion handAttrs [lastTag] (relayScope ⟨0⟩)).exec (relaying given) =
      (.ok x, relaying given))
    (hmoves : Place.Moves ⟨n, [handTag], relayScope ⟨0⟩, relaying given⟩ g r) :
    g = none ∧ r.tags = [] ∨ g = some x.scope.launch ∧
      ∃ n, r = ⟨n, tagsOf x.tree, x.scope, (relaying given).enter x⟩ := by
  cases hmoves with
  | past hstep hn =>
    cases hstep with
    | past => exact .inl ⟨rfl, rfl⟩
    | inclusion => exact absurd hn (Nat.ne_of_lt (Nat.lt_succ_self _))
  | into hstep hn =>
    cases hstep with
    | past => exact absurd hn (Nat.ne_of_lt (Nat.lt_succ_self _))
    | inclusion hcounts hopen =>
      cases hcounts
      rw [h] at hopen
      cases hopen
      exact .inr ⟨rfl, _, rfl⟩

theorem Relaying.moves (h : Relaying fs q) (hmoves : Place.Moves q g r) :
    Relaying (g.toList ++ fs) r := by
  have hdone : ∀ {fs r}, fs.Nodup → r.tags = [] → Relaying fs r := by
    rintro fs ⟨n, ts, s, b⟩ hfs rfl
    exact .done hfs
  cases h with
  | first n =>
    obtain ⟨rfl, rfl⟩ := moves_next (exec_nextTag n) hmoves
    exact .named n
  | again n =>
    obtain ⟨rfl, rfl⟩ := moves_next (exec_nextTag_again n) hmoves
    exact .last n
  | named n =>
    obtain ⟨rfl, htags⟩ | ⟨rfl, n, rfl⟩ := moves_hand exec_hand hmoves
    · exact hdone List.Pairwise.nil htags
    · exact .again n
  | last n =>
    obtain ⟨rfl, htags⟩ | ⟨rfl, n, rfl⟩ := moves_hand exec_hand_again hmoves
    · exact hdone (by decide) htags
    · have hfiles : [(⟨1⟩ : Ref .file), ⟨0⟩].Nodup := by decide
      exact hdone hfiles rfl
  | done h => cases hmoves.step

theorem recursWithin_relay : RecursWithin Place.Moves (startTo ⟨0⟩ passTree relay) 1 := by
  refine recursWithin_one_iff.mpr fun n fs q htrail => ?_
  have hrelaying : Relaying fs q := by
    induction htrail with
    | start => exact .first n
    | past _ hstep ih | into _ hstep ih => exact ih.moves hstep
  exact hrelaying.nodup

/-- The first file is open twice at once, and inclusions nest two deep. -/
theorem inclusions_end_iff_relay :
    RecursWithin Place.Moves (startTo ⟨0⟩ passTree relay) 1 ∧
    NestsWithin Place.Moves (startTo ⟨0⟩ passTree relay) 2 ∧
    (∀ n, 2 ≤ n → (runLaunchTo n ⟨0⟩ passTree).exec (relay.enlist ⟨0⟩) =
      (runLaunchTo 2 ⟨0⟩ passTree).exec (relay.enlist ⟨0⟩)) ∧
    (∀ n fs q, 2 < n → Trail Place.Moves (startTo ⟨0⟩ passTree relay n) fs q → 0 < q.nesting) ∧
    ((addLaunch ⟨0⟩).exec relay).1 = .ok true ∧
    ((runLaunchTo 1 ⟨0⟩ passTree).exec (relay.enlist ⟨0⟩)).1 = .error .tooDeep := by
  obtain ⟨hnests, hsame, hfree⟩ := (inclusions_end_iff relay ⟨0⟩ passTree).2 1 recursWithin_relay
  exact ⟨recursWithin_relay, hnests, hsame, hfree, by decide +kernel, by decide +kernel⟩

/-! ### A file that includes itself -/

def turnTree : LaunchTree :=
  .tag .launch "" ⟨[]⟩ [.tag .inclusion "" ⟨[("file", .text "/mill/turn.launch")]⟩ []]

def mill : Builder := millWith [("turn.launch", turnTree)]

theorem moves_turn (n : Nat) :
    Place.Moves (startTo ⟨0⟩ turnTree mill (n + 1)) (some ⟨0⟩) (startTo ⟨0⟩ turnTree mill n) := by
  let p := startTo ⟨0⟩ turnTree mill n
  have hopen : (openInclusion ⟨[("file", .text "/mill/turn.launch")]⟩ [] p.scope).exec p.builder =
      (.ok ⟨⟨0⟩, turnTree, Table.empty, p.scope⟩, p.builder) := rfl
  exact .into (q := p) (.inclusion rfl hopen) rfl

theorem trail_turn (n : Nat) :
    Trail Place.Moves (startTo ⟨0⟩ turnTree mill n) (replicate n ⟨0⟩)
      (startTo ⟨0⟩ turnTree mill 0) := by
  induction n with
  | zero => exact .start
  | succ n ih =>
    rw [replicate_succ']
    exact ih.head_into (moves_turn n)

theorem run_turn (n : Nat) : ∃ b, (startTo ⟨0⟩ turnTree mill n).run = (.error .tooDeep, b) := by
  induction n with
  | zero => exact ⟨_, rfl⟩
  | succ n ih =>
    obtain ⟨b, hrun⟩ := ih
    exact ⟨b, (moves_turn n).step.error hrun⟩

/-- A file that includes itself is gone into as often as the limit allows, whatever this is. -/
theorem mill_never_ends :
    (¬ ∃ d, NestsWithin Place.Moves (startTo ⟨0⟩ turnTree mill) d) ∧
    (∀ n, (startTo ⟨0⟩ turnTree mill n).run.1 = .error .tooDeep) ∧
    ((addLaunch ⟨0⟩).exec mill).1 = .error .tooDeep := by
  refine ⟨?_, fun n => ?_, ?_⟩
  · rintro ⟨d, hd⟩
    have hle := hd _ _ _ (trail_turn (d + 1))
    rw [length_replicate] at hle
    exact absurd hle (Nat.not_succ_le_self d)
  · obtain ⟨b, hrun⟩ := run_turn n
    rw [hrun]
  · obtain ⟨b, hrun⟩ := run_turn nesting
    obtain ⟨b', hadd⟩ := addLaunch_of_error (b := mill) (f := ⟨0⟩) rfl rfl .refl hrun
    rw [hadd]

end Builder

end RosAudit
