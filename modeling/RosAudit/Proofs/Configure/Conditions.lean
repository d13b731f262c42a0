import RosAudit.Proofs.Configure.Renaming

/-!
# Conditions of tags

A tag may state a condition under `if` or `unless`. A condition whose text is known when the file is
read is a truth value from then on, and it decides : the tag is carried out as if it stated no
condition, or it is passed over. A condition that is still open then decides nothing. It is taken up
again as a text when the tag comes up, no text is a truth value, and so the tag is passed over
whatever the text says, under `if` and under `unless` ; one that is open even then stops the launch
(`late_condition_skips`).

`Under p path r` says that the tags at the point `p` start the node instance `r`, and `path` lists
the conditions of the tags around it, from the outside in.
-/

namespace RosAudit

open Job Model

/-! ## Conditions as they are read -/

namespace SubstContext

theorem exec_substitute_kind (v k c) :
    ((substitute v k).exec c).1 = ((substitute v .text).exec c).1 >>= fun
      | .text t => k.convert t
      | x => .ok x := by
  cases hv : Template.wholeEval? v with
  | some body =>
    simp [substitute, hv]
    rfl
  | none =>
    cases hn : Template.hasNested v.toList with
    | true =>
      simp [substitute, hv, hn]
      rfl
    | false =>
      rw [exec_substitute_fst hv hn, exec_substitute_fst hv hn, bind_assoc]
      congr 1
      funext rs
      rw [Kind.close, Kind.close]
      cases Template.closedText? ⟨rs⟩ <;> rfl

theorem resolveLate_text {u strict c c' x}
    (h : (resolveLate (.pending u) .text strict).exec c = (.ok (some x), c')) :
    ∃ t, x = .text t := by
  obtain ⟨r, d, -, h⟩ := exec_bind_ok.mp h
  cases r with
  | error ws =>
    cases strict <;> cases h
  | ok ss =>
    cases h
    exact ⟨_, rfl⟩

end SubstContext

def conditionKey (w : Bool) : String := if w then "if" else "unless"

/-- The attributes state one condition : the text `v`, as it is read in the context `c`, with the
wanted answer `w`. -/
structure States (w : Bool) (v : String) (c : SubstContext) (attrs : Table String Subst) :
    Prop where
  read : ∃ x, ((SubstContext.substitute v .bool).exec c).1 = .ok x ∧
    attrs.get? (conditionKey w) = some x
  only : attrs.get? (conditionKey !w) = none

variable {attrs : Table String Subst}

theorem Condition.of_states {w x} (hx : attrs.get? (conditionKey w) = some x)
    (hother : attrs.get? (conditionKey !w) = none) : Condition.of attrs = ⟨w, x⟩ := by
  unfold Condition.of
  cases w with
  | false =>
    rw [show attrs.get? "unless" = some x from hx]
  | true =>
    rw [show attrs.get? "unless" = none from hother, show attrs.get? "if" = some x from hx]
    rfl

theorem Condition.of_erase {w} (hother : attrs.get? (conditionKey !w) = none) :
    Condition.of (attrs.erase (conditionKey w)) = ⟨true, .bool true⟩ := by
  have hnone (v : Bool) : (attrs.erase (conditionKey w)).get? (conditionKey v) = none := by
    obtain rfl | rfl : v = w ∨ v = !w := by cases v <;> cases w <;> decide
    · exact attrs.get?_erase_self _
    · exact (attrs.get?_erase_of_ne (by cases w <;> decide)).trans hother
  have hunless : (attrs.erase (conditionKey w)).get? "unless" = none := hnone false
  have hif : (attrs.erase (conditionKey w)).get? "if" = none := hnone true
  rw [Condition.of, hunless, hif]
  rfl

/-! ## Fields and conditions -/

namespace TagKind

theorem key_ne_conditionKey (k : TagKind) (w : Bool) :
    ∀ r ∈ k.schema, r.field.isSome → r.key ≠ conditionKey w := by
  cases k <;> cases w <;> decide

theorem fieldValue_erase (k : TagKind) (attrs : Table String Subst) (w) {r}
    (hr : r.key ≠ conditionKey w) :
    k.fieldValue (attrs.erase (conditionKey w)) r = k.fieldValue attrs r := by
  have htest : "test-name" ≠ conditionKey w := by cases w <;> decide
  unfold fieldValue
  rw [attrs.get?_erase_of_ne hr, attrs.get?_erase_of_ne htest]

theorem field_erase (k : TagKind) (attrs : Table String Subst) (w) :
    k.field (attrs.erase (conditionKey w)) = k.field attrs := by
  have hfields : k.fields (attrs.erase (conditionKey w)) = k.fields attrs := by
    refine List.filterMap_congr fun r hr => ?_
    cases hf : r.field with
    | none => rfl
    | some f =>
      rw [Option.map_some, Option.map_some,
        fieldValue_erase k attrs w (key_ne_conditionKey k w r hr (by rw [hf]; rfl))]
  funext name
  rw [field, field, hfields]

end TagKind

namespace Builder

/-! ## Carrying out a tag -/

theorem exec_counts_bool (w y : Bool) (b : Builder) :
    (counts ⟨w, .bool y⟩).exec b = (.ok (y == w), b) :=
  rfl

theorem exec_counts_pending (w : Bool) (u : Template) (b : Builder) :
    (counts ⟨w, .pending u⟩).exec b =
      (match ((SubstContext.resolveLate (.pending u) .text false).exec b.context).1 with
        | .ok (some _) => .ok false
        | .ok none => .error .unboundName
        | .error f => .error f,
      { b with context :=
        ((SubstContext.resolveLate (.pending u) .text false).exec b.context).2 }) := by
  unfold counts
  rw [exec_bind, exec_onContext]
  rcases hlate : (SubstContext.resolveLate (.pending u) .text false).exec b.context with
    ⟨f | _ | x, c'⟩
  · rfl
  · rfl
  · obtain ⟨t, rfl⟩ := SubstContext.resolveLate_text hlate
    rfl

theorem counts_true {c b b₁} (h : (counts c).exec b = (.ok true, b₁)) :
    c.value = .bool c.wanted := by
  obtain ⟨w, x⟩ := c
  cases x with
  | bool y =>
    rw [exec_counts_bool] at h
    have hy : (y == w) = true := by simpa using congrArg Prod.fst h
    rw [eq_of_beq hy]
  | pending u =>
    rw [exec_counts_pending] at h
    have hfst := congrArg Prod.fst h
    rcases hlate : ((SubstContext.resolveLate (.pending u) .text false).exec b.context).1 with
      f | _ | x <;> rw [hlate] at hfst <;> cases hfst
  | text | int | float => cases h

theorem carryOut_erase (go) (work : LaunchScope → Job Builder LaunchScope) (k text)
    (attrs : Table String Subst) (children s w) {b}
    (hcounts : (counts (Condition.of attrs)).exec b = (.ok true, b))
    (herase : (counts (Condition.of (attrs.erase (conditionKey w)))).exec b = (.ok true, b)) :
    (carryOut go work k text attrs children s).exec b =
      (carryOut go work k text (attrs.erase (conditionKey w)) children s).exec b := by
  unfold carryOut
  rw [exec_bind_of_ok hcounts, exec_bind_of_ok herase]
  cases k <;> simp only [startNode, openGroup, openInclusion, leafTag, renamingOf, paramTag,
    paramText, rosparamTag, argTag, textField, resolveField, TagKind.field_erase]

section Tag

variable (go : Inclusion) (k : TagKind) (text : String) (children : List LaunchTree)
  (s : LaunchScope) (b : Builder) {w : Bool} {attrs : Table String Subst}

theorem analyseTag_settled {y} (hy : attrs.get? (conditionKey w) = some (.bool y))
    (hother : attrs.get? (conditionKey !w) = none) :
    (analyseTag go (.tag k text attrs children) s).exec b =
      if y = w then
        (analyseTag go (.tag k text (attrs.erase (conditionKey w)) children) s).exec b
      else (.ok s, b) := by
  have hcond : (counts (Condition.of attrs)).exec b = (.ok (y == w), b) := by
    rw [Condition.of_states hy hother, exec_counts_bool]
  have herase : (counts (Condition.of (attrs.erase (conditionKey w)))).exec b = (.ok true, b) := by
    rw [Condition.of_erase hother]
    rfl
  rw [analyseTag, analyseTag]
  by_cases hw : y = w
  · rw [if_pos hw]
    rw [beq_iff_eq.mpr hw] at hcond
    unfold noting
    rw [exec_bind, exec_bind, exec_attempt, exec_attempt,
      carryOut_erase go _ k text attrs children s w hcond herase]
  · rw [if_neg hw]
    rw [beq_eq_false_iff_ne.mpr hw] at hcond
    unfold noting carryOut
    rw [exec_bind, exec_attempt, exec_bind_of_ok hcond]
    rfl

/-- A condition that is still open when the file is read : the tag is passed over if its text is
known when it comes up, and the launch stops if it is open even then. -/
theorem analyseTag_pending {u} (hu : attrs.get? (conditionKey w) = some (.pending u))
    (hother : attrs.get? (conditionKey !w) = none) {r c'}
    (hlate : (SubstContext.resolveLate (.pending u) .text false).exec b.context = (r, c')) :
    (analyseTag go (.tag k text attrs children) s).exec b = match r with
      | .ok (some _) => (.ok s, { b with context := c' })
      | .ok none => (.error .unboundName, { b with context := c' })
      | .error (.substitution e) =>
        (.ok s, { b with context := c', errors := b.errors ++ [e.text] })
      | .error (.configuration e) =>
        (.ok s, { b with context := c', errors := b.errors ++ [e.text] })
      | .error f => (.error f, { b with context := c' }) := by
  have hcond := exec_counts_pending w u b
  rw [hlate] at hcond
  rw [analyseTag]
  unfold noting carryOut
  rw [exec_bind, exec_attempt, Condition.of_states hu hother, exec_bind, hcond]
  rcases r with f | _ | x
  · cases f <;> rfl
  · rfl
  · rfl

end Tag

/-! ## Conditions around a node -/

/-- The tags of a point start the node instance `r`, and `path` lists the conditions of the tags
that it stands in, from the outside in, its own last. -/
inductive Under : Point → List Condition → Ref .inst → Prop
  | here {n : Nat} {text : String} {attrs : Table String Subst} {children ts : List LaunchTree}
    {s : LaunchScope} {b : Builder} {p : Point} {r : Ref .inst}
    (hopen : Opens s b n (.tag .node text attrs children) p) (hr : p.scope.node = some r) :
    Under ⟨n, .tag .node text attrs children :: ts, s, b⟩ [Condition.of attrs] r
  | inside {n : Nat} {k : TagKind} {text : String} {attrs : Table String Subst}
    {children ts : List LaunchTree} {s : LaunchScope} {b : Builder} {p : Point}
    {path : List Condition} {r : Ref .inst}
    (hopen : Opens s b n (.tag k text attrs children) p) (h : Under p path r) :
    Under ⟨n, .tag k text attrs children :: ts, s, b⟩ (Condition.of attrs :: path) r
  | later {n : Nat} {t : LaunchTree} {ts : List LaunchTree} {s s' : LaunchScope} {b b' : Builder}
    {path : List Condition} {r : Ref .inst}
    (ht : (analyseTag (includeFile n) t s).exec b = (.ok s', b'))
    (h : Under ⟨n, ts, s', b'⟩ path r) :
    Under ⟨n, t :: ts, s, b⟩ path r

theorem value_of_opens {s b n k text children p} (h : Opens s b n (.tag k text attrs children) p) :
    (Condition.of attrs).value = .bool (Condition.of attrs).wanted := by
  cases h with
  | node hcounts _ | group hcounts _ | inclusion hcounts _ => exact counts_true hcounts

variable {r : Ref .inst}

theorem Under.settled {p path} (h : Under p path r) : ∀ x ∈ path, x.value = .bool x.wanted := by
  induction h with
  | here hopen hr => simpa using value_of_opens hopen
  | inside hopen _ ih => simpa [value_of_opens hopen] using ih
  | later _ _ ih => exact ih

theorem Starts.exists_under {p trail} (h : Starts p trail r) : ∃ path, Under p path r := by
  induction h with
  | here hopen hr => exact ⟨_, .here hopen hr⟩
  | @inside _ t _ _ _ _ _ _ hopen _ ih =>
    obtain ⟨path, hpath⟩ := ih
    cases t with
    | error message => cases hopen
    | tag k text attrs children => exact ⟨_, .inside hopen hpath⟩
  | later ht _ ih =>
    obtain ⟨path, hpath⟩ := ih
    exact ⟨path, .later ht hpath⟩

theorem exists_under_of_addLaunch {f b b' done} (h : (addLaunch f).exec b = (.ok done, b'))
    (hlo : b.bench.model.instances.size ≤ r.index) (hhi : r.index < b'.bench.model.instances.size) :
    ∃ tree, (b.bench.model.file f).tree = some tree ∧ ∃ path, Under (root f tree b) path r := by
  rcases worked_of_addLaunch h with hinst | ⟨tree, s₁, b₁, htree, hw, hsame⟩
  · rw [hinst] at hhi
    exact absurd hlo (Nat.not_le_of_lt hhi)
  · rw [hsame.size] at hhi
    obtain ⟨trail, hstarts⟩ := hw.found r hlo hhi
    exact ⟨tree, htree, hstarts.exists_under⟩

/-! ## The law and its limit -/

open SubstContext (substitute resolveLate)

/-- A launch file with an argument that defaults to `true`, and a node under the condition `v`. -/
def gated (v : String) : Xml.Element :=
  .mk "launch" [] "" [
    .mk "arg" [("name", "go"), ("default", "true")] "" [],
    .mk "node" [("if", v), ("pkg", "tour"), ("type", "guide"), ("name", "one")] "" []]

/-- The file as it is read, ready to be launched. -/
def gate (v : String) : Builder where
  files := default
  bench := { model := {
    packages := #[{ name := "tour" }]
    files := #[
      launchFile "tour" "gate.launch" ((LaunchTree.ofElement (gated v)).exec {}).1.toOption]
    nodes := #[{ name := "guide", package := ⟨0⟩, packageName := "tour" }]
    configurations := #[{ name := "tour" }] } }
  configuration := ⟨0⟩
  catalogue :=
    { packages := ⟨[("tour", ⟨0⟩)]⟩, files := [⟨0⟩], nodes := ⟨[("node:tour/guide", ⟨0⟩)]⟩ }
  search := .across []

/-- The same condition, written out or through an argument : the node is started in the first case
only. A condition that stays open stops the launch. -/
theorem late_condition_skips :
    (((addLaunch ⟨0⟩).exec (gate "true")).1 = .ok true ∧
      ((addLaunch ⟨0⟩).exec (gate "true")).2.bench.model.instances.size = 1) ∧
    (((addLaunch ⟨0⟩).exec (gate "$(arg go)")).1 = .ok true ∧
      ((addLaunch ⟨0⟩).exec (gate "$(arg go)")).2.context.told "go" = some (some "true") ∧
      ((addLaunch ⟨0⟩).exec (gate "$(arg go)")).2.bench.model.instances.size = 0) ∧
    ((addLaunch ⟨0⟩).exec (gate "$(env GO)")).1 = .error .unboundName := by
  decide +kernel

/-- A condition that is known when the file is read decides about its tag, and one that is not
never lets its tag through. So every node instance that a launch file starts stands under
conditions that were settled in the files. -/
theorem conditions_settled_in_file {w : Bool} {v : String} {c : SubstContext}
    {attrs : Table String Subst} (hstates : States w v c attrs) (go : Inclusion) (k : TagKind)
    (text : String) (children : List LaunchTree) (s : LaunchScope) (b : Builder) :
    (∀ t y, ((substitute v .text).exec c).1 = .ok (.text t) → Kind.bool.convert t = .ok (.bool y) →
      (analyseTag go (.tag k text attrs children) s).exec b =
        if y = w then
          (analyseTag go (.tag k text (attrs.erase (conditionKey w)) children) s).exec b
        else (.ok s, b)) ∧
    (∀ u, ((substitute v .text).exec c).1 = .ok (.pending u) → ∀ c',
      (∀ t, (resolveLate (.pending u) .text false).exec b.context = (.ok (some (.text t)), c') →
        (analyseTag go (.tag k text attrs children) s).exec b =
          (.ok s, { b with context := c' })) ∧
      ((resolveLate (.pending u) .text false).exec b.context = (.ok none, c') →
        (analyseTag go (.tag k text attrs children) s).exec b =
          (.error .unboundName, { b with context := c' })) ∧
      ∀ e, (resolveLate (.pending u) .text false).exec b.context =
          (.error (.substitution e), c') →
        (analyseTag go (.tag k text attrs children) s).exec b =
          (.ok s, { b with context := c', errors := b.errors ++ [e.text] })) ∧
    ∀ (f : Ref .file) (b' : Builder) (done : Bool), (addLaunch f).exec b = (.ok done, b') →
      ∀ r : Ref .inst, b.bench.model.instances.size ≤ r.index →
        r.index < b'.bench.model.instances.size →
        ∃ tree, (b.bench.model.file f).tree = some tree ∧
          ∃ path, Under (root f tree b) path r ∧ ∀ x ∈ path, x.value = .bool x.wanted := by
  obtain ⟨⟨x, hread, hx⟩, hother⟩ := hstates
  rw [SubstContext.exec_substitute_kind] at hread
  refine ⟨fun t y ht hy => ?_, fun u hu c' => ?_, fun f b' done h r hlo hhi => ?_⟩
  · rw [ht] at hread
    obtain rfl : Subst.bool y = x := Except.ok.inj (hy.symm.trans hread)
    exact analyseTag_settled go k text children s b hx hother
  · rw [hu] at hread
    obtain rfl : Subst.pending u = x := Except.ok.inj hread
    refine ⟨fun t hlate => ?_, fun hlate => ?_, fun e hlate => ?_⟩ <;>
      exact analyseTag_pending go k text children s b hx hother hlate
  · obtain ⟨tree, htree, path, hpath⟩ := exists_under_of_addLaunch h hlo hhi
    exact ⟨tree, htree, path, hpath, hpath.settled⟩

/-- The attributes of a node under one more attribute. -/
def nodeUnder (key : String) (x : Subst) : Table String Subst :=
  ⟨[(key, x), ("pkg", .text "tour"), ("type", .text "guide"), ("name", .text "one")]⟩

def opened : Builder := { gate "true" with context := { arguments := ⟨[("go", .text "true")]⟩ } }

/-- The node under `unless="0"` is as it is without a condition, the one under `if="$(arg go)"` is
passed over though the argument is `true`, and the one that is started is under `if="true"`. -/
theorem conditions_settled_in_file_gate :
    (States false "0" {} (nodeUnder "unless" (.bool false)) ∧
      (analyseTag (includeFile 0) (.tag .node "" (nodeUnder "unless" (.bool false)) [])
          { configuration := ⟨0⟩, launch := ⟨0⟩ }).exec opened =
        (analyseTag (includeFile 0)
          (.tag .node "" ((nodeUnder "unless" (.bool false)).erase "unless") [])
          { configuration := ⟨0⟩, launch := ⟨0⟩ }).exec opened) ∧
    (States true "$(arg go)" { arguments := ⟨[("go", .unset)]⟩ }
        (nodeUnder "if" (.pending ⟨[.command ["arg", "go"]]⟩)) ∧
      (resolveLate (.pending ⟨[.command ["arg", "go"]]⟩) .text false).exec opened.context =
        (.ok (some (.text "true")), opened.context) ∧
      (analyseTag (includeFile 0)
          (.tag .node "" (nodeUnder "if" (.pending ⟨[.command ["arg", "go"]]⟩)) [])
          { configuration := ⟨0⟩, launch := ⟨0⟩ }).exec opened =
        (.ok { configuration := ⟨0⟩, launch := ⟨0⟩ }, opened)) ∧
    ((addLaunch ⟨0⟩).exec (gate "true")).1 = .ok true ∧
    ∃ tree, ((gate "true").bench.model.file ⟨0⟩).tree = some tree ∧
      ∃ path, Under (root ⟨0⟩ tree (gate "true")) path ⟨0⟩ ∧
        ∀ x ∈ path, x.value = .bool x.wanted := by
  have hunless : States false "0" {} (nodeUnder "unless" (.bool false)) :=
    ⟨⟨.bool false, by decide +kernel, by decide +kernel⟩, by decide +kernel⟩
  have hif : States true "$(arg go)" { arguments := ⟨[("go", .unset)]⟩ }
      (nodeUnder "if" (.pending ⟨[.command ["arg", "go"]]⟩)) :=
    ⟨⟨.pending ⟨[.command ["arg", "go"]]⟩, by decide +kernel, by decide +kernel⟩,
      by decide +kernel⟩
  have hlate : (resolveLate (.pending ⟨[.command ["arg", "go"]]⟩) .text false).exec opened.context =
      (.ok (some (.text "true")), opened.context) := by decide +kernel
  have hok : ((addLaunch ⟨0⟩).exec (gate "true")).1 = .ok true := by decide +kernel
  have hexec : (addLaunch ⟨0⟩).exec (gate "true") =
      (.ok true, ((addLaunch ⟨0⟩).exec (gate "true")).2) := by
    rw [← hok]
  have hold : (gate "true").bench.model.instances.size ≤ 0 := by decide +kernel
  have hnew : 0 < ((addLaunch ⟨0⟩).exec (gate "true")).2.bench.model.instances.size := by
    decide +kernel
  refine ⟨⟨hunless, ?_⟩, ⟨hif, hlate, ?_⟩, hok, ?_⟩
  · exact (conditions_settled_in_file hunless _ _ _ _ _ opened).1 "0" false (by decide +kernel)
      (by decide +kernel)
  · exact ((conditions_settled_in_file hif _ _ _ _ _ opened).2.1 _ (by decide +kernel) _).1 _ hlate
  · exact (conditions_settled_in_file hif (includeFile 0) .node "" []
      { configuration := ⟨0⟩, launch := ⟨0⟩ } (gate "true")).2.2 ⟨0⟩ _ true hexec ⟨0⟩ hold hnew

end Builder

end RosAudit
