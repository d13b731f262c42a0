import RosAudit.Proofs.Configure.Places

/-!
# Renamings are lexically scoped

A renaming in a launch file counts for the nodes that come after it in its own scope and in the
scopes inside, and for no others : not for a node before it, and not for one outside the group, the
included file or the node in which it is written.

The rule is stated without the tables of renamings that scopes and node instances carry.
`renamingBy s b t` is the renaming that a tag adds where it stands, both names resolved there.
`Starts p trail r` says that the tags at the point `p` start the node instance `r`, and `trail`
gathers the renamings passed on the way down to its tag : in each scope around the node those that
stand before it, from the outside in, and then those of the tag itself.
-/

namespace RosAudit

open Job Model

/-- The same node instances, with the same renamings. -/
structure Model.SameRemaps (m m' : Model) : Prop where
  size : m'.instances.size = m.instances.size
  remaps : ∀ r, (m'.inst r).remaps = (m.inst r).remaps

instance : TopicDrift SameRemaps where
  refl _ := ⟨rfl, fun _ => rfl⟩
  trans _ _ _ h h' := ⟨h'.size.trans h.size, fun r => (h'.remaps r).trans (h.remaps r)⟩
  of_quiet h := ⟨h.size_instances, h.remaps_inst⟩
  listTopic _ _ := ⟨rfl, fun _ => rfl⟩
  attach m l side := by
    have hadd : ∀ n : NodeInstance, (n.addTo side l).remaps = n.remaps := by
      intro n
      cases side <;> rfl
    refine ⟨by rw [instances_attach, Array.size_modify], fun r => ?_⟩
    rw [inst, instances_attach]
    exact view_getD_modify _ _ NodeInstance.remaps hadd _ _

variable {s s₁ inner : LaunchScope}

namespace Builder

/-! ## Renamings as they are written -/

/-- Both names of a `remap` tag as `Name.resolve` has them in the scope of the tag, if the texts of
its fields are known and can be resolved. -/
def resolvedPair (s : LaunchScope) (b : Builder) (attrs : Table String Subst) :
    Option (String × String) :=
  match (textField .remap attrs "origin").exec b with
  | (.ok source, b₁) =>
    match (textField .remap attrs "target").exec b₁ with
    | (.ok target, b₂) =>
      let privateNs := s.privateSpace b₂.bench.model
      match Name.resolve (source.getD "") s.space privateNs,
          Name.resolve (target.getD "") s.space privateNs with
      | .ok source, .ok target => some (source, target)
      | _, _ => none
    | _ => none
  | _ => none

/-- The renaming that a tag adds to its scope, if it counts. -/
def renamingBy (s : LaunchScope) (b : Builder) : LaunchTree → Option (String × String)
  | .tag .remap _ attrs [] =>
    match (counts (Condition.of attrs)).exec b with
    | (.ok true, b₁) => resolvedPair s b₁ attrs
    | _ => none
  | _ => none

theorem toOption_renamingOf (attrs s b) :
    ((renamingOf attrs s).exec b).1.toOption = resolvedPair s b attrs := by
  unfold renamingOf resolvedPair
  rw [exec_bind]
  rcases (textField .remap attrs "origin").exec b with ⟨f | source, b₁⟩
  · rfl
  · dsimp only
    rw [exec_bind]
    rcases (textField .remap attrs "target").exec b₁ with ⟨f | target, b₂⟩
    · rfl
    · change ((ofResult (s.fullNames b₂.bench.model _ _) : Job Builder _).exec b₂).1.toOption = _
      rw [exec_ofResult, LaunchScope.fullNames]
      dsimp only
      cases Name.resolve (source.getD "") s.space (s.privateSpace b₂.bench.model) <;>
        cases Name.resolve (target.getD "") s.space (s.privateSpace b₂.bench.model) <;> rfl

/-- A point in the work on a launch file : how deep inclusions may still nest, the tags to come,
the scope they stand in and the state before them. -/
structure Point where
  depth : Nat
  tags : List LaunchTree
  scope : LaunchScope
  builder : Builder

/-- The work on the tags of a point. -/
def Point.run (p : Point) : Result LaunchScope × Builder :=
  (analyse (includeFile p.depth) p.tags p.scope).exec p.builder

/-- The renamings that the tags of a list add to their common scope, in document order. -/
def renamingsBy (n : Nat) : List LaunchTree → LaunchScope → Builder → List (String × String)
  | [], _, _ => []
  | t :: ts, s, b =>
    (renamingBy s b t).toList ++
      match (analyseTag (includeFile n) t s).exec b with
      | (.ok s', b') => renamingsBy n ts s' b'
      | (.error _, _) => []

def Point.renamings (p : Point) : List (String × String) :=
  renamingsBy p.depth p.tags p.scope p.builder

/-- The point inside a tag, where the work on the tags of a node, a group or an included file
begins. -/
inductive Opens (s : LaunchScope) (b : Builder) : Nat → LaunchTree → Point → Prop
  | node {n : Nat} {text : String} {attrs : Table String Subst} {children : List LaunchTree}
    {b₁ b₂ : Builder} {node : Ref .node} {inner : LaunchScope}
    (hcounts : (counts (Condition.of attrs)).exec b = (.ok true, b₁))
    (hstart : (startNode attrs s).exec b₁ = (.ok (node, inner), b₂)) :
    Opens s b n (.tag .node text attrs children) ⟨n, children, inner, b₂⟩
  | group {n : Nat} {text : String} {attrs : Table String Subst} {children : List LaunchTree}
    {b₁ b₂ : Builder} {inner : LaunchScope}
    (hcounts : (counts (Condition.of attrs)).exec b = (.ok true, b₁))
    (hopen : (openGroup attrs s).exec b₁ = (.ok inner, b₂)) :
    Opens s b n (.tag .group text attrs children) ⟨n, children, inner, b₂⟩
  | inclusion {n : Nat} {text : String} {attrs : Table String Subst} {children : List LaunchTree}
    {b₁ b₂ : Builder} {x : Included}
    (hcounts : (counts (Condition.of attrs)).exec b = (.ok true, b₁))
    (hopen : (openInclusion attrs children s).exec b₁ = (.ok x, b₂)) :
    Opens s b (n + 1) (.tag .inclusion text attrs children) ⟨n, tagsOf x.tree, x.scope, b₂.enter x⟩

/-- The tags of a point start the node instance `r`, and `trail` lists the renamings from there to
it : those that stand before it in each scope around it, from the outside in, and then those of its
own tag. -/
inductive Starts : Point → List (String × String) → Ref .inst → Prop
  | here {n : Nat} {text : String} {attrs : Table String Subst} {children ts : List LaunchTree}
    {s : LaunchScope} {b : Builder} {p : Point} {r : Ref .inst}
    (hopen : Opens s b n (.tag .node text attrs children) p) (hr : p.scope.node = some r) :
    Starts ⟨n, .tag .node text attrs children :: ts, s, b⟩ p.renamings r
  | inside {n : Nat} {t : LaunchTree} {ts : List LaunchTree} {s : LaunchScope} {b : Builder}
    {p : Point} {trail : List (String × String)} {r : Ref .inst}
    (hopen : Opens s b n t p) (h : Starts p trail r) : Starts ⟨n, t :: ts, s, b⟩ trail r
  | later {n : Nat} {t : LaunchTree} {ts : List LaunchTree} {s s' : LaunchScope} {b b' : Builder}
    {trail : List (String × String)} {r : Ref .inst}
    (ht : (analyseTag (includeFile n) t s).exec b = (.ok s', b'))
    (h : Starts ⟨n, ts, s', b'⟩ trail r) :
    Starts ⟨n, t :: ts, s, b⟩ ((renamingBy s b t).toList ++ trail) r

/-! ## What the work on some tags does -/

def remapsOf (b : Builder) (r : Ref .inst) : Remaps := (b.bench.model.inst r).remaps

def NodeIn (s : LaunchScope) (b : Builder) : Prop := ∀ r, s.node = some r → r.index < b.count

/-- The tags of a point were worked through, up to the scope `s'` and the state `b'`. -/
structure Worked (p : Point) (s' : LaunchScope) (b' : Builder) : Prop where
  node : s'.node = p.scope.node
  remaps : s'.remapsIn b'.bench.model =
    (p.scope.remapsIn p.builder.bench.model).putAll p.renamings
  grows : p.builder.count ≤ b'.count
  others : ∀ r : Ref .inst, r.index < p.builder.count → p.scope.node ≠ some r →
    b'.remapsOf r = p.builder.remapsOf r
  found : ∀ r : Ref .inst, p.builder.count ≤ r.index → r.index < b'.count →
    ∃ trail, Starts p trail r
  trail : ∀ {trail r}, Starts p trail r → p.builder.count ≤ r.index ∧ r.index < b'.count ∧
    b'.remapsOf r = (p.scope.remapsIn p.builder.bench.model).putAll trail

variable {n : Nat} {t : LaunchTree} {s s' : LaunchScope} {b b₁ b' : Builder} {p : Point}
  {trail : List (String × String)} {r : Ref .inst}

theorem not_starts_nil : ¬ Starts ⟨n, [], s, b⟩ trail r := by
  intro h
  cases h

theorem Worked.nil (n s b) : Worked ⟨n, [], s, b⟩ s b where
  node := rfl
  remaps := rfl
  grows := Nat.le_refl _
  others _ _ _ := rfl
  found _ h h' := absurd (Nat.lt_of_lt_of_le h' h) (Nat.lt_irrefl _)
  trail h := absurd h not_starts_nil

theorem renamings_singleton (n t s b) :
    Point.renamings ⟨n, [t], s, b⟩ = (renamingBy s b t).toList := by
  simp only [Point.renamings, renamingsBy]
  split <;> exact List.append_nil _

theorem Starts.of_singleton (h : Starts ⟨n, [t], s, b⟩ trail r) (ts) :
    Starts ⟨n, t :: ts, s, b⟩ trail r := by
  cases h with
  | here hopen hr => exact .here hopen hr
  | inside hopen h => exact .inside hopen h
  | later _ h => exact absurd h not_starts_nil

theorem Worked.cons {ts s s₁ s'} (ht : (analyseTag (includeFile n) t s).exec b = (.ok s₁, b₁))
    (hs : NodeIn s b) (h₁ : Worked ⟨n, [t], s, b⟩ s₁ b₁) (h₂ : Worked ⟨n, ts, s₁, b₁⟩ s' b') :
    Worked ⟨n, t :: ts, s, b⟩ s' b' := by
  have hfirst : s₁.remapsIn b₁.bench.model =
      (s.remapsIn b.bench.model).putAll (renamingBy s b t).toList := by
    rw [h₁.remaps, renamings_singleton]
  have hlast : ∀ trail, (s₁.remapsIn b₁.bench.model).putAll trail =
      (s.remapsIn b.bench.model).putAll ((renamingBy s b t).toList ++ trail) := by
    intro trail
    rw [hfirst, Table.putAll_append]
  refine ⟨h₂.node.trans h₁.node, ?_, Nat.le_trans h₁.grows h₂.grows, ?_, ?_, ?_⟩
  · rw [h₂.remaps]
    simp only [Point.renamings, renamingsBy, ht]
    exact hlast _
  · intro r hr hne
    have hne₁ : s₁.node ≠ some r := by rwa [h₁.node]
    exact (h₂.others r (Nat.lt_of_lt_of_le hr h₁.grows) hne₁).trans (h₁.others r hr hne)
  · intro r hr hr'
    by_cases hmid : r.index < b₁.count
    · obtain ⟨trail, h⟩ := h₁.found r hr hmid
      exact ⟨trail, h.of_singleton ts⟩
    · obtain ⟨trail, h⟩ := h₂.found r (Nat.le_of_not_lt hmid) hr'
      exact ⟨_, .later ht h⟩
  · intro trail r h
    -- an instance of the first tag is not the node of the scope, so the later tags leave it alone
    have hkeep : ∀ {trail}, Starts ⟨n, [t], s, b⟩ trail r → b.count ≤ r.index ∧
        r.index < b'.count ∧ b'.remapsOf r = (s.remapsIn b.bench.model).putAll trail := by
      intro trail h
      obtain ⟨hlo, hhi, hr⟩ := h₁.trail h
      have hne : s₁.node ≠ some r := by
        intro hnode
        have := hs r (h₁.node ▸ hnode)
        exact absurd hlo (Nat.not_le_of_lt this)
      exact ⟨hlo, Nat.lt_of_lt_of_le hhi h₂.grows, (h₂.others r hhi hne).trans hr⟩
    cases h with
    | here hopen hr => exact hkeep (.here hopen hr)
    | inside hopen h => exact hkeep (.inside hopen h)
    | later ht' h =>
      rw [ht] at ht'
      cases ht'
      obtain ⟨hlo, hhi, hr⟩ := h₂.trail h
      exact ⟨Nat.le_trans h₁.grows hlo, hhi, hr.trans (hlast _)⟩

/-! ## Inside a tag -/

theorem Opens.unique {p p'} (h : Opens s b n t p) (h' : Opens s b n t p') : p = p' := by
  cases h with
  | node hcounts hopen | group hcounts hopen | inclusion hcounts hopen =>
    cases h'
    rename_i hcounts' hopen'
    cases hcounts.symm.trans hcounts'
    cases hopen.symm.trans hopen'
    rfl

/-- Where the work inside a tag begins : the renamings in force are those around the tag, and at
most one node was started, the one of the tag. -/
structure Entered (s : LaunchScope) (b : Builder) (t : LaunchTree) (p : Point) : Prop where
  remaps : p.scope.remapsIn p.builder.bench.model = s.remapsIn b.bench.model
  others : ∀ r : Ref .inst, r.index < b.count → p.builder.remapsOf r = b.remapsOf r
  node : p.scope.node = none ∧ p.builder.count = b.count ∨
    p.scope.node = some ⟨b.count⟩ ∧ p.builder.count = b.count + 1 ∧
      ∃ text attrs children, t = .tag .node text attrs children

theorem Entered.nodeIn (h : Entered s b t p) : NodeIn p.scope p.builder := by
  intro r hr
  rcases h.node with ⟨hnone, -⟩ | ⟨hsome, hcount, -⟩
  · rw [hnone] at hr
    cases hr
  · rw [hsome] at hr
    cases hr
    rw [hcount]
    exact Nat.lt_succ_self _

theorem Entered.count_le (h : Entered s b t p) : b.count ≤ p.builder.count := by
  rcases h.node with ⟨-, hcount⟩ | ⟨-, hcount, -⟩ <;> omega

theorem remapsIn_eq (h : ∀ r, s.node = some r → b'.remapsOf r = b.remapsOf r) :
    s.remapsIn b'.bench.model = s.remapsIn b.bench.model := by
  unfold LaunchScope.remapsIn
  split
  · rename_i r hr
    exact h r hr
  · rfl

theorem Worked.enclose {b b'} (hs : NodeIn s b) (hopen : Opens s b n t p) (hin : Entered s b t p)
    (ht : renamingBy s b t = none) (h : Worked p inner b') :
    Worked ⟨n, [t], s, b⟩ s b' := by
  have hkeep : ∀ r : Ref .inst, r.index < b.count → b'.remapsOf r = b.remapsOf r := by
    intro r hr
    have hne : p.scope.node ≠ some r := by
      rcases hin.node with ⟨hnone, -⟩ | ⟨hsome, -⟩
      · simp [hnone]
      · rw [hsome]
        rintro ⟨⟩
        exact Nat.lt_irrefl _ hr
    exact (h.others r (Nat.lt_of_lt_of_le hr hin.count_le) hne).trans (hin.others r hr)
  refine ⟨rfl, ?_, Nat.le_trans hin.count_le h.grows, fun r hr _ => hkeep r hr, ?_, ?_⟩
  · rw [renamings_singleton, ht]
    exact remapsIn_eq fun r hr => hkeep r (hs r hr)
  · intro r hlo hhi
    by_cases hr : r.index < p.builder.count
    · -- only the node of the tag itself was started before the work inside
      rcases hin.node with ⟨-, hsame⟩ | ⟨hsome, hone, text, attrs, children, rfl⟩
      · exact absurd hr (by rw [hsame]; exact Nat.not_lt_of_le hlo)
      · have hnew : r = ⟨b.count⟩ := by
          rw [hone] at hr
          exact congrArg Ref.mk (Nat.le_antisymm (Nat.le_of_lt_succ hr) hlo)
        exact ⟨_, .here hopen (hnew ▸ hsome)⟩
    · obtain ⟨trail, hstart⟩ := h.found r (Nat.le_of_not_lt hr) hhi
      exact ⟨trail, .inside hopen hstart⟩
  · intro trail r hstart
    cases hstart with
    | here hopen' hr =>
      obtain rfl := hopen.unique hopen'
      have hindex : r.index = b.count ∧ r.index < p.builder.count := by
        rcases hin.node with ⟨hnone, -⟩ | ⟨hsome, hone, -⟩
        · simp [hnone] at hr
        · rw [hsome] at hr
          cases hr
          exact ⟨rfl, by rw [hone]; exact Nat.lt_succ_self _⟩
      refine ⟨Nat.le_of_eq hindex.1.symm, Nat.lt_of_lt_of_le hindex.2 h.grows, ?_⟩
      have hnode : inner.remapsIn b'.bench.model = b'.remapsOf r := by
        rw [LaunchScope.remapsIn, h.node, hr]
        rfl
      rw [← hnode, h.remaps, hin.remaps]
    | inside hopen' hstart =>
      obtain rfl := hopen.unique hopen'
      obtain ⟨hlo, hhi, hr⟩ := h.trail hstart
      exact ⟨Nat.le_trans hin.count_le hlo, hhi, by rw [hr, hin.remaps]⟩
    | later _ hstart => exact absurd hstart not_starts_nil

theorem quiet_counts {c r} (h : (counts c).exec b = (r, b₁)) : Quiet b.bench.model b₁.bench.model :=
  ((within_counts c).of_exec h : Along Quiet b b₁).model

theorem entered_inside {b b₁ b₂ : Builder} (n ts) (hin : LaunchScope.Inside s b₁.bench.model inner)
    (h₁ : Quiet b.bench.model b₁.bench.model) (h₂ : Quiet b₁.bench.model b₂.bench.model) :
    Entered s b t ⟨n, ts, inner, b₂⟩ where
  remaps := by
    rw [LaunchScope.remapsIn, hin.node]
    exact hin.remaps.trans (s.remapsIn_quiet h₁)
  others r _ := Quiet.remaps_inst (h₁.trans h₂) r
  node := .inl ⟨hin.node, (h₁.trans h₂).size_instances⟩

theorem entered_of_opens (h : Opens s b n t p) : Entered s b t p := by
  cases h with
  | @node _ _ attrs _ b₁ b₂ node inner hcounts hstart =>
    obtain ⟨-, -, -, m, hm, hst⟩ := (meets_startNode (R := Quiet) attrs s b₁).of_ok rfl hstart
    have hq := (quiet_counts hcounts).trans hm
    have hsize : m.instances.size = b.count := hq.size_instances
    refine ⟨?_, fun r hr => ?_, .inr ⟨hsize ▸ hst.node, ?_, _, _, _, rfl⟩⟩
    · obtain ⟨x, hx, -, hremaps, -⟩ := hst.fresh
      rw [LaunchScope.remapsIn, hst.node]
      exact (congrArg NodeInstance.remaps hx).trans (hremaps.trans (s.remapsIn_quiet hq))
    · have hinst := hst.inst r (hsize ▸ hr)
      exact (congrArg NodeInstance.remaps hinst).trans (Quiet.remaps_inst hq r)
    · exact hst.size_instances.trans (by rw [hsize])
  | group hcounts hopen =>
    exact entered_inside _ _ (opened_group hopen).inside (quiet_counts hcounts)
      ((within_openGroup _ _).of_exec hopen : Along Quiet _ _).model
  | inclusion hcounts hopen =>
    exact entered_inside _ _ (opened_inclusion hopen).inside (quiet_counts hcounts)
      ((within_openInclusion _ _ _).of_exec hopen : Along Quiet _ _).model

theorem Worked.plain (hnode : s'.node = s.node) (hremaps : s'.remapsIn b'.bench.model =
      (s.remapsIn b.bench.model).putAll (renamingBy s b t).toList) (hcount : b'.count = b.count)
    (hothers : ∀ r, s.node ≠ some r → b'.remapsOf r = b.remapsOf r)
    (hopen : ∀ p, ¬ Opens s b n t p) : Worked ⟨n, [t], s, b⟩ s' b' where
  node := hnode
  remaps := by
    rwa [renamings_singleton]
  grows := Nat.le_of_eq hcount.symm
  others r _ := hothers r
  found r hlo hhi := absurd hlo (Nat.not_le_of_lt (hcount ▸ hhi))
  trail h := by
    cases h with
    | here h _ | inside h _ => exact absurd h (hopen _)
    | later _ h => exact absurd h not_starts_nil

theorem Worked.idle (hnode : s'.node = s.node) (hscope : s'.remaps = s.remaps)
    (hsame : SameRemaps b.bench.model b'.bench.model) (ht : renamingBy s b t = none)
    (hopen : ∀ p, ¬ Opens s b n t p) : Worked ⟨n, [t], s, b⟩ s' b' := by
  refine .plain hnode ?_ hsame.size (fun r _ => hsame.remaps r) hopen
  rw [ht]
  unfold LaunchScope.remapsIn
  rw [hnode, hscope]
  cases s.node with
  | some r => exact hsame.remaps r
  | none => rfl

/-! ## One tag -/

section Tag

variable {k : TagKind} {text : String} {attrs : Table String Subst} {children : List LaunchTree}
  {r : Result LaunchScope}

theorem renamingBy_of_ne (hk : k ≠ .remap) :
    renamingBy s b (.tag k text attrs children) = none := by
  unfold renamingBy
  split
  · rename_i heq
    cases heq
    exact absurd rfl hk
  · rfl

theorem renamingBy_of_not_counts
    (h : ∀ b₁, (counts (Condition.of attrs)).exec b ≠ (.ok true, b₁)) :
    renamingBy s b (.tag k text attrs children) = none := by
  unfold renamingBy
  split
  · rename_i heq
    cases heq
    split
    · rename_i hc
      exact absurd hc (h _)
    · rfl
  · rfl

theorem not_opens_of_not_counts
    (h : ∀ b₁, (counts (Condition.of attrs)).exec b ≠ (.ok true, b₁)) (p : Point) :
    ¬ Opens s b n (.tag k text attrs children) p := by
  intro hopen
  cases hopen with
  | node hcounts _ | group hcounts _ | inclusion hcounts _ => exact h _ hcounts

theorem Worked.of_same {b' b''} (h : Worked p s' b')
    (hsame : SameRemaps b'.bench.model b''.bench.model) : Worked p s' b'' := by
  have hcount : b''.count = b'.count := hsame.size
  refine ⟨h.node, (remapsIn_eq fun r _ => hsame.remaps r).trans h.remaps,
    hcount ▸ h.grows, ?_, ?_, ?_⟩
  · exact fun r hr hne => (hsame.remaps r).trans (h.others r hr hne)
  · exact fun r hlo hhi => h.found r hlo (hcount ▸ hhi)
  · intro trail r hstart
    obtain ⟨hlo, hhi, hr⟩ := h.trail hstart
    exact ⟨hlo, hcount ▸ hhi, (hsame.remaps r).trans hr⟩

def WorkedInside (s : LaunchScope) (b : Builder) (n : Nat) (t : LaunchTree) : Prop :=
  ∀ p inner b₃, Opens s b n t p → p.run = (.ok inner, b₃) → Worked p inner b₃

theorem worked_opening {α : Type} {first : Job Builder α} {body} (hs : NodeIn s b)
    (hb₁ : Quiet b.bench.model b₁.bench.model) (hnone : renamingBy s b t = none)
    (ih : WorkedInside s b n t) (hopen : ∀ p, Opens s b n t p → ∃ x b₂, first.exec b₁ = (.ok x, b₂))
    (hstop : ∀ f b₂, first.exec b₁ = (.error f, b₂) → f.isNoted = true →
      Quiet b₁.bench.model b₂.bench.model)
    (hbody : ∀ x b₂, first.exec b₁ = (.ok x, b₂) → (body x).exec b₂ = (r, b') →
      ∃ p rest, Opens s b n t p ∧ (body x).exec b₂ =
      (analyse (includeFile p.depth) p.tags p.scope >>= rest).exec p.builder ∧
      (∀ inner b₃, SameRemaps b₃.bench.model ((rest inner).exec b₃).2.bench.model) ∧
      ∀ inner, Returns (· = s) (rest inner))
    (h : (first >>= body).exec b₁ = (r, b')) (hr : ∀ f, r = .error f → f.isNoted = true) :
    Worked ⟨n, [t], s, b⟩ (r.toOption.getD s) b' := by
  rw [exec_bind] at h
  rcases hfirst : first.exec b₁ with ⟨f | x, b₂⟩ <;> rw [hfirst] at h
  · cases h
    have hsame := Drift.of_quiet (R := SameRemaps) (hb₁.trans (hstop f b' hfirst (hr f rfl)))
    refine .idle rfl rfl hsame hnone fun p hp => ?_
    obtain ⟨x, b₂, hx⟩ := hopen p hp
    rw [hfirst] at hx
    cases hx
  · obtain ⟨p, rest, hp, hexec, hlast, hreturns⟩ := hbody x b₂ hfirst h
    dsimp only at h
    rw [hexec, exec_bind] at h
    rcases hrun :
      (analyse (includeFile p.depth) p.tags p.scope).exec p.builder with ⟨f | inner, b₃⟩ <;>
      rw [hrun] at h
    · cases h
      exact absurd (hr f rfl) (by simp [throws_analyse _ _ _ _ _ _ hrun])
    · dsimp only at h
      have hsame := hlast inner b₃
      rw [h] at hsame
      have hscope : r.toOption.getD s = s := by
        cases r with
        | error f => rfl
        | ok s' => exact hreturns inner b₃ s' b' h
      rw [hscope]
      exact ((ih p inner b₃ hp hrun).of_same hsame).enclose hs hp (entered_of_opens hp) hnone

section Opening

variable (hs : NodeIn s b) (hcounts : (counts (Condition.of attrs)).exec b = (.ok true, b₁))
  (hr : ∀ f, r = .error f → f.isNoted = true)
include hs hcounts hr

theorem worked_node (ih : WorkedInside s b n (.tag .node text attrs children))
    (h : (do
      let (node, inner) ← startNode attrs s
      let inner ← analyse (includeFile n) children inner
      linkNode inner node
      pure s : Job Builder LaunchScope).exec b₁ = (r, b')) :
    Worked ⟨n, [.tag .node text attrs children], s, b⟩ (r.toOption.getD s) b' := by
  refine worked_opening hs (quiet_counts hcounts) (renamingBy_of_ne (by decide)) ih ?_ ?_ ?_ h hr
  · rintro p (⟨hcounts', hst⟩ | _ | _)
    rw [hcounts] at hcounts'
    cases hcounts'
    exact ⟨_, _, hst⟩
  · intro f b₂ hst hf
    rcases (meets_startNode (R := Quiet) attrs s b₁).of_error rfl hst with hq | ⟨rfl, -⟩
    · exact hq.model
    · cases hf
  · rintro ⟨node, inner⟩ b₂ hst -
    refine ⟨_, fun inner => linkNode inner node >>= fun _ => pure s, .node hcounts hst, rfl,
      fun inner b₃ => ?_, fun _ => Returns.after fun _ => returns_pure rfl⟩
    rw [exec_bind_pure]
    exact ((bounded_linkNode inner node).within b₃).model

theorem worked_group (ih : WorkedInside s b n (.tag .group text attrs children))
    (h : (do
      let inner ← openGroup attrs s
      let _ ← analyse (includeFile n) children inner
      pure s : Job Builder LaunchScope).exec b₁ = (r, b')) :
    Worked ⟨n, [.tag .group text attrs children], s, b⟩ (r.toOption.getD s) b' := by
  refine worked_opening hs (quiet_counts hcounts) (renamingBy_of_ne (by decide)) ih ?_ ?_ ?_ h hr
  · rintro p (_ | ⟨hcounts', hst⟩ | _)
    rw [hcounts] at hcounts'
    cases hcounts'
    exact ⟨_, _, hst⟩
  · intro f b₂ hst _
    exact ((within_openGroup attrs s).of_exec hst : Along Quiet b₁ b₂).model
  · intro inner b₂ hst _
    exact ⟨_, fun _ => pure s, .group hcounts hst, rfl, fun _ _ => refl_of SameRemaps _,
      fun _ => returns_pure rfl⟩

theorem worked_inclusion (ih : WorkedInside s b n (.tag .inclusion text attrs children))
    (h : (do
      includeFile n (← openInclusion attrs children s)
      pure s : Job Builder LaunchScope).exec b₁ = (r, b')) :
    Worked ⟨n, [.tag .inclusion text attrs children], s, b⟩ (r.toOption.getD s) b' := by
  refine worked_opening hs (quiet_counts hcounts) (renamingBy_of_ne (by decide)) ih ?_ ?_ ?_ h hr
  · rintro p (_ | _ | ⟨hcounts', hst⟩)
    rw [hcounts] at hcounts'
    cases hcounts'
    exact ⟨_, _, hst⟩
  · intro f b₂ hst _
    exact ((within_openInclusion attrs children s).of_exec hst : Along Quiet b₁ b₂).model
  · intro x b₂ hst hbody
    cases n with
    | zero =>
      cases hbody
      exact absurd (hr _ rfl) (by decide)
    | succ n =>
      refine ⟨_, fun _ => modify b₂.leave >>= fun _ => pure s, .inclusion hcounts hst, ?_,
        fun _ _ => refl_of SameRemaps _, fun _ => Returns.after fun _ => returns_pure rfl⟩
      rw [exec_bind, exec_includeFile, ← exec_bind, bind_assoc]

end Opening

theorem not_opens_of_leaf (hk : k ≠ .node ∧ k ≠ .group ∧ k ≠ .inclusion) (p : Point) :
    ¬ Opens s b n (.tag k text attrs children) p := by
  rintro (_ | _ | _)
  · exact hk.1 rfl
  · exact hk.2.1 rfl
  · exact hk.2.2 rfl

theorem worked_leaf (hk : k ≠ .node ∧ k ≠ .group ∧ k ≠ .inclusion) (hremap : k ≠ .remap)
    (hcounts : (counts (Condition.of attrs)).exec b = (.ok true, b₁))
    (h : (leafTag k text attrs s).exec b₁ = (r, b')) :
    Worked ⟨n, [.tag k text attrs children], s, b⟩ (r.toOption.getD s) b' := by
  have hq : Along Quiet b₁ b' := (within_leafTag hremap text attrs s).of_exec h
  have hcore : (r.toOption.getD s).core = s.core := by
    cases r with
    | error f => rfl
    | ok s' => exact returns_leafTag hremap text attrs s _ _ _ h
  have hnode := congrArg LaunchScope.node hcore
  have hremaps := congrArg LaunchScope.remaps hcore
  exact .idle hnode hremaps (Drift.of_quiet ((quiet_counts hcounts).trans hq.model))
    (renamingBy_of_ne hremap) (not_opens_of_leaf hk)

theorem worked_remap (hs : NodeIn s b)
    (hcounts : (counts (Condition.of attrs)).exec b = (.ok true, b₁))
    (h : (leafTag .remap text attrs s).exec b₁ = (r, b')) :
    Worked ⟨n, [.tag .remap text attrs []], s, b⟩ (r.toOption.getD s) b' := by
  have hleaf : ∀ p, ¬ Opens s b n (.tag .remap text attrs []) p := not_opens_of_leaf (by decide)
  rw [leafTag, exec_bind] at h
  rcases hpair : (renamingOf attrs s).exec b₁ with ⟨f | ⟨source, target⟩, b₂⟩
  · have hnone : renamingBy s b (.tag .remap text attrs []) = none := by
      simp only [renamingBy, hcounts, ← toOption_renamingOf, hpair]
      rfl
    have hq : Along Quiet b₁ b₂ := (within_renamingOf attrs s).of_exec hpair
    rw [hpair] at h
    cases h
    exact .idle rfl rfl (Drift.of_quiet ((quiet_counts hcounts).trans hq.model)) hnone hleaf
  · have hsome : renamingBy s b (.tag .remap text attrs []) = some (source, target) := by
      simp only [renamingBy, hcounts, ← toOption_renamingOf, hpair]
      rfl
    have hq := (quiet_counts hcounts).trans
      ((within_renamingOf attrs s).of_exec hpair : Along Quiet b₁ b₂).model
    rw [hpair] at h
    simp only [LaunchScope.rename] at h
    cases hnode : s.node with
    | none =>
      rw [hnode] at h
      cases h
      refine .plain hnode.symm ?_ hq.size_instances (fun r _ => Quiet.remaps_inst hq r) hleaf
      rw [hsome, LaunchScope.remapsIn, LaunchScope.remapsIn, hnode]
      rfl
    | some i =>
      rw [hnode] at h
      cases h
      have hi : i.index < b₂.bench.model.instances.size := hq.size_instances ▸ hs i hnode
      refine .plain rfl ?_ ?_ ?_ hleaf
      · have hput := congrArg NodeInstance.remaps (getD_modify_self b₂.bench.model.instances default
          (fun x => { x with remaps := x.remaps.put source target }) hi)
        rw [hsome]
        simp only [LaunchScope.remapsIn, Except.toOption, Option.getD_some, hnode]
        exact hput.trans (congrArg (·.put source target) (Quiet.remaps_inst hq i))
      · exact (Array.size_modify ..).trans hq.size_instances
      · intro r hr
        have hne : i.index ≠ r.index := by
          intro h
          exact hr (hnode.trans (congrArg (fun k => some (Ref.mk k)) h))
        exact (congrArg NodeInstance.remaps (getD_modify_of_ne _ default _ hne)).trans
          (Quiet.remaps_inst hq r)

/-- A tag that is carried out, or cannot be used for a reason that is noted. -/
theorem worked_carryOut (hs : NodeIn s b)
    (ih : WorkedInside s b n (.tag k text attrs children))
    (h : (carryOut (includeFile n) (fun inner => analyse (includeFile n) children inner) k text
      attrs children s).exec b = (r, b')) (hr : ∀ f, r = .error f → f.isNoted = true) :
    Worked ⟨n, [.tag k text attrs children], s, b⟩ (r.toOption.getD s) b' := by
  have hskip : (∀ b₁, (counts (Condition.of attrs)).exec b ≠ (.ok true, b₁)) →
      Quiet b.bench.model b'.bench.model →
      Worked ⟨n, [.tag k text attrs children], s, b⟩ s b' := by
    intro hc hq
    exact .idle rfl rfl (Drift.of_quiet hq) (renamingBy_of_not_counts hc)
      (not_opens_of_not_counts hc)
  unfold carryOut at h
  rw [exec_bind] at h
  rcases hc : (counts (Condition.of attrs)).exec b with ⟨f | c, b₁⟩
  · rw [hc] at h
    cases h
    exact hskip (fun b₁ h => by simp [hc] at h) (quiet_counts hc)
  · rw [hc] at h
    cases c with
    | false =>
      cases h
      exact hskip (fun b₁ h => by simp [hc] at h) (quiet_counts hc)
    | true =>
      -- the tags that may have none inside
      have hleaf : ∀ {k}, k ≠ .node ∧ k ≠ .group ∧ k ≠ .inclusion →
          (do if !children.isEmpty then throw .broken
              leafTag k text attrs s : Job Builder LaunchScope).exec b₁ = (r, b') →
          Worked ⟨n, [.tag k text attrs children], s, b⟩ (r.toOption.getD s) b' := by
        intro k hk h
        cases children with
        | cons t ts =>
          cases h
          exact absurd (hr _ rfl) (by decide)
        | nil =>
          by_cases hremap : k = .remap
          · subst hremap
            exact worked_remap hs hc h
          · exact worked_leaf hk hremap hc h
      cases k with
      | node => exact worked_node hs hc hr ih h
      | group => exact worked_group hs hc hr ih h
      | inclusion => exact worked_inclusion hs hc hr ih h
      | test =>
        cases h
        exact .idle rfl rfl (Drift.of_quiet (quiet_counts hc)) (renamingBy_of_ne (by decide))
          (not_opens_of_leaf (by decide))
      | launch =>
        cases h
        exact absurd (hr _ rfl) (by decide)
      | _ => exact hleaf (by decide) h

theorem worked_tag (hs : NodeIn s b) (ih : WorkedInside s b n t)
    (h : (analyseTag (includeFile n) t s).exec b = (.ok s', b')) : Worked ⟨n, [t], s, b⟩ s' b' := by
  cases t with
  | error message =>
    cases h
    exact .idle rfl rfl ⟨rfl, fun _ => rfl⟩ rfl fun p hp => by cases hp
  | tag k text attrs children =>
    rcases noting_ok h with hj | ⟨f, b₁, errors, hj, hf, rfl, rfl⟩
    · exact worked_carryOut hs ih hj fun f hf => by cases hf
    · refine (worked_carryOut hs ih hj fun g hg => ?_).of_same (refl_of SameRemaps _)
      cases hg
      exact hf

end Tag

/-! ## Whole files -/

theorem Opens.smaller (h : Opens s b n t p) :
    p.depth < n ∨ p.depth = n ∧ sizeOf p.tags < sizeOf t := by
  cases h with
  | node | group => exact .inr ⟨rfl, by simp only [LaunchTree.tag.sizeOf_spec]; omega⟩
  | inclusion => exact .inl (Nat.lt_succ_self _)

theorem worked (n ts) {s s' b b'} (hs : NodeIn s b)
    (h : (analyse (includeFile n) ts s).exec b = (.ok s', b')) :
    Worked ⟨n, ts, s, b⟩ s' b' := by
  match ts with
  | [] =>
    cases h
    exact .nil n s b
  | t :: ts =>
    obtain ⟨s₁, b₁, ht, hts⟩ := exec_bind_ok.mp h
    have htag : Worked ⟨n, [t], s, b⟩ s₁ b₁ := by
      refine worked_tag hs (fun p inner b₃ hopen hrun => ?_) ht
      have hsmaller := hopen.smaller
      exact worked p.depth p.tags (entered_of_opens hopen).nodeIn hrun
    have hs₁ : NodeIn s₁ b₁ := by
      intro r hr
      exact Nat.lt_of_lt_of_le (hs r (htag.node ▸ hr)) htag.grows
    exact htag.cons ht hs (worked n ts hs₁ hts)
termination_by (n, sizeOf ts)
decreasing_by
  · rcases hsmaller with hlt | ⟨heq, hlt⟩
    · exact Prod.Lex.left _ _ hlt
    · rw [heq]
      simp only [List.cons.sizeOf_spec]
      omega
  · refine Prod.Lex.right _ ?_
    simp only [List.cons.sizeOf_spec]
    omega

def root (f : Ref .file) (tree : LaunchTree) (b : Builder) : Point where
  depth := nesting
  tags := tagsOf tree
  scope := { configuration := b.configuration, launch := f }
  builder := (b.enlist f).launching f

theorem worked_of_addLaunch {f done} (h : (addLaunch f).exec b = (.ok done, b')) :
    b'.bench.model.instances = b.bench.model.instances ∨
    ∃ tree s₁ b₁, (b.bench.model.file f).tree = some tree ∧ Worked (root f tree b) s₁ b₁ ∧
      SameRemaps b₁.bench.model b'.bench.model := by
  rcases exists_of_addLaunch h with ⟨-, -, errors, rfl⟩ | ⟨-, tree, b₂, htree, hrun, -, -, rfl⟩
  · exact .inl rfl
  · obtain ⟨s₁, b₁, htags, hsettle⟩ := exists_of_runLaunch hrun
    have hsame : Along SameRemaps b₁ (settleParams.exec b₁).2 :=
      along_settleParams fun l _ m r => TopicDrift.attach m r l.side
    rw [hsettle] at hsame
    have hworked := worked nesting (tagsOf tree) (fun r hr => by cases hr) htags
    exact .inr ⟨tree, s₁, b₁, htree, hworked, hsame.model.size, hsame.model.remaps⟩

/-- The renamings of every node instance that a launch file starts are those on its trail, put one
after the other, and those of all other node instances stay as they are. -/
theorem remaps_of_addLaunch {f : Ref .file} {b b' : Builder} {done : Bool}
    (h : (addLaunch f).exec b = (.ok done, b')) (r : Ref .inst) :
    (r.index < b.bench.model.instances.size →
      (b'.bench.model.inst r).remaps = (b.bench.model.inst r).remaps) ∧
    (b.bench.model.instances.size ≤ r.index → r.index < b'.bench.model.instances.size →
      ∃ tree, (b.bench.model.file f).tree = some tree ∧
        (∃ trail, Starts (root f tree b) trail r) ∧
        ∀ trail, Starts (root f tree b) trail r →
          (b'.bench.model.inst r).remaps = Table.ofList trail) := by
  rcases worked_of_addLaunch h with hinst | ⟨tree, s₁, b₁, htree, hw, hsame⟩
  · rw [hinst]
    refine ⟨fun _ => by rw [inst, hinst, inst], fun hlo hhi => ?_⟩
    exact absurd hlo (Nat.not_le_of_lt hhi)
  · have hremaps := hsame.remaps r
    refine ⟨fun hr => hremaps.trans (hw.others r hr (by simp [root])), fun hlo hhi => ?_⟩
    rw [hsame.size] at hhi
    exact ⟨tree, htree, hw.found r hlo hhi,
      fun trail hstart => hremaps.trans (hw.trail hstart).2.2⟩

def remapTag (a b : String) : LaunchTree := .tag .remap "" ⟨[("from", .text a), ("to", .text b)]⟩ []

def nodeTag (name : String) (children : List LaunchTree) : LaunchTree :=
  .tag .node "" ⟨[("pkg", .text "tour"), ("type", .text "guide"), ("name", .text name)]⟩ children

/-- Two launch files, of which the first includes the second. -/
def tour : Builder where
  files := default
  bench := { model := {
    packages := #[{ name := "tour" }]
    files := #[
      launchFile "tour" "all.launch" (some (.tag .launch "" ⟨[]⟩ [
        remapTag "map" "plan",
        .tag .group "" ⟨[("ns", .text "west")]⟩ [remapTag "map" "chart", nodeTag "one" []],
        .tag .inclusion "" ⟨[("file", .text "/tour/east.launch")]⟩ [],
        nodeTag "two" [remapTag "map" "sketch"],
        remapTag "pose" "place"])),
      launchFile "tour" "east.launch"
        (some (.tag .launch "" ⟨[]⟩ [remapTag "view" "scene", nodeTag "three" []]))]
    nodes := #[{ name := "guide", package := ⟨0⟩, packageName := "tour" }]
    configurations := #[{ name := "tour" }] } }
  configuration := ⟨0⟩
  catalogue :=
    { packages := ⟨[("tour", ⟨0⟩)]⟩, files := [⟨0⟩, ⟨1⟩], nodes := ⟨[("node:tour/guide", ⟨0⟩)]⟩ }
  search := .across []

/-- The node in the group has the renaming before the group and the one inside, resolved there. The
node of the included file has none of those that stand in the group, in the other node or later. -/
theorem remaps_of_addLaunch_tour :
    ((addLaunch ⟨0⟩).exec tour).1 = .ok true ∧
    (∀ i < 2, ∃ tree, (tour.bench.model.file ⟨0⟩).tree = some tree ∧
      (∃ trail, Starts (root ⟨0⟩ tree tour) trail ⟨i⟩) ∧
      ∀ trail, Starts (root ⟨0⟩ tree tour) trail ⟨i⟩ →
        (((addLaunch ⟨0⟩).exec tour).2.bench.model.inst ⟨i⟩).remaps = Table.ofList trail) ∧
    (((addLaunch ⟨0⟩).exec tour).2.bench.model.inst ⟨0⟩).remaps =
      ⟨[("/map", "/plan"), ("/west/map", "/west/chart")]⟩ ∧
    (((addLaunch ⟨0⟩).exec tour).2.bench.model.inst ⟨1⟩).remaps =
      ⟨[("/map", "/plan"), ("/view", "/scene")]⟩ := by
  have hok : ((addLaunch ⟨0⟩).exec tour).1 = .ok true := by decide +kernel
  have hexec : (addLaunch ⟨0⟩).exec tour = (.ok true, ((addLaunch ⟨0⟩).exec tour).2) := by
    rw [← hok]
  have hnew : 2 ≤ ((addLaunch ⟨0⟩).exec tour).2.bench.model.instances.size := by decide +kernel
  exact ⟨hok, fun i hi =>
    (remaps_of_addLaunch hexec ⟨i⟩).2 (Nat.zero_le i) (Nat.lt_of_lt_of_le hi hnew),
    by decide +kernel, by decide +kernel⟩

end Builder

end RosAudit
