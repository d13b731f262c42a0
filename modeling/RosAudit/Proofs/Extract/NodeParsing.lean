import RosAudit.Proofs.Extract.BuiltNodes
import RosAudit.Proofs.Extract.NodeCache

/-!
# Parsing the nodes of a package

If programs are parsed, the nodes of a package are looked at one after another. One that is
remembered from an earlier audit takes the place of the one that was found (`recalled`), and any
other has its calls read off its program. Names and source files stay as they were found (`Reread`).

The loop goes through the list of nodes that it changes. `Halfway` is its invariant : what was
looked at is in its place, what was not is as it was found, and a node counts as parsed only if it
did so before or nothing is remembered of it. `parseNodes_ok` says what the whole loop has done.
-/

/-! ## Reading the calls of a node -/

namespace RosAudit

open Job Code List

namespace Model

/-- From `m` to `m'` only the calls of one node change. -/
structure SameButCalls (r : Ref .node) (m m' : Model) : Prop where
  files : m'.files = m.files
  packages : m'.packages = m.packages
  size_nodes : m'.nodes.size = m.nodes.size
  bare : (m'.node r).bare = (m.node r).bare
  node : ∀ r', r' ≠ r → m'.node r' = m.node r'

instance (r : Ref .node) : IsPreorder Model (SameButCalls r) where
  refl _ := ⟨rfl, rfl, rfl, rfl, fun _ _ => rfl⟩
  trans _ _ _ h h' := ⟨h'.files.trans h.files, h'.packages.trans h.packages,
    h'.size_nodes.trans h.size_nodes, h'.bare.trans h.bare,
    fun r' hr' => (h'.node r' hr').trans (h.node r' hr')⟩

end Model

open Model

namespace Code.Lookout

variable (k : Lookout)

/-- The job changes no more than the calls of the node. -/
abbrev Stays {α : Type} (j : Job Model α) : Prop := Within (SameButCalls k.node) j

theorem within_note (kind c name ns type queue) : k.Stays (k.note kind c name ns type queue) := by
  intro m
  unfold note
  cases (c.conditions k.sites).mapM Expr.shown with
  | error e => exact refl_of (SameButCalls k.node) m
  | ok texts =>
    refine ⟨rfl, rfl, Array.size_modify .., ?_, fun r hr => ?_⟩
    · exact view_getD_modify _ _ Node.bare (fun n => n.bare_setCalls kind _) _ _
    · exact getD_modify_ref_of_ne _ _ _ hr

section

variable (kind : CallKind) (ns : String) (c : CallSite)

theorem within_topicCall (namePos queuePos type) :
    k.Stays (k.topicCall kind ns c namePos queuePos type) := by
  refine of_ite ?_ (within_pure _)
  refine (within_ofResult _).bind fun name => ?_
  have hnext : ∀ type, k.Stays (do
      let queue ← Job.ofResult (queueArg c queuePos)
      k.note kind c name ns (some type) queue : Job Model Unit) :=
    fun type => (within_ofResult _).bind fun queue => k.within_note _ _ _ _ _ _
  cases type with
  | some t => exact (within_pure t).bind hnext
  | none => exact (within_ofResult _).bind hnext

theorem within_serviceCall : k.Stays (k.serviceCall kind ns c) := by
  refine of_ite ?_ (within_pure _)
  refine (within_ofResult _).bind fun name => (within_ofResult _).bind fun type => ?_
  exact k.within_note _ _ _ _ _ _

theorem within_paramCall : k.Stays (k.paramCall kind ns c) := by
  refine of_ite ?_ (within_pure _)
  exact (within_ofResult _).bind fun name => k.within_note _ _ _ _ _ _

end

theorem within_calls {cs : List CallSite} {p : CallSite → Prop} [DecidablePred p]
    {f : CallSite → Job Model (ForInStep PUnit)} (hf : ∀ c, k.Stays (f c)) :
    k.Stays (forIn cs PUnit.unit fun c _ => if p c then f c else pure (.yield PUnit.unit)) :=
  chains_within.forIn (fun c _ _ => of_ite (hf c) (within_pure _)) _

theorem within_mustShow (c : CallSite) : k.Stays (mustShow c) :=
  Within.bind (within_ofResult _) fun _ => within_pure _

theorem within_communication : k.Stays k.communication := by
  have hhandle : ∀ name type f,
      (∀ ns c, k.Stays (f ns c)) → k.Stays (k.handleCalls name type f) := by
    intro name type f hf
    refine Within.bind (k.within_calls fun c => ?_) fun _ => within_pure _
    exact (within_ofResult _).bind fun ns => (hf ns c).bind fun _ => within_pure _
  have hfilter : ∀ name lead type space message,
      k.Stays (k.filterCalls name lead type space message) := by
    intro name lead type space message
    refine Within.bind (chains_within.forIn (fun c _ _ => ?_) _) fun _ => within_pure _
    refine (k.within_mustShow c).bind fun _ => of_ite ?_ (within_pure _)
    refine (within_ofResult _).bind fun ns => ?_
    exact (k.within_topicCall _ _ _ _ _ _).bind fun _ => within_pure _
  have htransport : ∀ name type kind, k.Stays (k.transportCalls name type kind) := by
    intro name type kind
    refine Within.bind (k.within_calls fun c => ?_) fun _ => within_pure _
    refine (k.within_mustShow c).bind fun _ => (within_ofResult _).bind fun ns => ?_
    exact (k.within_topicCall _ _ _ _ _ _).bind fun _ => within_pure _
  refine Within.bind (hhandle _ _ _ fun ns c => k.within_topicCall _ _ _ _ _ _) fun _ => ?_
  refine Within.bind (hhandle _ _ _ fun ns c => k.within_topicCall _ _ _ _ _ _) fun _ => ?_
  refine Within.bind (hhandle _ _ _ fun ns c => k.within_serviceCall _ _ _) fun _ => ?_
  refine Within.bind (hhandle _ _ _ fun ns c => k.within_serviceCall _ _ _) fun _ => ?_
  refine (hfilter _ _ _ _ _).bind fun _ => (hfilter _ _ _ _ _).bind fun _ => ?_
  exact (htransport _ _ _).bind fun _ => htransport _ _ _

theorem within_handleParams : k.Stays k.handleParams := by
  have heach : ∀ kind names, k.Stays
      (do for c in k.named names do
            if belongsTo c "ros::NodeHandle" "c:@N@ros@S@NodeHandle@" then
              k.paramCall kind (← Job.ofResult (handleSpace c.object)) c : Job Model Unit) := by
    intro kind names
    refine Within.bind (k.within_calls fun c => ?_) fun _ => within_pure _
    refine (within_ofResult _).bind fun ns => ?_
    exact (k.within_paramCall _ _ _).bind fun _ => within_pure _
  exact (heach _ _).bind fun _ => heach _ _

theorem within_bareParams : k.Stays k.bareParams := by
  refine Within.bind (k.within_calls fun c => ?_) fun _ => ?_
  · exact (k.within_paramCall _ _ _).bind fun _ => within_pure _
  refine Within.bind (k.within_calls fun c => ?_) fun _ => ?_
  · refine (within_ofResult _).bind fun ns => ?_
    exact (k.within_paramCall _ _ _).bind fun _ => within_pure _
  refine Within.bind (k.within_calls fun c => ?_) fun _ => within_pure _
  exact (k.within_paramCall _ _ _).bind fun _ => within_pure _

end Code.Lookout

variable {r : Ref .node} {m : Model} {p : Ref .package}

namespace NodeFinder

/-! ## What parsing leaves alone -/

def outline (n : Node) : Node := { n.bare with isParsed := false }

/-- From `m` to `m'` nodes of a package were parsed that are not remembered, and the package may
have got other nodes. -/
structure Reread (remembered : Table String (Ref .node)) (p : Ref .package) (m m' : Model) :
    Prop where
  beside : Beside p m m'
  size_nodes : m'.nodes.size = m.nodes.size
  outline : ∀ r, outline (m'.node r) = outline (m.node r)
  kept : ∀ r, (m.node r).isParsed = true → (m'.node r).isParsed = true
  fresh : ∀ r, (m'.node r).isParsed = true →
    (m.node r).isParsed = true ∨ remembered.get? (m.node r).nodeName = none

section Reread

variable {remembered : Table String (Ref .node)} {p : Ref .package} {m m' : Model}

theorem Reread.nodeName (h : Reread remembered p m m') (r : Ref .node) :
    (m'.node r).nodeName = (m.node r).nodeName :=
  (congrArg Node.nodeName (h.outline r) :)

instance : IsPreorder Model (Reread remembered p) where
  refl m := ⟨refl_of (Beside p) m, rfl, fun _ => rfl, fun _ h => h, fun _ h => .inl h⟩
  trans m m' m'' h h' :=
    { beside := trans_of (Beside p) h.beside h'.beside
      size_nodes := h'.size_nodes.trans h.size_nodes
      outline := fun r => (h'.outline r).trans (h.outline r)
      kept := fun r hr => h'.kept r (h.kept r hr)
      fresh := fun r hr => by
        rcases h'.fresh r hr with hr | hr
        · exact h.fresh r hr
        · exact .inr (h.nodeName r ▸ hr) }

theorem reread_updateNode (hr : (m.node r).package = p)
    (hnew : remembered.get? (m.node r).nodeName = none) :
    Reread remembered p m (m.updateNode r fun n => { n.bare with isParsed := true }) where
  beside := beside_updateNode hr fun _ => rfl
  size_nodes := Array.size_modify ..
  outline r' := view_getD_modify m.nodes default NodeFinder.outline (fun _ => by rfl) _ _
  kept r' hr' := by
    rcases getD_modify_or m.nodes default _ r.index r'.index with h | ⟨-, h⟩
    · exact (congrArg Node.isParsed h).trans hr'
    · exact congrArg Node.isParsed h
  fresh r' hr' := by
    by_cases heq : r' = r
    · exact .inr (heq ▸ hnew)
    · refine .inl ((congrArg Node.isParsed ?_).symm.trans hr')
      exact getD_modify_ref_of_ne _ _ _ heq

theorem reread_of_sameButCalls (hr : (m.node r).package = p) (h : SameButCalls r m m') :
    Reread remembered p m m' := by
  have hpackage : ∀ q, m'.package q = m.package q := fun q => by rw [Model.package, h.packages]; rfl
  have hview : ∀ {β : Type} (g : Node → β), (∀ n, g n.bare = g n) →
      ∀ r', g (m'.node r') = g (m.node r') := by
    intro β g hg r'
    by_cases heq : r' = r
    · rw [heq, ← hg, h.bare, hg]
    · rw [h.node r' heq]
  exact {
    beside := {
      files := h.files
      size_packages := congrArg Array.size h.packages
      package := fun q _ => hpackage q
      home := ⟨_, hpackage p⟩
      size_nodes := Nat.le_of_eq h.size_nodes.symm
      owner := fun r' _ => hview Node.package (fun _ => rfl) r'
      node := fun r' _ hp => h.node r' fun heq => hp (heq ▸ hr) }
    size_nodes := h.size_nodes
    outline := hview NodeFinder.outline fun _ => rfl
    kept := fun r' hr' => (hview Node.isParsed (fun _ => rfl) r').trans hr'
    fresh := fun r' hr' => .inl ((hview Node.isParsed (fun _ => rfl) r').symm.trans hr') }

end Reread

theorem exec_readCalls (p r program s) :
    ∃ m parsed, ((readCalls p r program).exec s).2 = { s with model := m, parsed } ∧
      SameButCalls r s.model m := by
  let look : Code.Lookout := { package := p, node := r, sites := program.sites }
  have hjob : Within (SameButCalls r) (do
      look.communication
      look.handleParams
      look.bareParams : Job Model Unit) :=
    Within.bind look.within_communication fun _ =>
      Within.bind look.within_handleParams fun _ => look.within_bareParams
  refine ⟨_, s.parsed ++ (s.model.node r).files.map fun f =>
    (s.model.file f).path, ?_, hjob s.model⟩
  unfold readCalls
  rw [exec_bind_of_ok (exec_get s)]
  rw [exec_bind_of_ok (exec_set ..), exec_ofResult]

/-! ## Remembered nodes -/

def recalled (s : NodeFinder) (m : Model) (p : Ref .package) (n : Node) : Option (Ref .node) :=
  if s.parses && !n.isParsed then
    (s.remembered.get? n.nodeName).filter fun k => (m.node k).package = p
  else none

theorem recalled_some {s : NodeFinder} {n : Node} {k} (h : s.recalled m p n = some k) :
    s.remembered.get? n.nodeName = some k ∧ (m.node k).package = p := by
  unfold recalled at h
  split at h
  · obtain ⟨hk, hpackage⟩ := Option.filter_eq_some_iff.mp h
    exact ⟨hk, of_decide_eq_true hpackage⟩
  · cases h

theorem recalled_congr {s s' : NodeFinder} {m m' : Model} (hparses : s'.parses = s.parses)
    (hremembered : s'.remembered = s.remembered)
    (howner : ∀ name k, s.remembered.get? name = some k → (m'.node k).package = (m.node k).package)
    (p n) : s'.recalled m' p n = s.recalled m p n := by
  unfold recalled
  rw [hparses, hremembered]
  cases hk : s.remembered.get? n.nodeName with
  | none => rfl
  | some k => simp only [Option.filter_some, howner _ k hk]

def place (s : NodeFinder) (p : Ref .package) (r : Ref .node) : Ref .node :=
  (s.recalled s.model p (s.model.node r)).getD r

theorem place_of_isParsed {s : NodeFinder} (hm : Reread s.remembered p s.model m)
    (hr : (m.node r).isParsed = true) : s.place p r = r := by
  unfold place recalled
  rcases hm.fresh r hr with h | h
  · rw [h, Bool.not_true, Bool.and_false, if_neg Bool.false_ne_true, Option.getD_none]
  · rw [h, Option.filter_none, ite_self, Option.getD_none]

theorem place_of_not_isParsed {s : NodeFinder} (hs : s.parses = true)
    (hm : Reread s.remembered p s.model m) (hr : (m.node r).isParsed = false) :
    s.place p r =
      ((s.remembered.get? (m.node r).nodeName).filter fun k => (m.node k).package = p).getD r := by
  have hbefore : (s.model.node r).isParsed = false :=
    Bool.eq_false_iff.mpr fun h => Bool.false_ne_true (hr.symm.trans (hm.kept r h))
  have howner : ∀ k, (s.model.node k).package = (m.node k).package :=
    fun k => (congrArg Node.package (hm.outline k)).symm
  unfold place recalled
  simp only [hs, hbefore, hm.nodeName r, howner, Bool.not_false, Bool.and_true, if_true]

/-! ## The loop -/

def Halfway (s : NodeFinder) (p : Ref .package) (todo : List (Ref .node × Nat)) (s' : NodeFinder) :
    Prop :=
  ∃ m parsed done rest, s' = { s with model := m, parsed } ∧ todo = rest.zipIdx done.length ∧
    (s.model.package p).nodes = done ++ rest ∧
    (m.package p).nodes = done.map (s.place p) ++ rest ∧ Reread s.remembered p s.model m

section Halfway

variable {s s' t : NodeFinder} {p : Ref .package} {r k : Ref .node} {i : Nat}
  {todo : List (Ref .node × Nat)}

theorem Halfway.uncons (h : s.Halfway p ((r, i) :: todo) t) : ∃ m parsed done rest,
    t = { s with model := m, parsed } ∧ i = done.length ∧ todo = rest.zipIdx (done.length + 1) ∧
    (s.model.package p).nodes = done ++ r :: rest ∧
    (m.package p).nodes = done.map (s.place p) ++ r :: rest ∧ Reread s.remembered p s.model m := by
  obtain ⟨m, parsed, done, rest, ht, htodo, hlist, hplaced, hm⟩ := h
  cases rest with
  | nil => cases htodo
  | cons r' rest =>
    obtain ⟨hr, hrest⟩ := List.cons.inj (htodo.trans zipIdx_cons)
    obtain ⟨rfl, rfl⟩ := Prod.mk.inj hr
    exact ⟨m, parsed, done, rest, ht, rfl, hrest, hlist, hplaced, hm⟩

theorem Halfway.step (h : s.Halfway p ((r, i) :: todo) t) {parsed}
    (hm : Reread s.remembered p t.model m)
    (hnodes : (m.package p).nodes = (t.model.package p).nodes.set i (s.place p r)) :
    s.Halfway p todo { t with model := m, parsed } := by
  obtain ⟨m₀, parsed₀, done, rest, rfl, rfl, htodo, hlist, hplaced, hm₀⟩ := h.uncons
  refine ⟨m, parsed, done ++ [r], rest, rfl, ?_, ?_, ?_, trans_of (Reread _ p) hm₀ hm⟩
  · rw [htodo, length_append, length_singleton]
  · rw [hlist, append_assoc, singleton_append]
  · rw [hnodes, hplaced, map_append, append_assoc,
      set_append_right _ _ (Nat.le_of_eq (length_map _)), length_map, Nat.sub_self]
    rfl

/-- The node that is looked at belongs to the package, and stands where it was found. -/
theorem Halfway.head (h : s.Halfway p ((r, i) :: todo) t) :
    r ∈ (s.model.package p).nodes ∧
      (t.model.package p).nodes.set i r = (t.model.package p).nodes ∧
      Reread s.remembered p s.model t.model ∧ t.remembered = s.remembered := by
  obtain ⟨m, parsed, done, rest, rfl, rfl, -, hlist, hplaced, hm⟩ := h.uncons
  refine ⟨hlist ▸ mem_append_right _ mem_cons_self, ?_, hm, rfl⟩
  rw [hplaced, set_append_right _ _ (Nat.le_of_eq (length_map _)), length_map,
    Nat.sub_self, set_cons_zero]

theorem lookBack_ok (h : (lookBack p i k).exec s = (.ok (), s')) :
    (s.model.node k).package = p ∧
      s' = { s with model := s.model.updatePackage p fun x =>
        { x with nodes := x.nodes.set i k } } := by
  unfold lookBack at h
  rw [exec_bind_of_ok (exec_get s)] at h
  by_cases hk : (s.model.node k).package = p
  · rw [if_neg (by simp [hk])] at h
    exact ⟨hk, (Prod.mk.inj h).2.symm⟩
  · rw [if_pos (by simp [hk])] at h
    cases (Prod.mk.inj h).1

theorem Halfway.lookBack (ht : s.Halfway p ((r, i) :: todo) t) (hparses : s.parses = true)
    (hp : p.index < s.model.packages.size) (hr : (t.model.node r).isParsed = false)
    (hk : t.remembered.get? (t.model.node r).nodeName = some k) :
    Meets (· = t) (fun _ => s.Halfway p todo) (fun _ _ => True) (lookBack p i k) := by
  intro u hu
  rw [hu]
  rcases hexec : (NodeFinder.lookBack p i k).exec t with ⟨e | _, t'⟩
  · trivial
  · obtain ⟨-, -, hm, hremembered⟩ := ht.head
    obtain ⟨hpackage, rfl⟩ := lookBack_ok hexec
    have hplace : s.place p r = k := by
      rw [place_of_not_isParsed hparses hm hr, ← hremembered, hk, Option.filter_some,
        if_pos (decide_eq_true hpackage), Option.getD_some]
    refine ht.step { refl_of (Reread s.remembered p) t.model with
      beside := beside_updatePackage _ fun l => l.set i k } ?_
    rw [hplace]
    exact congrArg Package.nodes (getD_modify_self _ _ _ (hm.beside.size_packages ▸ hp))

theorem Halfway.stay (ht : s.Halfway p ((r, i) :: todo) t) (hr : s.place p r = r) :
    s.Halfway p todo t := by
  refine ht.step (refl_of (Reread _ p) t.model) ?_
  rw [hr, ht.head.2.1]

theorem Halfway.reread (ht : s.Halfway p todo t) {parsed} (hm : Reread s.remembered p t.model m)
    (hpackages : m.packages = t.model.packages) :
    s.Halfway p todo { t with model := m, parsed } := by
  obtain ⟨m₀, parsed₀, done, rest, rfl, htodo, hlist, hplaced, hm₀⟩ := ht
  refine ⟨m, parsed, done, rest, rfl, htodo, hlist, ?_, trans_of (Reread _ p) hm₀ hm⟩
  rw [← hplaced, Model.package, hpackages]
  rfl

theorem Halfway.readCalls (ht : s.Halfway p todo t) (hr : (t.model.node r).package = p) (program) :
    Meets (· = t) (fun _ => s.Halfway p todo) (fun _ _ => True) (readCalls p r program) := by
  intro u hu
  rw [hu]
  obtain ⟨m, parsed, hexec, hm⟩ := exec_readCalls p r program t
  rcases hcalls : (NodeFinder.readCalls p r program).exec t with ⟨e | _, t'⟩
  · trivial
  · rw [hcalls] at hexec
    obtain rfl : t' = _ := hexec
    exact ht.reread (reread_of_sameButCalls hr hm) hm.packages

theorem parseNodes_ok (hparses : s.parses = true) (hp : p.index < s.model.packages.size)
    (howner : ∀ r ∈ (s.model.package p).nodes, (s.model.node r).package = p)
    (h : (parseNodes p).exec s = (.ok (), s')) : s.Halfway p [] s' := by
  refine Meets.of_ok (Q := fun _ => s.Halfway p []) (E := fun _ _ => True)
    (Meets.bind (meets_forIn (I := s.Halfway p) ?_) fun _ => ?_) ?_ h
  · -- a node that stands in the list twice counts as parsed when it is looked at again
    rintro ⟨r, i⟩ todo _
    refine meets_get fun t ht => ?_
    obtain ⟨hr, -, hm, hremembered⟩ := ht.head
    dsimp only
    cases hparsed : (t.model.node r).isParsed with
    | true =>
      refine meets_pure fun u hu => ⟨⟨_, rfl⟩, hu ▸ ?_⟩
      exact ht.stay (place_of_isParsed hm hparsed)
    | false =>
      cases hget : t.remembered.get? (t.model.node r).nodeName with
      | some k =>
        refine (ht.lookBack hparses hp hparsed hget).bind fun _ => ?_
        exact meets_pure fun u hu => ⟨⟨_, rfl⟩, hu⟩
      | none =>
        have hplace : s.place p r = r := by
          rw [place_of_not_isParsed hparses hm hparsed, ← hremembered, hget, Option.filter_none,
            Option.getD_none]
        have hpackage : (t.model.node r).package = p :=
          (congrArg Node.package (hm.outline r)).trans (howner r hr)
        have hmark := reread_updateNode hpackage (hremembered ▸ hget)
        have hmarked : s.Halfway p todo { t with model := _ } := (ht.stay hplace).reread hmark rfl
        refine Meets.bind (Q := fun _ u => u = _) (fun u hu => rfl) fun _ => ?_
        split
        · refine Meets.bind (hmarked.readCalls ?_ _) fun _ => meets_pure fun u hu => ⟨⟨_, rfl⟩, hu⟩
          exact (congrArg Node.package (hmark.outline r)).trans hpackage
        · exact meets_pure fun u hu => ⟨⟨_, rfl⟩, hu ▸ hmarked⟩
  · exact meets_pure fun _ h => h
  · exact ⟨s.model, s.parsed, [], _, rfl, rfl, rfl, rfl, refl_of (Reread _ p) _⟩

theorem halfway_of_ok (hp : p.index < s.model.packages.size)
    (howner : ∀ r ∈ (s.model.package p).nodes, (s.model.node r).package = p)
    (h : (if s.parses then parseNodes p else pure () : Job NodeFinder Unit).exec s = (.ok (), s')) :
    s.Halfway p [] s' := by
  cases hparses : s.parses with
  | true =>
    rw [hparses] at h
    exact parseNodes_ok hparses hp howner h
  | false =>
    rw [hparses] at h
    obtain ⟨-, rfl⟩ := Prod.mk.inj h
    have hplace : (s.model.package p).nodes.map (s.place p) = (s.model.package p).nodes := by
      refine map_id'' (fun r => ?_) _
      rw [place, recalled, hparses, Bool.false_and, if_neg Bool.false_ne_true, Option.getD_none]
    refine ⟨s.model, s.parsed, _, [], rfl, rfl, (append_nil _).symm, ?_, refl_of (Reread _ p) _⟩
    rw [hplace, append_nil]

theorem Halfway.done (h : s.Halfway p [] s') :
    ∃ m parsed, s' = { s with model := m, parsed } ∧
      (m.package p).nodes = (s.model.package p).nodes.map (s.place p) ∧
      Reread s.remembered p s.model m := by
  obtain ⟨m, parsed, done, rest, hs', htodo, hlist, hplaced, hm⟩ := h
  cases rest with
  | nil =>
    rw [append_nil] at hlist hplaced
    exact ⟨m, parsed, hs', hlist ▸ hplaced, hm⟩
  | cons r rest => cases htodo

end Halfway

end NodeFinder

end RosAudit
