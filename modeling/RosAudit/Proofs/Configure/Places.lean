import Mathlib.Logic.Relation
import RosAudit.Proofs.Configure.Invariant

/-!
# Places in a launch file

The tags of a launch file are worked through in order, and groups, nodes and inclusions have tags
inside. A `Place` is where the work has got to : the tags that are left in the scope that is open,
and the builder as it is there. `Place.Leads p q` says that the work at `p` comes to `q`.

`Tending S` : a relation between builders that holds along all the work on tags, whether it succeeds
or stops (`within_analyse`, `within_includeFile`); `Working S` : one that holds too if the context
is replaced.
-/

namespace RosAudit

open Job

variable {s s' inner : LaunchScope}

namespace LaunchScope

/-- Scopes that stand under the same guards in the same configuration. -/
structure Kin (s s' : LaunchScope) : Prop where
  guards : s'.guards = s.guards
  configuration : s'.configuration = s.configuration

theorem Kin.trans {s s' s'' : LaunchScope} (h : s.Kin s') (h' : s'.Kin s'') : s.Kin s'' :=
  ⟨h'.guards.trans h.guards, h'.configuration.trans h.configuration⟩

theorem kin_of_frame (h : s'.frame = s.frame) : s.Kin s' := by
  have hguards := congrArg guards h
  have hconfiguration := congrArg configuration h
  exact ⟨hguards, hconfiguration⟩

theorem kin_child {m ns launch} (h : s.child m ns none launch = .ok inner) : s.Kin inner := by
  obtain ⟨space, -, h⟩ := bind_eq_ok.mp h
  cases h
  exact ⟨List.append_nil _, rfl⟩

theorem returns_makeNode (s : LaunchScope) (node name ns argv) :
    Returns s.Kin (s.makeNode node name ns argv none) :=
  Returns.after fun _ => Returns.after fun _ => Returns.after fun _ =>
    returns_pure ⟨List.append_nil _, rfl⟩

end LaunchScope

namespace Builder

/-- The state after an included file : the arguments and the folder are those from before. -/
def leave (b inner : Builder) : Builder :=
  { inner with context := { b.context with packageUses := inner.context.packageUses
                                           environmentUses := inner.context.environmentUses } }

theorem exec_includeFile (n : Nat) (x : Included) (b : Builder) :
    (includeFile (n + 1) x).exec b =
      (analyse (includeFile n) (tagsOf x.tree) x.scope >>= fun _ => modify b.leave).exec
        (b.enter x) := by
  rfl

/-- A relation that holds along all the work on the tags of a launch file. -/
class Tending (S : Builder → Builder → Prop) : Prop extends Aside S where
  enter (b : Builder) (x : Included) : S b (b.enter x)
  leave {b inner : Builder} (h : S b inner) : S b (b.leave inner)
  setParam (s : LaunchScope) (name : String) (type text : Option String) :
    Within S (onBench (s.setParam name type text none))
  setDocument (s : LaunchScope) (name ns : Option String) (document : String) :
    Within S (onBench (s.setDocument name ns document none))
  rename (s : LaunchScope) (source target : String) : Within S (onBench (s.rename source target))
  makeNode (s : LaunchScope) (node : Ref .node) (name ns : Option String) (argv : Value) :
    Within S (onBench (s.makeNode node name ns argv none))
  linkNode (s : LaunchScope) (node : Ref .node) : Within S (linkNode s node)

/-- A relation that does not depend on the context either. -/
class Working (S : Builder → Builder → Prop) : Prop extends Tending S where
  swap (b : Builder) (context : SubstContext) : S b { b with context := context }
  enter b _ := swap b _
  leave h := trans_of S h (swap _ _)

section Tending

variable {S : Builder → Builder → Prop} [Tending S]

instance (b₀ : Builder) : Following (Tied S b₀) where
  setParam _ _ _ _ := (Tending.setParam _ _ _ _).blind b₀
  setDocument _ _ _ _ := (Tending.setDocument _ _ _ _).blind b₀
  deleteParam s _ _ := (within_onBench_of_eq (s.within_deleteParam _ _ none)).blind b₀
  rename _ _ _ := (Tending.rename _ _ _).blind b₀
  makeNode _ _ _ _ _ := (Tending.makeNode _ _ _ _ _).blind b₀
  linkNode _ _ := (Tending.linkNode _ _).blind b₀

theorem within_analyse_of {go} (hgo : ∀ x, Within S (go x)) (ts s) : Within S (analyse go ts s) :=
  within_of_blind fun b₀ => blind_analyse (fun x => (hgo x).blind b₀) ts s

theorem within_includeFile : ∀ n x, Within S (includeFile n x)
  | 0, x => within_throw _
  | n + 1, x => by
    intro b
    have hwork := within_analyse_of (within_includeFile n) (tagsOf x.tree) x.scope (b.enter x)
    have hinner := trans_of S (Tending.enter b x) hwork
    rw [exec_includeFile, exec_bind]
    rcases hrun : (analyse (includeFile n) (tagsOf x.tree) x.scope).exec (b.enter x) with ⟨_ | _,
      inner⟩ <;> rw [hrun] at hinner
    · exact hinner
    · exact Tending.leave hinner

theorem within_analyse (n ts s) : Within S (analyse (includeFile n) ts s) :=
  within_analyse_of (within_includeFile n) ts s

theorem within_analyseTag (n t s) : Within S (analyseTag (includeFile n) t s) :=
  within_of_blind fun b₀ => blind_analyseTag (fun x => (within_includeFile n x).blind b₀) t s

end Tending

/-! ## Notes -/

theorem exec_noting_congr {α : Type} {a} {j k : Job Builder α} {b b'} (h : j.exec b = k.exec b') :
    (noting a j).exec b = (noting a k).exec b' := by
  unfold noting
  rw [exec_bind, exec_bind, exec_attempt, exec_attempt, h]

theorem exec_noting_of_stops {α : Type} {a} {j : Job Builder α} {b b'} {f : Fault}
    (h : j.exec b = (.error f, b')) (hf : f.Stops) : (noting a j).exec b = (.error f, b') := by
  unfold noting
  rw [exec_bind, exec_attempt, h]
  cases f with
  | substitution c | configuration c => cases hf
  | _ => rfl

/-! ## Scopes inside a scope -/

section Kin

variable {s : LaunchScope} {attrs : Table String Subst} {b b' : Builder}

theorem Opened.kin (h : Opened s b inner) : s.Kin inner := by
  obtain ⟨b₁, ns, file, -, hchild⟩ := h
  exact LaunchScope.kin_child hchild

theorem kin_startNode {x} (h : (startNode attrs s).exec b = (.ok x, b')) : s.Kin x.2 := by
  obtain ⟨pkg, b₁, -, h⟩ := exec_bind_ok.mp h
  obtain ⟨exe, b₂, -, h⟩ := exec_bind_ok.mp h
  obtain ⟨args, b₃, -, h⟩ := exec_bind_ok.mp h
  split at h
  · obtain ⟨program, b₄, -, h⟩ := exec_bind_ok.mp h
    obtain ⟨name, b₅, -, h⟩ := exec_bind_ok.mp h
    obtain ⟨ns, b₆, -, h⟩ := exec_bind_ok.mp h
    obtain ⟨node, b₇, -, h⟩ := exec_bind_ok.mp h
    obtain ⟨inner, b₈, hinner, h⟩ := exec_bind_ok.mp h
    obtain ⟨_, b₉, -, h⟩ := exec_bind_ok.mp h
    cases h
    exact returns_onBench (s.returns_makeNode _ _ _ _) _ _ _ hinner
  · cases h

end Kin

/-! ## Places -/

/-- Where the work on a launch file has got to : the tags that are left in the scope that is open,
the builder as it is there, and how deep inclusions may still nest. -/
structure Place where
  nesting : Nat
  tags : List LaunchTree
  scope : LaunchScope
  builder : Builder

namespace Place

def run (p : Place) : Result LaunchScope × Builder :=
  (analyse (includeFile p.nesting) p.tags p.scope).exec p.builder

/-- The work goes on from one place to the next, past a tag or into it. -/
inductive Step : Place → Place → Prop
  | past {n : Nat} {t : LaunchTree} {ts : List LaunchTree} {s s' : LaunchScope} {b b' : Builder}
      (h : (analyseTag (includeFile n) t s).exec b = (.ok s', b')) :
      Step ⟨n, t :: ts, s, b⟩ ⟨n, ts, s', b'⟩
  | group {n : Nat} {text : String} {attrs : Table String Subst} {children ts : List LaunchTree}
      {s inner : LaunchScope} {b b₁ b₂ : Builder}
      (hcounts : (counts (Condition.of attrs)).exec b = (.ok true, b₁))
      (hopen : (openGroup attrs s).exec b₁ = (.ok inner, b₂)) :
      Step ⟨n, .tag .group text attrs children :: ts, s, b⟩ ⟨n, children, inner, b₂⟩
  | node {n : Nat} {text : String} {attrs : Table String Subst} {children ts : List LaunchTree}
      {s inner : LaunchScope} {node : Ref .node} {b b₁ b₂ : Builder}
      (hcounts : (counts (Condition.of attrs)).exec b = (.ok true, b₁))
      (hopen : (startNode attrs s).exec b₁ = (.ok (node, inner), b₂)) :
      Step ⟨n, .tag .node text attrs children :: ts, s, b⟩ ⟨n, children, inner, b₂⟩
  | inclusion {n : Nat} {text : String} {attrs : Table String Subst} {children ts : List LaunchTree}
      {s : LaunchScope} {x : Included} {b b₁ b₂ : Builder}
      (hcounts : (counts (Condition.of attrs)).exec b = (.ok true, b₁))
      (hopen : (openInclusion attrs children s).exec b₁ = (.ok x, b₂)) :
      Step ⟨n + 1, .tag .inclusion text attrs children :: ts, s, b⟩
        ⟨n, tagsOf x.tree, x.scope, b₂.enter x⟩

/-- The work at one place comes to another. -/
abbrev Leads : Place → Place → Prop := Relation.ReflTransGen Step

variable {S : Builder → Builder → Prop} {p q : Place} {s : LaunchScope} {b : Builder} {f : Fault}

theorem Step.builder [Tending S] (h : Step p q) : S p.builder q.builder := by
  cases h with
  | past h => exact (within_analyseTag _ _ _).of_exec h
  | group hcounts hopen =>
    exact trans_of S ((within_counts _).of_exec hcounts) ((within_openGroup _ _).of_exec hopen)
  | node hcounts hopen =>
    exact trans_of S ((within_counts _).of_exec hcounts)
      ((within_of_blind fun _ => blind_startNode _ _).of_exec hopen)
  | inclusion hcounts hopen =>
    refine trans_of S ((within_counts _).of_exec hcounts) ?_
    exact trans_of S ((within_openInclusion _ _ _).of_exec hopen) (Tending.enter _ _)

theorem Leads.builder [Tending S] (h : Leads p q) : S p.builder q.builder := by
  induction h with
  | refl => exact refl_of S _
  | tail _ hstep ih => exact trans_of S ih hstep.builder

theorem Step.scope (h : Step p q) : p.scope.Kin q.scope := by
  cases h with
  | past h => exact LaunchScope.kin_of_frame (frame_analyseTag _ _ _ _ _ _ h)
  | group _ hopen => exact (opened_group hopen).kin
  | node _ hopen => exact kin_startNode hopen
  | inclusion _ hopen => exact (opened_inclusion hopen).kin

/-- All scopes of a launch file stand under the guards of its own, in its configuration. -/
theorem Leads.scope (h : Leads p q) : p.scope.Kin q.scope := by
  induction h with
  | refl => exact ⟨rfl, rfl⟩
  | tail _ hstep ih => exact ih.trans hstep.scope

/-- What a tag does after the tags inside it. -/
structure Closing (rest : LaunchScope → Job Builder LaunchScope) : Prop where
  within : ∀ {S : Builder → Builder → Prop} [Working S] (s : LaunchScope), Within S (rest s)
  throws : ∀ s : LaunchScope, Throws Fault.Stops (rest s)

/-- The work is the same at both places, or it begins with a tag that works through the tags at the
second one. -/
theorem Step.run_inside (h : Step p q) : p.run = q.run ∨
    ∃ t ts rest, p.tags = t :: ts ∧ Closing rest ∧
      (analyseTag (includeFile p.nesting) t p.scope).exec p.builder =
        (noting p.scope (analyse (includeFile q.nesting) q.tags q.scope >>= rest)).exec
          q.builder := by
  cases h with
  | past h =>
    left
    rw [run, run]
    rw [analyse, exec_bind_of_ok h]
  | @group n text attrs children ts s inner b b₁ b₂ hcounts hopen =>
    refine .inr ⟨_, ts, fun _ => pure s, rfl, ⟨fun _ => within_pure s, fun _ => throws_pure s⟩, ?_⟩
    refine exec_noting_congr ?_
    unfold carryOut
    rw [exec_bind_of_ok hcounts]
    exact exec_bind_of_ok hopen
  | @node n text attrs children ts s inner node b b₁ b₂ hcounts hopen =>
    refine .inr ⟨_, ts, fun inner => linkNode inner node >>= fun _ => pure s, rfl, ⟨?_, ?_⟩, ?_⟩
    · exact fun inner => (Tending.linkNode inner node).bind fun _ => within_pure s
    · exact fun inner => (throws_linkNode inner node).bind fun _ => throws_pure s
    · refine exec_noting_congr ?_
      unfold carryOut
      rw [exec_bind_of_ok hcounts, if_neg (by decide)]
      rw [exec_bind_of_ok hopen]
  | @inclusion n text attrs children ts s x b b₁ b₂ hcounts hopen =>
    refine .inr ⟨_, ts, fun _ => modify b₂.leave >>= fun _ =>
      pure s, rfl, ⟨fun _ => ?_, fun _ => ?_⟩, ?_⟩
    · exact Within.bind (within_modify fun b => Working.swap b _) fun _ => within_pure s
    · exact (throws_modify _).bind fun _ => throws_pure s
    · refine exec_noting_congr ?_
      unfold carryOut
      rw [exec_bind_of_ok hcounts]
      refine (exec_bind_of_ok hopen).trans ?_
      rw [exec_bind, exec_includeFile, ← exec_bind, bind_assoc]

theorem Step.error (h : Step p q) (hq : q.run = (.error f, b)) : p.run = (.error f, b) := by
  rcases h.run_inside with heq | ⟨t, ts, rest, hp, -, htag⟩
  · rw [heq, hq]
  · rw [run, hp]
    refine exec_bind_of_error ?_
    rw [htag]
    exact exec_noting_of_stops (exec_bind_of_error hq) (throws_analyse _ _ _ _ _ _ hq)

theorem Step.ok [Working S] (h : Step p q) (hp : p.run = (.ok s, b)) :
    ∃ s₁ b₁, q.run = (.ok s₁, b₁) ∧ S b₁ b := by
  rcases hq : q.run with ⟨f | s₁, b₁⟩
  · rw [h.error hq] at hp
    cases hp
  refine ⟨s₁, b₁, rfl, ?_⟩
  rcases h.run_inside with heq | ⟨t, ts, rest, htags, hrest, htag⟩
  · rw [heq, hq] at hp
    cases hp
    exact refl_of S b
  · rw [run, htags, analyse] at hp
    obtain ⟨s₂, b₂, htag₂, hts⟩ := exec_bind_ok.mp hp
    refine trans_of S ?_ ((within_analyse _ _ _).of_exec hts)
    rw [htag] at htag₂
    have hthen : (analyse (includeFile q.nesting) q.tags q.scope >>= rest).exec q.builder =
        (rest s₁).exec b₁ := exec_bind_of_ok hq
    rcases noting_ok htag₂ with hdone | ⟨f, b', errors, hstop, hf, -, -⟩
    · rw [hthen] at hdone
      exact (hrest.within s₁).of_exec hdone
    · rw [hthen] at hstop
      exact absurd hf (ne_true_of_eq_false (hrest.throws s₁ _ _ _ hstop))

theorem Leads.error (h : Leads p q) (hq : q.run = (.error f, b)) : p.run = (.error f, b) := by
  induction h using Relation.ReflTransGen.head_induction_on with
  | refl => exact hq
  | head hstep _ ih => exact hstep.error ih

theorem Leads.ok [Working S] (h : Leads p q) (hp : p.run = (.ok s, b)) :
    ∃ s₁ b₁, q.run = (.ok s₁, b₁) ∧ S b₁ b := by
  induction h with
  | refl => exact ⟨s, b, hp, refl_of S b⟩
  | tail _ hstep ih =>
    obtain ⟨s₁, b₁, hrun, hlater⟩ := ih
    obtain ⟨s₂, b₂, hrun₂, hlater₂⟩ := hstep.ok (S := S) hrun
    exact ⟨s₂, b₂, hrun₂, trans_of S hlater₂ hlater⟩

theorem leads_past {n ts'} :
    ∀ {ts s s' b b'}, (analyse (includeFile n) ts s).exec b = (.ok s', b') →
      Leads ⟨n, ts ++ ts', s, b⟩ ⟨n, ts', s', b'⟩
  | [], s, s', b, b', h => by
    cases h
    exact .refl
  | t :: ts, s, s', b, b', h => by
    obtain ⟨s₁, b₁, htag, hts⟩ := exec_bind_ok.mp h
    exact .head (.past htag) (leads_past hts)

end Place

end Builder

end RosAudit
