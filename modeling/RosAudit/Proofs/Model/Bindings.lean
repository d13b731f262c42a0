import RosAudit.Model.Source

/-!
# What is tied to what

Two source objects of different kinds are asked about each other, and both answer. A repository or
a project goes through all packages that it lists when it is asked about a node. The node looks at
the first of them only, and of a repository that is compared with a project only the first package
counts. `Model.Overlooks` says that this makes a difference to a node. Otherwise the two answers are
the same (`Model.boundTo_symm_iff`).
-/

namespace RosAudit

/-- A repository or a project, which list packages. -/
def Entity.IsGroup (e : Entity) : Prop := e.kind = .repository ∨ e.kind = .project

namespace Model

variable (m : Model)

def HasPackage (ps : List (Ref .package)) (p : Ref .package) : Prop :=
  ∃ q ∈ ps, (m.package q).id = (m.package p).id

/-- The node `a` is in a package that `b` lists, and not in the first one. -/
def Overlooks (a b : Entity) : Prop :=
  a.kind = .node ∧ b.IsGroup ∧ m.HasPackage (m.packagesOf b) (m.packageOf a) ∧
    ¬ m.HasPackage ((m.packagesOf b).take 1) (m.packageOf a)

variable {m} {a b : Entity} {p q : Ref .package}

theorem equal_package : m.equal p.entity q.entity = true ↔ (m.package p).id = (m.package q).id := by
  simp [equal, Ref.entity, id?]

theorem equal_package_comm : m.equal p.entity q.entity = m.equal q.entity p.entity := by
  rw [Bool.eq_iff_iff, equal_package, equal_package, eq_comm]

theorem holds_iff (ps) : m.holds ps p = true ↔ m.HasPackage ps p := by
  simp only [holds, List.any_eq_true, equal_package, HasPackage]

theorem any_head? {α : Type} (l : List α) (f : α → Bool) : l.head?.any f = (l.take 1).any f := by
  cases l <;> simp

/-! ## One against a group -/

theorem boundTo_file (ha : a.kind = .file) (hb : b.IsGroup) :
    m.boundTo a b = .ok (m.holds (m.packagesOf b) (m.packageOf a)) := by
  obtain ⟨k, i⟩ := a
  obtain ⟨k', j⟩ := b
  obtain rfl := ha
  rcases hb with rfl | rfl <;> rfl

theorem boundTo_node (ha : a.kind = .node) (hb : b.IsGroup) :
    m.boundTo a b = .ok (m.holds ((m.packagesOf b).take 1) (m.packageOf a)) ∧
      m.boundTo b a = .ok (m.holds (m.packagesOf b) (m.packageOf a)) := by
  obtain ⟨k, i⟩ := a
  obtain ⟨k', j⟩ := b
  obtain rfl := ha
  rw [holds, ← any_head?]
  rcases hb with rfl | rfl <;> exact ⟨rfl, rfl⟩

theorem boundTo_node_group (ha : a.kind = .node) (hb : b.IsGroup) : ∃ x y,
    m.boundTo a b = .ok x ∧ m.boundTo b a = .ok y ∧ (x = y ↔ ¬ m.Overlooks a b) := by
  obtain ⟨hfirst, hlisted⟩ := boundTo_node (m := m) ha hb
  refine ⟨_, _, hfirst, hlisted, ?_⟩
  rw [Bool.eq_iff_iff, holds_iff, holds_iff]
  constructor
  · rintro h ⟨-, -, hin, hnot⟩
    exact hnot (h.mpr hin)
  · refine fun h => ⟨Exists.imp fun q hq => ⟨List.mem_of_mem_take hq.1, hq.2⟩, fun hin => ?_⟩
    exact Classical.not_not.mp fun hnot => h ⟨ha, hb, hin, hnot⟩

theorem not_overlooks_of_group (h : a.IsGroup) : ¬ m.Overlooks a b := by
  rintro ⟨hnode, -⟩
  rcases h with h | h <;> cases h.symm.trans hnode

/-! ## Any two -/

theorem boundTo_symm (ha : a.scope?.isSome) (hb : b.scope?.isSome) (hkind : a.kind ≠ b.kind)
    (h : ¬ (a.kind = .node ∧ b.IsGroup)) (h' : ¬ (b.kind = .node ∧ a.IsGroup)) :
    ∃ x, m.boundTo a b = .ok x ∧ m.boundTo b a = .ok x := by
  obtain ⟨k, i⟩ := a
  obtain ⟨k', j⟩ := b
  cases k <;> cases k' <;> first
    | exact absurd rfl hkind
    | exact absurd ha Bool.false_ne_true
    | exact absurd hb Bool.false_ne_true
    | exact ⟨_, rfl, rfl⟩
    | exact ⟨_, rfl, congrArg Except.ok equal_package_comm⟩
    | exact absurd ⟨rfl, .inl rfl⟩ h
    | exact absurd ⟨rfl, .inr rfl⟩ h
    | exact absurd ⟨rfl, .inl rfl⟩ h'
    | exact absurd ⟨rfl, .inr rfl⟩ h'

theorem boundTo_between (ha : a.scope?.isSome) (hb : b.scope?.isSome) (hkind : a.kind ≠ b.kind) :
    ∃ x y, m.boundTo a b = .ok x ∧ m.boundTo b a = .ok y ∧
      (x = y ↔ ¬ m.Overlooks a b ∧ ¬ m.Overlooks b a) := by
  by_cases h : a.kind = .node ∧ b.IsGroup
  · obtain ⟨x, y, hx, hy, heq⟩ := boundTo_node_group (m := m) h.1 h.2
    exact ⟨x, y, hx, hy, heq.trans (and_iff_left (not_overlooks_of_group h.2)).symm⟩
  by_cases h' : b.kind = .node ∧ a.IsGroup
  · obtain ⟨x, y, hx, hy, heq⟩ := boundTo_node_group (m := m) h'.1 h'.2
    refine ⟨y, x, hy, hx, ?_⟩
    rw [eq_comm, heq, and_iff_right (not_overlooks_of_group h'.2)]
  · obtain ⟨x, hx, hx'⟩ := boundTo_symm (m := m) ha hb hkind h h'
    exact ⟨x, x, hx, hx', iff_of_true rfl
      ⟨fun ho => h ⟨ho.1, ho.2.1⟩, fun ho => h' ⟨ho.1, ho.2.1⟩⟩⟩

/-- Objects of different kinds answer each other in the same way, unless a node is overlooked. A
file is tied to a group exactly if its package is listed there, a node if it is listed first, and a
repository to a project that is not its own if the first of its packages is listed there. -/
theorem boundTo_symm_iff (m : Model) (a b : Entity) :
    (a.scope?.isSome → b.scope?.isSome → a.kind ≠ b.kind → ∃ x y,
      m.boundTo a b = .ok x ∧ m.boundTo b a = .ok y ∧
        (x = y ↔ ¬ m.Overlooks a b ∧ ¬ m.Overlooks b a)) ∧
    (a.kind = .file → b.IsGroup →
      (m.boundTo a b = .ok true ↔ m.HasPackage (m.packagesOf b) (m.packageOf a))) ∧
    (a.kind = .node → b.IsGroup →
      (m.boundTo a b = .ok true ↔ m.HasPackage ((m.packagesOf b).take 1) (m.packageOf a)) ∧
      (m.boundTo b a = .ok true ↔ m.HasPackage (m.packagesOf b) (m.packageOf a))) ∧
    (a.kind = .repository → b.kind = .project →
      ((m.repository ⟨a.index⟩).project.any fun p => m.equal p.entity b) = false →
      (m.boundTo a b = .ok true ↔
        ∃ p ∈ (m.packagesOf a).take 1, m.HasPackage (m.packagesOf b) p)) := by
  refine ⟨boundTo_between, fun ha hb => ?_, fun ha hb => ?_, ?_⟩
  · rw [boundTo_file ha hb, Except.ok.injEq, holds_iff]
  · obtain ⟨hfirst, hlisted⟩ := boundTo_node (m := m) ha hb
    rw [hfirst, hlisted, Except.ok.injEq, Except.ok.injEq, holds_iff, holds_iff]
    exact ⟨Iff.rfl, Iff.rfl⟩
  · obtain ⟨k, i⟩ := a
    obtain ⟨k', j⟩ := b
    rintro rfl rfl hother
    change Except.ok (_ || _) = _ ↔ _
    rw [hother, Bool.false_or, Except.ok.injEq, firstIn, any_head?, List.any_eq_true]
    simp only [holds_iff]
    rfl

/-- Two packages of one repository, the second with a node, and a project with the first one. -/
def workshop : Model where
  projects := #[{ name := "arms", packages := [⟨0⟩] }]
  repositories := #[{ name := "stock", packages := [⟨0⟩, ⟨1⟩] }]
  packages :=
    #[{ name := "frame", repository := some ⟨0⟩ }, { name := "arm", repository := some ⟨0⟩ }]
  nodes := #[{ name := "grip", package := ⟨1⟩, packageName := "arm" }]

theorem boundTo_symm_iff_workshop :
    ¬ (¬ workshop.Overlooks ⟨.node, 0⟩ ⟨.repository, 0⟩ ∧
      ¬ workshop.Overlooks ⟨.repository, 0⟩ ⟨.node, 0⟩) ∧
    ∃ p ∈ (workshop.packagesOf ⟨.repository, 0⟩).take 1,
      workshop.HasPackage (workshop.packagesOf ⟨.project, 0⟩) p := by
  obtain ⟨x, y, hx, hy, hsame⟩ :=
    (boundTo_symm_iff workshop ⟨.node, 0⟩ ⟨.repository, 0⟩).1 rfl rfl (by decide)
  cases hx
  cases hy
  exact ⟨fun h => Bool.false_ne_true (hsame.mpr h),
    ((boundTo_symm_iff workshop ⟨.repository, 0⟩ ⟨.project, 0⟩).2.2.2 rfl rfl rfl).mp rfl⟩

/-- The repository is tied to the node and the node not to the repository. The project is tied to
the repository, and has only one of its two packages. -/
theorem workshop_overlooks :
    workshop.boundTo ⟨.repository, 0⟩ ⟨.node, 0⟩ = .ok true ∧
    workshop.boundTo ⟨.node, 0⟩ ⟨.repository, 0⟩ = .ok false ∧
    workshop.boundTo ⟨.repository, 0⟩ ⟨.project, 0⟩ = .ok true ∧
    ¬ workshop.HasPackage (workshop.packagesOf ⟨.project, 0⟩) ⟨1⟩ :=
  ⟨rfl, rfl, rfl, by simp [HasPackage, packagesOf, workshop, project, package, Package.id]⟩

end Model

end RosAudit
