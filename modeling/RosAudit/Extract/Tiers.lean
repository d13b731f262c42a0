import RosAudit.Model.Source

/-!
# Tiers

Packages are audited after the packages that they need. `Tiers.assign` gives each item the number
of its tier: the first tier needs nothing, and every other one needs something of the tier before
it. Items that need each other in a circle share the last tier, as do those that wait for them.

`Model.sortByTier` puts the packages of a project in that order, and by identifier inside a tier.
-/

namespace RosAudit

namespace Tiers

variable {α : Type}

/-- Something that waits for the items it needs. -/
structure Item (α : Type) where
  content : α
  name : String
  needs : List String

def Item.without (i : Item α) (met : List String) : Item α :=
  { i with needs := i.needs.filter fun n => !met.contains n }

/-- Assigns tiers from a number on. The last argument bounds the number of rounds. -/
def assignFrom (tier : Nat) (met : List String) (pending : List (Item α)) : Nat → List (α × Nat)
  | 0 => []
  | rounds + 1 =>
    if pending.isEmpty then []
    else
      let items := pending.map fun i => i.without met
      let ready := items.filter fun i => i.needs.isEmpty
      let waiting := items.filter fun i => !i.needs.isEmpty
      if ready.isEmpty then waiting.map fun i => (i.content, tier)
      else
        (ready.map fun i => (i.content, tier)) ++
          assignFrom (tier + 1) (ready.map Item.name) waiting rounds

def assign (items : List (Item α)) : List (α × Nat) := assignFrom 0 [] items items.length

end Tiers

namespace Model

def tierBefore (m : Model) (a b : Ref .package) : Bool :=
  let p := m.package a
  let q := m.package b
  if p.tier = q.tier then p.id < q.id || p.id == q.id else p.tier < q.tier

def sortByTier (m : Model) (project : Ref .project) (names : List String) : Model :=
  let packages := (m.project project).packages
  let tiers := Tiers.assign (packages.map fun r =>
    { content := r, name := (m.package r).name
      needs := (m.package r).dependencies.filter names.contains : Tiers.Item (Ref .package) })
  let m := tiers.foldl (fun m (r, tier) => m.updatePackage r fun p => { p with tier }) m
  m.updateProject project fun p => { p with packages := p.packages.mergeSort m.tierBefore }

end Model

end RosAudit
