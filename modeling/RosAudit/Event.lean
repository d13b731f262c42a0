import RosAudit.Fault

/-!
# Events

An event keeps the ones that listen to it, in order. Whoever listens twice is called twice.
-/

namespace RosAudit

structure Event (α : Type) where
  listeners : List α := []

namespace Event

variable {α : Type} [BEq α]

def subscribe (e : Event α) (x : α) : Event α := ⟨e.listeners ++ [x]⟩

def unsubscribe (e : Event α) (x : α) : Result (Event α) :=
  if e.listeners.contains x then pure ⟨e.listeners.erase x⟩ else throw .unreadableValue

def remove (e : Event α) (i : Int) : Result (Event α) :=
  let n := e.listeners.length
  let k := if i < 0 then i + n else i
  if 0 ≤ k ∧ k < n then pure ⟨e.listeners.eraseIdx k.toNat⟩ else throw .outOfRange

def calls {β : Type} (e : Event α) (argument : β) : List (α × β) :=
  e.listeners.map fun x => (x, argument)

end Event

end RosAudit
