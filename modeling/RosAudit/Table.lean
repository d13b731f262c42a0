/-!
# Insertion-ordered tables

A `Table` maps keys to values and remembers the order in which keys first came in. Everything
the audit reports about a project (variables of a build script, arguments of a launch file,
fields of a record) is listed in that order, so the order belongs to the type and not to the
printer.

`Table.put` keeps the place of a key that is already present and appends a new one at the end;
`Table.erase` forgets the place as well, so that a later `put` appends again.
-/

namespace RosAudit

/-- A finite map that lists its keys in the order of their first insertion. -/
structure Table (κ α : Type) where
  entries : List (κ × α) := []
  deriving Repr, DecidableEq, Inhabited

namespace Table

variable {κ α β : Type} [BEq κ]

def empty : Table κ α := ⟨[]⟩

def keys (t : Table κ α) : List κ := t.entries.map Prod.fst

def values (t : Table κ α) : List α := t.entries.map Prod.snd

def size (t : Table κ α) : Nat := t.entries.length

def isEmpty (t : Table κ α) : Bool := t.entries.isEmpty

def get? (t : Table κ α) (k : κ) : Option α := t.entries.lookup k

def getD (t : Table κ α) (k : κ) (d : α) : α := (t.get? k).getD d

def contains (t : Table κ α) (k : κ) : Bool := (t.get? k).isSome

/-- Writes a value into a list of pairs: in place if the key is there, at the end if not. -/
def putEntry (k : κ) (a : α) : List (κ × α) → List (κ × α)
  | [] => [(k, a)]
  | (k', a') :: rest => if k == k' then (k', a) :: rest else (k', a') :: putEntry k a rest

def put (t : Table κ α) (k : κ) (a : α) : Table κ α := ⟨putEntry k a t.entries⟩

def erase (t : Table κ α) (k : κ) : Table κ α := ⟨t.entries.filter fun e => !(k == e.1)⟩

def modify (t : Table κ α) (k : κ) (f : α → α) : Table κ α :=
  ⟨t.entries.map fun e => if k == e.1 then (e.1, f e.2) else e⟩

/-- Puts a list of pairs in order, so that of two equal keys the later value stays. -/
def putAll (t : Table κ α) (es : List (κ × α)) : Table κ α :=
  es.foldl (fun t e => t.put e.1 e.2) t

/-- The table of a list of pairs; of two equal keys the first gives the place, the last the
value. -/
def ofList (es : List (κ × α)) : Table κ α := empty.putAll es

def map (f : α → β) (t : Table κ α) : Table κ β := ⟨t.entries.map fun e => (e.1, f e.2)⟩

def merge (t u : Table κ α) : Table κ α := t.putAll u.entries

end Table

end RosAudit
