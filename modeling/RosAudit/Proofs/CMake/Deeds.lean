import Mathlib.Logic.Function.Basic
import RosAudit.CMake.Project
import RosAudit.Proofs.Table

/-!
# What commands do to targets

The commands of a script that concern targets do one of three things : they define a target, link
one with names, or set a property of one. A `Log` is what they do, in order.

A name means the library that was defined last under it, or else the executable (`Log.meaning`). So
each deed that is not a definition changes the target of one definition, or none, and `Log.changes`
collects the deeds for each definition. Tables that are changed along with the deeds hold no
history, only targets by name. They hold for each name the target that was defined last, with all
that was ever changed in it (`Targets.Shows.applyAll`).

Each script has tables of its own. Those of later scripts are written over those of earlier ones, so
the tables of all hold for each name the target of the last script that defines it
(`Targets.Gathers.merge`).
-/

namespace RosAudit.CMake

open List

/-- What a command does to targets : it defines one, or changes the one that a name means. -/
inductive Deed where
  | define (isExecutable : Bool) (name : String) (files : List String)
  | link (name : String) (names : List String)
  | property (name key value : String)
  deriving DecidableEq

namespace Deed

def defined? : Deed → Option Target
  | define e name files => some (Target.make name files e)
  | _ => none

def defines (e : Bool) (name : String) : Deed → Bool
  | define e' name' _ => e' == e && name' == name
  | _ => false

def subject? : Deed → Option String
  | define .. => none
  | link name _ => some name
  | property name _ _ => some name

def names : Deed → List String
  | link _ names => names
  | _ => []

def change : Deed → Target → Target
  | define .., t => t
  | link _ names, t => { t with links := t.links ++ names.map .name }
  | property _ key value, t => t.setProperty key value

theorem defines_define_iff {e e' name name' files} :
    (define e' name' files).defines e name = true ↔ e' = e ∧ name' = name := by
  simp [defines]

end Deed

abbrev Log := List Deed

namespace Log

def lastDefinition (log : Log) (e : Bool) (name : String) : Option Nat :=
  (log.zipIdx.filter fun x => x.1.defines e name).getLast?.map Prod.snd

/-- The definition that a name means : that of the last library, or else of the last executable. -/
def meaning (log : Log) (name : String) : Option Nat :=
  (log.lastDefinition false name).or (log.lastDefinition true name)

/-- The deeds that change the target of a definition. Each changes what its name means when it is
done. -/
def changes (log : Log) (i : Nat) : List Deed :=
  (log.zipIdx.filter fun x => x.1.subject?.bind (meaning (log.take x.2)) == some i).map Prod.fst

def linked (log : Log) (i : Nat) : List String := (log.changes i).flatMap Deed.names

/-- The target of a definition, with all that was changed in it. -/
def standing? (log : Log) (i : Nat) : Option Target :=
  (log[i]?.bind Deed.defined?).map fun t => (log.changes i).foldl (fun t d => d.change t) t

variable {log : Log} {d : Deed} {e e' : Bool} {name name' : String} {i : Nat}

theorem lastDefinition_concat (log : Log) (d : Deed) (e : Bool) (name : String) :
    lastDefinition (log ++ [d]) e name =
      if d.defines e name then some log.length else log.lastDefinition e name := by
  unfold lastDefinition
  rw [zipIdx_append]
  by_cases h : d.defines e name = true <;> simp [h]

theorem eq_define_of_lastDefinition (h : log.lastDefinition e name = some i) :
    ∃ files, log[i]? = some (.define e name files) := by
  obtain ⟨⟨d, j⟩, hlast, rfl⟩ := Option.map_eq_some_iff.mp h
  obtain ⟨hmem, hdefines⟩ := mem_filter.mp (mem_of_getLast? hlast)
  have hd := mem_zipIdx_iff_getElem?.mp hmem
  cases d with
  | define e' name' files =>
    obtain ⟨rfl, rfl⟩ := Deed.defines_define_iff.mp hdefines
    exact ⟨files, hd⟩
  | link | property => cases hdefines

theorem lt_of_lastDefinition (h : log.lastDefinition e name = some i) : i < log.length := by
  obtain ⟨files, hi⟩ := eq_define_of_lastDefinition h
  exact (List.getElem?_eq_some_iff.mp hi).1

theorem lastDefinition_inj (h : log.lastDefinition e name = some i)
    (h' : log.lastDefinition e' name' = some i) : e = e' ∧ name = name' := by
  obtain ⟨files, hi⟩ := eq_define_of_lastDefinition h
  obtain ⟨files', hi'⟩ := eq_define_of_lastDefinition h'
  cases hi.symm.trans hi'
  exact ⟨rfl, rfl⟩

theorem lt_of_meaning (h : log.meaning name = some i) : i < log.length := by
  rcases Option.or_eq_some_iff.mp h with h | ⟨-, h⟩ <;> exact lt_of_lastDefinition h

theorem meaning_eq_some_iff (h : log.lastDefinition e name = some i) (name' : String) :
    log.meaning name' = some i ↔
      name' = name ∧ (e = false ∨ log.lastDefinition false name' = none) := by
  unfold meaning
  rw [Option.or_eq_some_iff]
  constructor
  · rintro (h' | ⟨hnone, h'⟩)
    · obtain ⟨rfl, rfl⟩ := lastDefinition_inj h h'
      exact ⟨rfl, .inl rfl⟩
    · obtain ⟨rfl, rfl⟩ := lastDefinition_inj h h'
      exact ⟨rfl, .inr hnone⟩
  · rintro ⟨rfl, hlibrary⟩
    cases e with
    | false => exact .inl h
    | true => exact .inr ⟨hlibrary.resolve_left (by decide), h⟩

theorem changes_concat (log : Log) (d : Deed) (i : Nat) :
    changes (log ++ [d]) i =
      log.changes i ++ if d.subject?.bind log.meaning = some i then [d] else [] := by
  have hbefore : ∀ x ∈ log.zipIdx, (log ++ [d]).take x.2 = log.take x.2 := by
    intro x hx
    have hi := mem_zipIdx_iff_getElem?.mp hx
    have hlt := (List.getElem?_eq_some_iff.mp hi).1
    rw [take_append_of_le_length (Nat.le_of_lt hlt)]
  unfold changes
  rw [zipIdx_append, filter_append, map_append]
  congr 1
  · refine congrArg (List.map Prod.fst) (filter_congr fun x hx => ?_)
    rw [hbefore x hx]
  · by_cases h : d.subject?.bind log.meaning = some i <;> simp [h]

theorem changes_of_length_le (h : log.length ≤ i) : log.changes i = [] := by
  unfold changes
  rw [map_eq_nil_iff, filter_eq_nil_iff]
  intro x hx hi
  obtain ⟨name, -, hmeaning⟩ := Option.bind_eq_some_iff.mp (beq_iff_eq.mp hi)
  have hlt := lt_of_meaning hmeaning
  rw [length_take] at hlt
  omega

theorem standing?_concat_of_lt (d : Deed) (h : i < log.length) :
    standing? (log ++ [d]) i =
      if d.subject?.bind log.meaning = some i then (log.standing? i).map d.change
      else log.standing? i := by
  unfold standing?
  rw [List.getElem?_append_left h, changes_concat]
  by_cases hd : d.subject?.bind log.meaning = some i
  · simp only [if_pos hd, foldl_append, Option.map_map]
    rfl
  · simp only [if_neg hd, append_nil]

theorem standing?_concat_self (log : Log) (d : Deed) :
    standing? (log ++ [d]) log.length = d.defined? := by
  have hsubject : d.subject?.bind log.meaning ≠ some log.length := by
    intro h
    obtain ⟨name, -, hmeaning⟩ := Option.bind_eq_some_iff.mp h
    exact absurd (lt_of_meaning hmeaning) (Nat.lt_irrefl _)
  unfold standing?
  rw [changes_concat, if_neg hsubject, changes_of_length_le (Nat.le_refl _)]
  simp

theorem fields_setProperty (t : Target) (key value : String) :
    (t.setProperty key value).name = t.name ∧
    (t.setProperty key value).files = t.files ∧ (t.setProperty key value).links = t.links := by
  unfold Target.setProperty
  split <;> exact ⟨rfl, rfl, rfl⟩

theorem fields_change (d : Deed) (t : Target) : (d.change t).name = t.name ∧
    (d.change t).files = t.files ∧ (d.change t).links = t.links ++ d.names.map .name := by
  cases d with
  | define => simp [Deed.change, Deed.names]
  | link => exact ⟨rfl, rfl, rfl⟩
  | property name key value => simpa [Deed.change, Deed.names] using fields_setProperty t key value

theorem fields_foldl_change (ds : List Deed) (t : Target) :
    let t' := ds.foldl (fun t d => d.change t) t
    t'.name = t.name ∧ t'.files = t.files ∧
      t'.links = t.links ++ (ds.flatMap Deed.names).map .name := by
  induction ds generalizing t with
  | nil => simp
  | cons d ds ih =>
    obtain ⟨hname, hfiles, hlinks⟩ := ih (d.change t)
    obtain ⟨hname', hfiles', hlinks'⟩ := fields_change d t
    refine ⟨hname.trans hname', hfiles.trans hfiles', hlinks.trans ?_⟩
    rw [hlinks', flatMap_cons, map_append, append_assoc]

theorem standing?_of_lastDefinition (h : log.lastDefinition e name = some i) :
    ∃ files t, log[i]? = some (.define e name files) ∧ log.standing? i = some t ∧ t.name = name ∧
      t.files = files ∧ t.links = (log.linked i).map .name := by
  obtain ⟨files, hi⟩ := eq_define_of_lastDefinition h
  obtain ⟨hname, hfiles, hlinks⟩ := fields_foldl_change (log.changes i) (Target.make name files e)
  refine ⟨files, _, hi, ?_, hname, hfiles, hlinks⟩
  rw [standing?, hi]
  rfl

theorem bind_standing?_eq_none_iff :
    (log.lastDefinition e name).bind log.standing? = none ↔ log.lastDefinition e name = none := by
  rcases hlast : log.lastDefinition e name with _ | i
  · simp
  · obtain ⟨-, t, -, hstanding, -⟩ := standing?_of_lastDefinition hlast
    simp [hstanding]

/-- The target that was defined last under a name, by scripts that were worked through one after the
other. A script changes only the targets that it has defined itself. -/
def lastTarget (logs : List Log) (e : Bool) (name : String) : Option Target :=
  logs.reverse.findSome? fun log => (log.lastDefinition e name).bind log.standing?

theorem lastTarget_append (logs logs' : List Log) (e : Bool) (name : String) :
    lastTarget (logs ++ logs') e name = (lastTarget logs' e name).or (lastTarget logs e name) := by
  rw [lastTarget, reverse_append, findSome?_append]
  rfl

end Log

/-! ## Tables of targets -/

abbrev Targets := Bool → Table String Target

namespace Targets

/-- No targets. -/
def none : Targets := fun _ => Table.empty

def modify (ts : Targets) (name : String) (f : Target → Target) : Targets :=
  let e := !(ts false).contains name
  Function.update ts e ((ts e).modify name f)

def apply (ts : Targets) : Deed → Targets
  | .define e name files => Function.update ts e ((ts e).put name (Target.make name files e))
  | .link name names => ts.modify name (Deed.change (.link name names))
  | .property name key value => ts.modify name (Deed.change (.property name key value))

def applyAll (ts : Targets) (log : Log) : Targets := log.foldl apply ts

variable {ts : Targets} {d : Deed} {e : Bool} {name : String}

theorem get?_update_put {e' name'} (t : Target) :
    (Function.update ts e ((ts e).put name t) e').get? name' =
      if e' = e ∧ name' = name then some t else (ts e').get? name' := by
  by_cases he : e' = e
  · subst he
    simp [Table.get?_put]
  · simp [he]

theorem get?_modify {e' name'} (f : Target → Target) :
    (ts.modify name f e').get? name' =
      if name = name' ∧ (e' = false ∨ (ts false).get? name = Option.none) then
        ((ts e').get? name').map f
      else (ts e').get? name' := by
  unfold modify
  by_cases hname : name = name'
  · subst hname
    rcases hget :
      (ts false).get? name <;> cases e' <;> simp [Table.contains, hget, Table.get?_modify]
  · rw [if_neg fun h => hname h.1, Function.update_apply]
    split
    · rename_i he
      simp [Table.get?_modify, he, Ne.symm hname]
    · rfl

theorem apply_of_subject (ts : Targets) (h : d.subject? = some name) :
    ts.apply d = ts.modify name d.change := by
  cases d with
  | define => cases h
  | link | property =>
    cases h
    rfl

theorem applyAll_append (ts : Targets) (log log' : Log) :
    ts.applyAll (log ++ log') = (ts.applyAll log).applyAll log' :=
  foldl_append

/-- The tables hold the targets that were defined last, with all that was changed in them. -/
def Shows (ts : Targets) (log : Log) : Prop :=
  ∀ e name, (ts e).get? name = (log.lastDefinition e name).bind log.standing?

variable {log : Log}

theorem Shows.define (h : Shows ts log) (e name files) :
    Shows (ts.apply (.define e name files)) (log ++ [.define e name files]) := by
  intro e' name'
  rw [apply, get?_update_put, Log.lastDefinition_concat]
  by_cases hself : e' = e ∧ name' = name
  · obtain ⟨rfl, rfl⟩ := hself
    simp [Deed.defines, Log.standing?_concat_self, Deed.defined?]
  · have hdefines : ¬ (Deed.define e name files).defines e' name' = true := by
      rw [Deed.defines_define_iff]
      rintro ⟨rfl, rfl⟩
      exact hself ⟨rfl, rfl⟩
    rw [if_neg hself, if_neg hdefines, h]
    refine Option.bind_congr fun i hi => ?_
    rw [Log.standing?_concat_of_lt _ (Log.lt_of_lastDefinition hi)]
    rfl

theorem Shows.change (h : Shows ts log) (hsubject : d.subject? = some name) :
    Shows (ts.apply d) (log ++ [d]) := by
  intro e' name'
  have hdefines : d.defines e' name' = false := by
    cases d with
    | define => cases hsubject
    | link | property => rfl
  rw [apply_of_subject _ hsubject, get?_modify, Log.lastDefinition_concat, h, h, hdefines,
    if_neg Bool.false_ne_true]
  rcases hlast : log.lastDefinition e' name' with _ | i
  · simp
  · -- the deed changes what its name means : this definition, exactly if this table is changed
    have hmeaning := Log.meaning_eq_some_iff hlast name
    have hlt := Log.lt_of_lastDefinition hlast
    rw [Option.bind_some, Option.bind_some, Log.standing?_concat_of_lt _ hlt, hsubject,
      Option.bind_some]
    simp only [hmeaning, Log.bind_standing?_eq_none_iff]

theorem Shows.apply (h : Shows ts log) (d : Deed) : Shows (ts.apply d) (log ++ [d]) := by
  cases d with
  | define e name files => exact h.define e name files
  | link | property => exact h.change rfl

theorem Shows.applyAll (h : Shows ts log) (log' : Log) :
    Shows (ts.applyAll log') (log ++ log') := by
  induction log' generalizing ts log with
  | nil => rwa [append_nil]
  | cons d log' ih =>
    rw [append_cons]
    exact ih (h.apply d)

/-- The tables hold the targets that were defined last, by scripts that were worked through one
after the other. -/
structure Gathers (ts : Targets) (logs : List Log) : Prop where
  nodup : ∀ e, (ts e).keys.Nodup
  get?_eq : ∀ e name, (ts e).get? name = Log.lastTarget logs e name

theorem Gathers.merge {us logs logs'} (h : Gathers ts logs) (h' : Gathers us logs') :
    Gathers (fun e => (ts e).merge (us e)) (logs ++ logs') where
  nodup e := Table.nodup_keys_putAll (h.nodup e) _
  get?_eq e name := by
    rw [Table.merge, Table.get?_putAll (h'.nodup e), ← Table.get?, h.get?_eq, h'.get?_eq,
      Log.lastTarget_append]

end Targets

end RosAudit.CMake
