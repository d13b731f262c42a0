import RosAudit.Configure.Builder
import RosAudit.Proofs.Launch.LateSubstitution

/-!
# Steps that see the same

What a tag does depends on a few parts of its builder only (`SameReading`). The lemmas `blind_*` say
that a step gives the same result from two builders related by `S` and leaves two related builders,
from the fields of a tag (`blind_textField`) up to lists of tags (`blind_analyse`). What this takes
is said of the relation :

* `Seeing S` : a step cannot tell related builders apart, even after something was asked of them;
* `Tracing S` : nor after a package was looked for; `Noticing S` : nor after a message;
* `Following S` : nor after something was done on their workbenches.
-/

/-! ## Questions to a context -/

namespace RosAudit

open Job

namespace SubstContext

/-- Two contexts that differ only in what was asked of them. -/
structure Matches (c c' : SubstContext) : Prop where
  arguments : c'.arguments = c.arguments
  environment : c'.environment = c.environment
  packages : c'.packages = c.packages
  folder : c'.folder = c.folder
  origin : c'.origin = c.origin
  nameFor : ∀ n, c'.nameFor n = c.nameFor n

variable {c c' d d' : SubstContext}

theorem Matches.symm (h : Matches c c') : Matches c' c :=
  ⟨h.arguments.symm, h.environment.symm, h.packages.symm, h.folder.symm, h.origin.symm,
    fun n => (h.nameFor n).symm⟩

instance : IsPreorder SubstContext Matches where
  refl _ := ⟨rfl, rfl, rfl, rfl, rfl, fun _ => rfl⟩
  trans _ _ _ h h' := ⟨h'.arguments.trans h.arguments, h'.environment.trans h.environment,
    h'.packages.trans h.packages, h'.folder.trans h.folder, h'.origin.trans h.origin,
    fun n => (h'.nameFor n).trans (h.nameFor n)⟩

theorem Noted.matches (h : Noted c c') : Matches c c' := by
  have hn := h.nameFor
  cases h <;> exact ⟨rfl, rfl, rfl, rfl, rfl, hn⟩

theorem within_answer (ws) : Within Matches (answer ws) :=
  fun c => (noted_answer ws c).matches

theorem blind_answer (ws) : Blind Matches (answer ws) := by
  intro c c' h
  refine ⟨(answer_congr (fun n _ => ?_) h.environment h.packages h.folder h.nameFor).symm,
    trans_of Matches (trans_of Matches (within_answer ws c).symm h) (within_answer ws c')⟩
  rw [told, told, h.arguments]

section Blind

variable {S : SubstContext → SubstContext → Prop} (hanswer : ∀ ws, Blind S (answer ws))
include hanswer

theorem blind_complete : ∀ ps : List Piece, Blind S (complete ps)
  | [] => blind_pure _
  | .text s :: ps => by
    refine (blind_complete ps).bind fun r => ?_
    split <;> exact blind_pure _
  | .command ws :: ps => by
    refine (hanswer ws).bind fun a => ?_
    split
    · exact blind_pure _
    · refine (blind_complete ps).bind fun r => ?_
      split <;> exact blind_pure _

theorem blind_resolveLate_of (v : Subst) (k : Kind) (strict : Bool) :
    Blind S (resolveLate v k strict) := by
  unfold resolveLate
  split
  · refine (blind_complete hanswer _).bind fun r => ?_
    split
    · exact (blind_ofResult _).bind fun x => blind_pure _
    · exact of_ite (blind_throw _) (blind_pure _)
  · exact blind_pure _

end Blind

theorem blind_resolveLate (v : Subst) (k : Kind) (strict : Bool) :
    Blind Matches (resolveLate v k strict) :=
  blind_resolveLate_of blind_answer v k strict

theorem within_resolveLate (v : Subst) (k : Kind) (strict : Bool) :
    Within Matches (resolveLate v k strict) :=
  within_of_blind fun c => blind_resolveLate_of (fun ws => (within_answer ws).blind c) v k strict

end SubstContext

namespace Builder

variable {α : Type}

@[simp] theorem exec_onBench (j : Job Workbench α) (b : Builder) :
    (onBench j).exec b = ((j.exec b.bench).1, { b with bench := (j.exec b.bench).2 }) :=
  rfl

theorem exec_onContext (j : Job SubstContext α) (b : Builder) :
    (onContext j).exec b = ((j.exec b.context).1, { b with context := (j.exec b.context).2 }) :=
  rfl

@[simp] theorem exec_model (b : Builder) : model.exec b = (.ok b.bench.model, b) :=
  rfl

/-- Two builders in which a step reads the same. -/
structure SameReading (b b' : Builder) : Prop where
  files : b'.files = b.files
  bench : b'.bench = b.bench
  catalogue : b'.catalogue = b.catalogue
  arguments : b'.context.arguments = b.context.arguments

/-- A relation between builders that read the same, also after something was asked of their
contexts. -/
class Seeing (S : Builder → Builder → Prop) : Prop where
  reads {b b' : Builder} (h : S b b') : SameReading b b'
  context {α : Type} {j : Job SubstContext α} (hj : Blind SubstContext.Matches j)
    (hj' : Within SubstContext.Matches j) : Blind S (onContext j)

/-- What a tag that loads or deletes parameters asks for. -/
inductive Order where
  | load (name ns : Option String) (document : String)
  | delete (name : String) (ns : Option String)
  | other

def readOrder (text : String) (attrs : Table String Subst) : Job Builder Order := do
  let command ← textField .rosparam attrs "command"
  let ns ← textField .rosparam attrs "namespace"
  let file ← textField .rosparam attrs "file"
  let name ← textField .rosparam attrs "name"
  if command == some "load" then
    let document ← match nonEmpty? file with
      | some path =>
        match (← get).files.read path with
        | .ok d => pure d
        | .error _ => throw (.configuration (.unreadableFile path))
      | none => do
        let _ ← resolveField .rosparam attrs "substitute"
        pure text
    pure (.load name ns document)
  else if command == some "delete" then
    match name with
    | none => throw .wrongKind
    | some name => pure (.delete name ns)
  else pure .other

def Order.follow (s : LaunchScope) : Order → Job Builder LaunchScope
  | .load name ns document => onBench (s.setDocument name ns document none)
  | .delete name ns => do
    onBench (s.deleteParam name ns none)
    pure s
  | .other => pure s

theorem rosparamTag_eq (text attrs s) :
    rosparamTag text attrs s = readOrder text attrs >>= Order.follow s := by
  unfold rosparamTag readOrder
  simp only [bind_assoc]
  refine bind_congr fun command => bind_congr fun ns => bind_congr fun file => ?_
  refine bind_congr fun name => ?_
  split
  · cases nonEmpty? file with
    | some path =>
      rw [bind_assoc]
      refine bind_congr fun b => ?_
      cases b.files.read path <;> rfl
    | none =>
      rw [bind_assoc]
      rfl
  · split
    · cases name <;> rfl
    · rfl

section Seeing

variable {S : Builder → Builder → Prop} [Seeing S] (k : TagKind) (attrs : Table String Subst)
  (s : LaunchScope)

theorem blind_read {f : Builder → Job Builder α} (hf : ∀ {b b'}, SameReading b b' → f b = f b')
    (h : ∀ b, Blind S (f b)) : Blind S (get >>= f) :=
  blind_get (fun _ _ hb => hf (Seeing.reads hb)) h

theorem blind_model {f : Model → Job Builder α} (hf : ∀ m, Blind S (f m)) : Blind S (model >>= f) :=
  Blind.bind (blind_read (fun h => by rw [h.bench]) fun b => blind_pure _) hf

theorem blind_resolveField (field : String) : Blind S (resolveField k attrs field) := by
  unfold resolveField
  split
  · exact blind_pure _
  · exact Seeing.context (SubstContext.blind_resolveLate _ _ _)
      (SubstContext.within_resolveLate _ _ _)

theorem blind_textField (field : String) : Blind S (textField k attrs field) := by
  refine (blind_resolveField k attrs field).bind fun v => ?_
  split <;> exact blind_pure _

theorem blind_counts (c : Condition) : Blind S (counts c) := by
  refine (Seeing.context (SubstContext.blind_resolveLate _ _ _)
    (SubstContext.within_resolveLate _ _ _)).bind fun v => ?_
  split
  · exact blind_throw _
  · exact blind_pure _
  · exact blind_pure _

theorem blind_paramText : Blind S (paramText attrs) := by
  unfold paramText
  dsimp only
  split
  · exact blind_pure _
  · exact blind_pure _
  · refine blind_read (fun h => by rw [h.files]) fun b => ?_
    split
    · exact blind_pure _
    · exact blind_throw _
  · exact blind_throw _
  · exact blind_pure _

theorem blind_argTag (args) : Blind S (argTag attrs args) := by
  refine (blind_textField _ _ _).bind fun value => ?_
  dsimp only
  split
  · exact of_ite (blind_pure _) (blind_pure _)
  · exact blind_pure _

/-- What a tag inside an inclusion does with the arguments that are passed on. -/
def passTag (k : TagKind) (attrs : Table String Subst) (children : List LaunchTree)
    (args : Table String Argument) : Job Builder (Table String Argument) := do
  if ← counts (Condition.of attrs) then
    if k = .arg || k = .env then
      if !children.isEmpty then throw .broken
    if k = .arg then argTag attrs args else pure args
  else pure args

theorem blind_passTag (children args) : Blind S (passTag k attrs children args) := by
  have hthen : Blind S (if k = .arg then argTag attrs args else pure args : Job Builder _) :=
    of_ite (blind_argTag attrs args) (blind_pure args)
  refine (blind_counts _).bind fun c => of_ite (of_ite ?_ hthen) (blind_pure args)
  exact of_ite ((blind_throw _).bind fun _ => hthen) hthen

theorem blind_renamingOf : Blind S (renamingOf attrs s) := by
  refine (blind_textField _ _ _).bind fun source => ?_
  refine (blind_textField _ _ _).bind fun target => ?_
  exact blind_model fun m => blind_ofResult _

theorem blind_openGroup : Blind S (openGroup attrs s) :=
  Blind.bind (blind_textField _ _ _) fun _ => blind_model fun _ => blind_ofResult _

theorem blind_paramTag {s}
    (hset : ∀ name type text, Blind S (onBench (s.setParam name type text none))) :
    Blind S (paramTag attrs s) := by
  refine (blind_textField _ _ _).bind fun name => ?_
  refine (blind_textField _ _ _).bind fun type => ?_
  refine (blind_paramText attrs).bind fun text => ?_
  refine (hset _ _ _).bind fun r => ?_
  split
  · exact blind_pure _
  all_goals exact blind_throw _

theorem blind_readOrder (text : String) : Blind S (readOrder text attrs) := by
  refine (blind_textField _ _ _).bind fun command => ?_
  refine (blind_textField _ _ _).bind fun ns => ?_
  refine (blind_textField _ _ _).bind fun file => ?_
  refine (blind_textField _ _ _).bind fun name => ?_
  refine of_ite ?_ (of_ite ?_ (blind_pure _))
  · split
    · refine blind_read (fun h => by rw [h.files]) fun b => ?_
      split
      · exact (blind_pure _).bind fun _ => blind_pure _
      · exact (blind_throw _).bind fun _ => blind_pure _
    · refine (blind_resolveField _ _ _).bind fun _ => ?_
      exact (blind_pure _).bind fun _ => blind_pure _
  · split
    · exact blind_throw _
    · exact blind_pure _

theorem blind_rosparamTag (text : String) {s}
    (hload : ∀ name ns document, Blind S (onBench (s.setDocument name ns document none)))
    (hdelete : ∀ name ns, Blind S (onBench (s.deleteParam name ns none))) :
    Blind S (rosparamTag text attrs s) := by
  rw [rosparamTag_eq]
  refine (blind_readOrder attrs text).bind fun o => ?_
  cases o with
  | load name ns document => exact hload name ns document
  | delete name ns => exact (hdelete name ns).bind fun _ => blind_pure s
  | other => exact blind_pure s

end Seeing

/-- A relation that also holds after a package or a program was looked for. -/
class Tracing (S : Builder → Builder → Prop) : Prop extends Seeing S where
  findPackage (name : String) : Blind S (findPackage name)
  node (p : Program) : Blind S p.node

theorem blind_findProgram {S : Builder → Builder → Prop} [Tracing S] (pkg exe args) :
    Blind S (findProgram pkg exe args) := by
  refine (blind_ofResult _).bind fun target => ?_
  refine blind_read (fun h => by rw [h.catalogue]) fun b => ?_
  extract_lets known next
  clear_value known
  have hnext : ∀ p, Blind S (next p) := by
    intro p
    cases known <;> exact blind_pure _
  split
  · exact (blind_pure _).bind hnext
  · have hfind := (Tracing.findPackage target.1).bind hnext
    exact of_ite ((blind_throw _).bind fun _ => hfind) hfind

/-- A relation that also holds after a message was noted, or an argument was given a value. -/
class Noticing (S : Builder → Builder → Prop) : Prop extends Tracing S where
  note (message : String) :
    Blind S (modify fun b => { b with errors := b.errors ++ [message] } : Job Builder PUnit)
  arguments (arguments : Table String Argument) : Blind S
    (modify fun b => { b with context := { b.context with arguments := arguments } } :
      Job Builder PUnit)

section Noticing

variable {S : Builder → Builder → Prop} [Noticing S] (attrs : Table String Subst)

theorem matching_noting {a : α} {j k : Job Builder α} {b b' : Builder} (hj : Matching S j k b b') :
    Matching S (noting a j) (noting a k) b b' := by
  refine hj.attempt.bind fun r _ => ?_
  split
  · exact blind_pure _
  · exact (Noticing.note _).bind fun _ => blind_pure _
  · exact (Noticing.note _).bind fun _ => blind_pure _
  · exact blind_throw _

theorem blind_noting {a : α} {j : Job Builder α} (hj : Blind S j) : Blind S (noting a j) :=
  fun b b' h => matching_noting (hj b b' h)

theorem blind_passedArgs : ∀ ts args,
    Blind S (passedArgs ts args)
  | [], args => blind_pure args
  | .error text :: ts, args => (Noticing.note text).bind fun _ => blind_passedArgs ts args
  | .tag k text attrs children :: ts, args => by
    exact (blind_noting (blind_passTag k attrs children args)).bind fun args =>
      blind_passedArgs ts args

theorem blind_openInclusion (children s) : Blind S (openInclusion attrs children s) := by
  refine (blind_textField _ _ _).bind fun path => ?_
  refine (blind_textField _ _ _).bind fun ns => ?_
  refine (blind_resolveField _ _ _).bind fun passAll => ?_
  refine blind_read (fun h => by rw [h.bench, h.catalogue, h.arguments]) fun b => ?_
  dsimp only
  split
  · exact blind_throw _
  · split
    · exact blind_throw _
    · refine (blind_ofResult _).bind fun scope => ?_
      exact (blind_passedArgs _ _).bind fun arguments => blind_pure _

theorem blind_leafTag_of {k : TagKind} {s : LaunchScope} (text : String)
    (hrename : k = .remap → ∀ source target, Blind S (onBench (s.rename source target)))
    (hset : ∀ name type text, Blind S (onBench (s.setParam name type text none)))
    (hload : ∀ name ns document, Blind S (onBench (s.setDocument name ns document none)))
    (hdelete : ∀ name ns, Blind S (onBench (s.deleteParam name ns none))) :
    Blind S (leafTag k text attrs s) := by
  unfold leafTag
  split
  · exact (blind_renamingOf attrs s).bind fun x => hrename rfl _ _
  · exact blind_paramTag attrs hset
  · exact blind_rosparamTag attrs text hload hdelete
  · refine blind_read (fun h => by rw [h.arguments]) fun b => ?_
    refine (blind_argTag attrs _).bind fun args => ?_
    exact (Noticing.arguments _).bind fun _ => blind_pure s
  · exact blind_pure s

end Noticing

/-- A relation that also holds after something was done on the workbench. -/
class Following (S : Builder → Builder → Prop) : Prop extends Noticing S where
  setParam (s : LaunchScope) (name : String) (type text : Option String) :
    Blind S (onBench (s.setParam name type text none))
  setDocument (s : LaunchScope) (name ns : Option String) (document : String) :
    Blind S (onBench (s.setDocument name ns document none))
  deleteParam (s : LaunchScope) (name : String) (ns : Option String) :
    Blind S (onBench (s.deleteParam name ns none))
  rename (s : LaunchScope) (source target : String) : Blind S (onBench (s.rename source target))
  makeNode (s : LaunchScope) (node : Ref .node) (name ns : Option String) (argv : Value) :
    Blind S (onBench (s.makeNode node name ns argv none))
  linkNode (s : LaunchScope) (node : Ref .node) : Blind S (linkNode s node)

section Following

variable {S : Builder → Builder → Prop} [Following S]

theorem blind_startNode (attrs s) : Blind S (startNode attrs s) := by
  refine (blind_textField _ _ _).bind fun pkg => ?_
  refine (blind_textField _ _ _).bind fun exe => ?_
  refine (blind_textField _ _ _).bind fun args => ?_
  split
  · refine (blind_findProgram _ _ _).bind fun program => ?_
    refine (blind_textField _ _ _).bind fun name => ?_
    refine (blind_textField _ _ _).bind fun ns => ?_
    refine (Tracing.node program).bind fun node => ?_
    refine (Following.makeNode s node _ _ _).bind fun inner => ?_
    exact (blind_ofResult _).bind fun _ => blind_pure _
  · exact blind_throw _

theorem alongside_carryOut {go} (hgo : ∀ x, Blind S (go x)) {work work'}
    (hwork : ∀ s, Alongside S (work s) (work' s)) (k text attrs children s) :
    Alongside S (carryOut go work k text attrs children s)
      (carryOut go work' k text attrs children s) := by
  have hleaf : ∀ k, Blind S (leafTag k text attrs s) := fun k =>
    blind_leafTag_of attrs text (fun _ => Following.rename s) (Following.setParam s)
      (Following.setDocument s) (Following.deleteParam s)
  have hclosed : ∀ k, Blind S (do if !children.isEmpty then throw .broken
                                  leafTag k text attrs s : Job Builder LaunchScope) := fun k =>
    of_ite ((blind_throw _).bind fun _ => hleaf k) (hleaf k)
  refine Alongside.bind (blind_counts _) fun c => ?_
  cases c with
  | false => exact blind_pure s
  | true =>
    cases k with
    | node =>
      refine Alongside.bind (blind_startNode attrs s) fun x => ?_
      refine Alongside.bind (hwork x.2) fun inner => ?_
      exact (Following.linkNode inner x.1).bind fun _ => blind_pure s
    | group =>
      refine Alongside.bind (blind_openGroup attrs s) fun inner => ?_
      exact Alongside.bind (hwork inner) fun _ => blind_pure s
    | inclusion =>
      refine (blind_openInclusion attrs children s).bind fun x => ?_
      exact (hgo x).bind fun _ => blind_pure s
    | test => exact blind_pure s
    | launch => exact blind_throw _
    | _ => exact hclosed _

end Following

mutual

theorem blind_analyse {S} [Following S] {go} (hgo : ∀ x, Blind S (go x)) :
    ∀ ts s, Blind S (analyse go ts s)
  | [], s => blind_pure s
  | t :: ts, s => (blind_analyseTag hgo t s).bind fun s' => blind_analyse hgo ts s'

theorem blind_analyseTag {S} [Following S] {go : Inclusion} (hgo : ∀ x, Blind S (go x)) :
    ∀ t s, Blind S (analyseTag go t s)
  | .error text, s => (Noticing.note text).bind fun _ => blind_pure s
  | .tag k text attrs children, s =>
    blind_noting (alongside_carryOut hgo (blind_analyse hgo children) k text attrs children s)

end

end Builder

end RosAudit
