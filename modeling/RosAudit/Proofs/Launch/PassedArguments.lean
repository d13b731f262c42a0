import RosAudit.Launch.Tree
import RosAudit.Proofs.Launch.LateSubstitution

/-!
# Arguments that are not the file's own

An `arg` inside an `include` is meant for the included file, and one that is disabled is meant for
nobody : they stand aside (`Element.isAside`). The reader of launch files knows one table of
arguments and records every `arg` there, so what stands aside can still be heard later in the file
(`ofElement_hears_aside`). That is the only way in which it counts : if none of what stands aside
changes an argument that is asked for after it, before it is declared again, the file without it is
read to the same tree, less the tags that were taken out (`ofElement_kept`).

The argument is one of liveness. `needs later e c` lists the arguments that count before an element,
and `asides` what stands aside, each with the arguments that count after it. Reading takes contexts
that are `Alike` for what an element needs to contexts that are alike for what counts later
(`reads_kept`), where only the first of the two readings goes past what stands aside.
-/

namespace RosAudit

open Job Template List

/-! ## What stands aside -/

def Piece.argument? : Piece → Option String
  | command ["arg", n] => some n
  | _ => none

namespace Xml.Element

def isDisabled (e : Element) : Bool :=
  (e.attribute? "if").any (["false", "0"].contains ·) ||
    (e.attribute? "unless").any (["true", "1"].contains ·)

def isAside (parent : String) (e : Element) : Bool :=
  e.name == "arg" && (parent == "include" || e.isDisabled)

mutual

/-- An element without the arguments that stand aside in it. -/
def kept : Element → Element
  | mk name attrs text es => mk name attrs text (keptAll name es)

def keptAll (parent : String) : List Element → List Element
  | [] => []
  | e :: es => if e.isAside parent then keptAll parent es else kept e :: keptAll parent es

end

end Xml.Element

namespace LaunchTree

open Xml (Element)

mutual

def less : Element → LaunchTree → LaunchTree
  | _, error m => error m
  | .mk name _ _ es, tag k text attrs ts => tag k text attrs (lessAll name es ts)

def lessAll (parent : String) : List Element → List LaunchTree → List LaunchTree
  | e :: es, t :: ts =>
    if e.isAside parent then lessAll parent es ts else less e t :: lessAll parent es ts
  | _, _ => []

end

section Adopt

variable {k k' : TagKind} {text : String} {attrs : Table String Subst} {ts : List LaunchTree}

theorem adopt_of_mem (h : k' ∈ k.childKinds) : adopt k (.tag k' text attrs ts) =
    .tag k' text attrs ts :=
  if_pos (contains_iff_mem.mpr h)

theorem adopt_of_not_mem (h : k' ∉ k.childKinds) : adopt k (.tag k' text attrs ts) =
    .error ("invalid child tag: " ++ k'.tagName) :=
  if_neg (mt contains_iff_mem.mp h)

end Adopt

theorem less_adopt (k e t) : less e (adopt k t) = adopt k (less e t) := by
  obtain ⟨name, attrs, text, es⟩ := e
  cases t with
  | error m => rw [adopt, less, adopt]
  | tag c text' attrs' ts =>
    by_cases hc : c ∈ k.childKinds
    · rw [adopt_of_mem hc, less, adopt_of_mem hc]
    · rw [adopt_of_not_mem hc, less, less, adopt_of_not_mem hc]

theorem lessAll_adopt (k : TagKind) (parent : String) : ∀ es ts,
    lessAll parent es (ts.map (adopt k)) = (lessAll parent es ts).map (adopt k)
  | [], _ => by simp [lessAll]
  | _ :: _, [] => by simp [lessAll]
  | e :: es, t :: ts => by
    simp only [map_cons, lessAll]
    split
    · exact lessAll_adopt k parent es ts
    · rw [map_cons, less_adopt, lessAll_adopt k parent es ts]

end LaunchTree

/-! ## Contexts that are alike -/

namespace SubstContext

/-- Two contexts that give the same answers, but for arguments that are not among `ns`. -/
structure Alike (ns : List String) (c c' : SubstContext) : Prop where
  told : ∀ n ∈ ns, c'.told n = c.told n
  environment : c'.environment = c.environment
  packages : c'.packages = c.packages
  folder : c'.folder = c.folder
  nameFor : ∀ n, c'.nameFor n = c.nameFor n

variable {ns ms : List String} {c c' c'' : SubstContext}

theorem Alike.symm (h : Alike ns c c') : Alike ns c' c where
  told n hn := (h.told n hn).symm
  environment := h.environment.symm
  packages := h.packages.symm
  folder := h.folder.symm
  nameFor n := (h.nameFor n).symm

instance (ns : List String) : IsPreorder SubstContext (Alike ns) where
  refl _ := ⟨fun _ _ => rfl, rfl, rfl, rfl, fun _ => rfl⟩
  trans _ _ _ h h' :=
    { told := fun n hn => (h'.told n hn).trans (h.told n hn)
      environment := h'.environment.trans h.environment
      packages := h'.packages.trans h.packages
      folder := h'.folder.trans h.folder
      nameFor := fun n => (h'.nameFor n).trans (h.nameFor n) }

theorem Alike.mono (h : Alike ms c c') (hsub : ns ⊆ ms) : Alike ns c c' :=
  { h with told := fun n hn => h.told n (hsub hn) }

theorem Alike.onward {d d'} (h : Alike ns c c') (hd : Alike ns c d) (hd' : Alike ns c' d') :
    Alike ns d d' :=
  trans_of (Alike ns) (trans_of (Alike ns) hd.symm h) hd'

theorem Noted.alike (h : Noted c c') (ns) : Alike ns c c' := by
  have hn := h.nameFor
  refine ⟨?_, ?_, ?_, ?_, hn⟩
  · intro n _
    cases h <;> rfl
  all_goals cases h <;> rfl

theorem Alike.answer (h : Alike ns c c') {ws} (hws : ∀ n, ws = ["arg", n] → n ∈ ns) :
    ((answer ws).exec c').1 = ((answer ws).exec c).1 :=
  answer_congr (fun n hn => h.told n (hws n hn)) h.environment h.packages h.folder h.nameFor

theorem within_substitute (v : String) (k : Kind) : Within (Alike ns) (substitute v k) := by
  unfold substitute
  split
  · exact within_pure _
  · refine of_ite (within_throw _) ?_
    have hps : Within (Alike ns) ((scan v).mapM answerPiece) :=
      chains_within.mapM fun p _ c => (noted_answerPiece p c).alike ns
    exact hps.bind fun ps => within_ofResult _

theorem mapM_settle_congr {ps : List Piece} (h : ∀ p ∈ ps, c'.settle p = c.settle p) :
    ps.mapM c'.settle = ps.mapM c.settle := by
  induction ps with
  | nil => rfl
  | cons p ps ih =>
    rw [mapM_cons, mapM_cons, h p mem_cons_self,
      ih fun q hq => h q (mem_cons_of_mem p hq)]

theorem blind_substitute {v : String} (hv : (scan v).filterMap Piece.argument? ⊆ ns) (k : Kind) :
    Blind (Alike ns) (substitute v k) := by
  intro c c' h
  refine ⟨?_, h.onward (within_substitute v k c) (within_substitute v k c')⟩
  cases hw : wholeEval? v with
  | some body => simp [substitute, hw]
  | none =>
    cases hn : hasNested v.toList with
    | true => simp [substitute, hw, hn]
    | false =>
      rw [exec_substitute_fst hw hn, exec_substitute_fst hw hn]
      congr 1
      refine mapM_settle_congr fun p hp => answerPiece_congr ?_
      rintro ws rfl
      refine h.symm.answer ?_
      rintro n rfl
      exact hv (mem_filterMap.mpr ⟨_, hp, rfl⟩)

end SubstContext

variable {d c c' c₁ : SubstContext}

namespace LaunchTree

open SubstContext
open Xml (Element)

/-! ## What reading does -/

section Attributes

variable {ns : List String} (rules : List AttributeRule)

def askedBy : List (String × String) → List String
  | [] => []
  | (key, value) :: rest =>
    match rules.find? fun r => r.key == key with
    | none => askedBy rest
    | some _ => (scan value).filterMap Piece.argument? ++ askedBy rest

theorem within_substituteAttributes : ∀ attrs : List (String × String),
    Within (Alike ns) (substituteAttributes rules attrs)
  | [] => within_pure _
  | (key, value) :: rest => by
    have hrest := within_substituteAttributes rest
    unfold substituteAttributes
    split
    · exact hrest
    · exact (within_substitute value _).bind fun v => hrest.bind fun more => within_pure _

theorem blind_substituteAttributes : ∀ {attrs}, askedBy rules attrs ⊆ ns →
    Blind (Alike ns) (substituteAttributes rules attrs)
  | [], _ => blind_pure _
  | (key, value) :: rest, hattrs => by
    rw [askedBy] at hattrs
    unfold substituteAttributes
    cases hfind : rules.find? fun r => r.key == key with
    | none =>
      rw [hfind] at hattrs
      exact blind_substituteAttributes hattrs
    | some r =>
      rw [hfind] at hattrs
      obtain ⟨hvalue, hrest⟩ := append_subset.mp hattrs
      refine (blind_substitute hvalue r.kind).bind fun v => ?_
      exact (blind_substituteAttributes hrest).bind fun more => blind_pure _

def declared? (k : TagKind) (attrs : Table String Subst) : Option String :=
  match k, attrs.get? "name" with
  | .arg, some (.text n) => some n
  | _, _ => none

/-- What is told of an argument once it is declared. -/
def given (attrs : Table String Subst) : Option String :=
  match attrs.get? "value" with
  | some (.text s) => some s
  | _ => none

theorem told_declareArgument (k attrs c n) : ((declareArgument k attrs).exec c).2.told n =
      if declared? k attrs = some n then some (given attrs) else c.told n := by
  unfold declareArgument
  split
  · rename_i m hname
    have hm : declared? .arg attrs = some m := by simp [declared?, hname]
    rw [hm]
    by_cases hn : n = m
    · subst hn
      simp only [exec_modify, SubstContext.told, Table.get?_put_self, given, Option.map_some,
        if_true]
      rcases attrs.get? "value" with _ | _ | _ | _ | _ | _ <;> rfl
    · have hne : some m ≠ some n := by simpa using Ne.symm hn
      simp only [exec_modify, SubstContext.told, Table.get?_put_of_ne _ _ hn, if_neg hne]
  · rename_i k _ _ hnot
    have hnone : declared? k attrs ≠ some n := by
      intro hm
      unfold declared? at hm
      split at hm
      · rename_i hname
        exact hnot _ rfl hname
      · cases hm
    rw [if_neg hnone, exec_pure]

theorem within_declareArgument (k attrs) : Within (Alike []) (declareArgument k attrs) := by
  unfold declareArgument
  split
  · exact fun c => ⟨by simp, rfl, rfl, rfl, fun _ => rfl⟩
  · exact within_pure _

theorem Alike.declareArgument {k attrs}
    (h : Alike (ns.filter fun n => declared? k attrs ≠ some n) c c') :
    Alike ns ((declareArgument k attrs).exec c).2 ((declareArgument k attrs).exec c').2 := by
  have hnil : Alike [] ((LaunchTree.declareArgument k attrs).exec c).2
      ((LaunchTree.declareArgument k attrs).exec c').2 :=
    (h.mono (nil_subset _)).onward (within_declareArgument k attrs c)
      (within_declareArgument k attrs c')
  refine { hnil with told := fun n hn => ?_ }
  rw [told_declareArgument, told_declareArgument]
  by_cases hdecl : declared? k attrs = some n
  · rw [if_pos hdecl, if_pos hdecl]
  · rw [if_neg hdecl, if_neg hdecl]
    exact h.told n (mem_filter.mpr ⟨hn, by simpa using hdecl⟩)

end Attributes

/-- What reading an element can come to : an error for a tag that is not known or whose attributes
are refused, or a tag with its children. -/
inductive Reads (c : SubstContext) : Element → LaunchTree → SubstContext → Prop
  | unknown {name : String} (hk : TagKind.ofName? name = none) (attrs : List (String × String))
    (text : String) (es : List Element) :
    Reads c (.mk name attrs text es) (.error ("unknown tag: " ++ name)) c
  | refused {name : String} {attrs : List (String × String)} {k : TagKind} {d : SubstContext}
    {cause : SubstitutionCause} (hk : TagKind.ofName? name = some k)
    (ha : (substituteAttributes k.schema attrs).exec c = (.error (.substitution cause), d))
    (text : String) (es : List Element) :
    Reads c (.mk name attrs text es) (.error cause.text) d
  | tag {name text : String} {attrs : List (String × String)} {es : List Element} {k : TagKind}
    {as : List (String × Subst)} {ts : List LaunchTree} {d c₁ : SubstContext}
    (hk : TagKind.ofName? name = some k)
    (ha : (substituteAttributes k.schema attrs).exec c = (.ok as, d))
    (hcheck : k.check (Text.trim text) (Table.ofList as) = .ok ())
    (hts : (ofElements es).exec ((declareArgument k (Table.ofList as)).exec d).2 = (.ok ts, c₁)) :
    Reads c (.mk name attrs text es)
      (.tag k (Text.trim text) (Table.ofList as) (ts.map (adopt k))) c₁

theorem exec_declareArgument (k attrs c) :
    (declareArgument k attrs).exec c = (.ok (), ((declareArgument k attrs).exec c).2) := by
  unfold declareArgument
  split <;> rfl

theorem ofElement_ok_iff {e t} : (ofElement e).exec c = (.ok t, c₁) ↔ Reads c e t c₁ := by
  constructor
  · intro h
    obtain ⟨name, attrs, text, es⟩ := e
    unfold ofElement at h
    split at h
    · rename_i hk
      obtain ⟨rfl, rfl⟩ := h
      exact .unknown hk attrs text es
    · rename_i k hk
      obtain ⟨r, d, ha, h⟩ := exec_bind_ok.mp h
      simp only [exec_attempt, Prod.mk.injEq, Except.ok.injEq] at ha
      split at h
      · obtain ⟨rfl, rfl⟩ := h
        exact .refused hk (Prod.ext ha.1 ha.2) text es
      · simp at h
      · obtain ⟨_, d', hcheck, h⟩ := exec_bind_ok.mp h
        obtain ⟨_, d'', hdecl, h⟩ := exec_bind_ok.mp h
        obtain ⟨ts, c₂, hts, h⟩ := exec_bind_ok.mp h
        simp only [exec_ofResult, Prod.mk.injEq] at hcheck
        obtain ⟨rfl, rfl⟩ := h
        obtain ⟨hcheck, rfl⟩ := hcheck
        refine .tag hk (Prod.ext ha.1 ha.2) hcheck ?_
        rwa [hdecl]
  · intro h
    cases h with
    | unknown hk attrs text es => simp [ofElement, hk]
    | refused hk ha text es => simp [ofElement, hk, exec_bind, ha]
    | tag hk ha hcheck hts =>
      rw [ofElement, hk]
      simp only [exec_bind, exec_attempt, ha, exec_ofResult, hcheck]
      rw [exec_declareArgument]
      simp only [hts, exec_pure]

mutual

theorem within_ofElement : ∀ e : Element, Within (Alike []) (ofElement e)
  | .mk name attrs text es => by
    unfold ofElement
    split
    · exact within_pure _
    · refine (within_substituteAttributes _ attrs).attempt.bind fun r => ?_
      split
      · exact within_pure _
      · exact within_throw _
      · refine (within_ofResult _).bind fun _ => (within_declareArgument _ _).bind fun _ => ?_
        exact (within_ofElements es).bind fun ts => within_pure _

theorem within_ofElements : ∀ es : List Element, Within (Alike []) (ofElements es)
  | [] => within_pure _
  | e :: es => by
    exact (within_ofElement e).bind fun t => (within_ofElements es).bind fun ts => within_pure _

end

/-! ## Reading what is kept -/

/-- Where the children of an element are read, if they are : the argument that the element itself
declares, and the context. -/
def entry (name : String) (attrs : List (String × String)) (c : SubstContext) :
    Option (Option String × SubstContext) :=
  match TagKind.ofName? name with
  | none => none
  | some k =>
    match (substituteAttributes k.schema attrs).exec c with
    | (.ok as, d) =>
      some (declared? k (Table.ofList as), ((declareArgument k (Table.ofList as)).exec d).2)
    | (.error _, _) => none

def askedFor (name : String) (attrs : List (String × String)) : List String :=
  match TagKind.ofName? name with
  | none => []
  | some k => askedBy k.schema attrs

mutual

/-- The arguments that count before an element that is read in `c`, where those in `later` count
after it. -/
def needs (later : List String) : Element → SubstContext → List String
  | .mk name attrs _ es, c =>
    askedFor name attrs ++
      match entry name attrs c with
      | none => later
      | some (m, d) => (needsAll later name es d).filter fun n => m ≠ some n

def needsAll (later : List String) (parent : String) : List Element → SubstContext → List String
  | [], _ => later
  | e :: es, c =>
    let rest := needsAll later parent es ((ofElement e).exec c).2
    if e.isAside parent then rest else needs rest e c

end

/-- What stands aside in a reading : the contexts before and after it, and the arguments that count
from there on. -/
structure Aside where
  before : SubstContext
  after : SubstContext
  names : List String

/-- Nothing that counts is heard of what stands aside. -/
def Aside.IsSilent (a : Aside) : Prop := ∀ n ∈ a.names, a.after.told n = a.before.told n

instance (a : Aside) : Decidable a.IsSilent :=
  inferInstanceAs (Decidable (∀ n ∈ a.names, a.after.told n = a.before.told n))

mutual

/-- What stands aside in an element that is read in `c`. -/
def asides (later : List String) : Element → SubstContext → List Aside
  | .mk name attrs _ es, c =>
    match entry name attrs c with
    | none => []
    | some (_, d) => asidesAll later name es d

def asidesAll (later : List String) (parent : String) : List Element → SubstContext → List Aside
  | [], _ => []
  | e :: es, c =>
    let d := ((ofElement e).exec c).2
    let rest := needsAll later parent es d
    (if e.isAside parent then [⟨c, d, rest⟩] else asides rest e c) ++ asidesAll later parent es d

end

theorem ofElements_cons_ok {e es ts} (h : (ofElements (e :: es)).exec c = (.ok ts, c₁)) :
    ∃ t d us, (ofElement e).exec c = (.ok t, d) ∧ (ofElements es).exec d = (.ok us, c₁) ∧
      ts = t :: us := by
  obtain ⟨t, d, ht, h⟩ := exec_bind_ok.mp h
  obtain ⟨us, d', hus, h⟩ := exec_bind_ok.mp h
  obtain ⟨rfl, rfl⟩ := h
  exact ⟨t, d, us, ht, hus, rfl⟩

mutual

theorem reads_kept : ∀ e {later c c' c₁ t}, (∀ a ∈ asides later e c, a.IsSilent) →
    Alike (needs later e c) c c' →
    (ofElement e).exec c = (.ok t, c₁) →
    ∃ c₂, (ofElement e.kept).exec c' = (.ok (less e t), c₂) ∧ Alike later c₁ c₂
  | .mk name attrs text es, later, c, c', c₁, t, hn, hc, h => by
    rw [needs] at hc
    cases ofElement_ok_iff.mp h with
    | unknown hk =>
      have hentry : entry name attrs c = none := by rw [entry, hk]
      rw [hentry] at hc
      exact ⟨c', ofElement_ok_iff.mpr (.unknown hk _ _ _),
        hc.mono (subset_append_right _ _)⟩
    | @refused _ _ k _ _ hk ha =>
      have hentry : entry name attrs c = none := by simp only [entry, hk, ha]
      have hasked : askedFor name attrs = askedBy k.schema attrs := by rw [askedFor, hk]
      rw [hentry, hasked] at hc
      obtain ⟨d', ha', hd⟩ :=
        (blind_substituteAttributes k.schema (subset_append_left _ _)).exec hc ha
      exact ⟨d', ofElement_ok_iff.mpr (.refused hk ha' _ _),
        hd.mono (subset_append_right _ _)⟩
    | @tag _ _ _ _ k as ts d _ hk ha hcheck hts =>
      have hentry : entry name attrs c = some (declared? k (Table.ofList as),
          ((declareArgument k (Table.ofList as)).exec d).2) := by simp only [entry, hk, ha]
      have hasked : askedFor name attrs = askedBy k.schema attrs := by rw [askedFor, hk]
      rw [asides, hentry] at hn
      rw [hentry, hasked] at hc
      obtain ⟨d', ha', hd⟩ :=
        (blind_substituteAttributes k.schema (subset_append_left _ _)).exec hc ha
      have hdecl := Alike.declareArgument (hd.mono (subset_append_right _ _))
      obtain ⟨c₂, hts', hc₂⟩ := reads_keptAll name es hn hdecl hts
      rw [less, lessAll_adopt]
      exact ⟨c₂, ofElement_ok_iff.mpr (.tag hk ha' hcheck hts'), hc₂⟩

theorem reads_keptAll (parent : String) : ∀ es {later c c' c₁ ts},
    (∀ a ∈ asidesAll later parent es c, a.IsSilent) → Alike (needsAll later parent es c) c c' →
    (ofElements es).exec c = (.ok ts, c₁) →
    ∃ c₂, (ofElements (Element.keptAll parent es)).exec c' = (.ok (lessAll parent es ts), c₂) ∧
      Alike later c₁ c₂
  | [], later, c, c', c₁, ts, hn, hc, h => by
    cases h
    exact ⟨c', by simp [Element.keptAll, ofElements, lessAll], hc⟩
  | e :: es, later, c, c', c₁, ts, hn, hc, h => by
    obtain ⟨t, d, us, he, hes, rfl⟩ := ofElements_cons_ok h
    simp only [asidesAll, he, forall_mem_append] at hn
    simp only [needsAll, he] at hc
    rw [Element.keptAll, lessAll]
    by_cases haside : e.isAside parent = true
    · -- only the first of the two readings goes past the element
      rw [if_pos haside] at hn hc ⊢
      rw [if_pos haside]
      have hsilent := hn.1 _ (mem_singleton.mpr rfl)
      have hd : Alike (needsAll later parent es d) c d :=
        { (within_ofElement e).of_exec he with told := hsilent }
      exact reads_keptAll parent es hn.2 (trans_of (Alike _) hd.symm hc) hes
    · rw [if_neg haside] at hn hc ⊢
      rw [if_neg haside]
      obtain ⟨d', he', hd⟩ := reads_kept e hn.1 hc he
      obtain ⟨c₂, hes', hc₂⟩ := reads_keptAll parent es hn.2 hd hes
      refine ⟨c₂, ?_, hc₂⟩
      rw [ofElements, exec_bind_of_ok he', exec_bind_of_ok hes', exec_pure]

end

/-! ## The law and its limit -/

mutual

def tagNames : LaunchTree → List String
  | error _ => ["error"]
  | tag k _ _ ts => k.tagName :: tagNamesAll ts

def tagNamesAll : List LaunchTree → List String
  | [] => []
  | t :: ts => tagNames t ++ tagNamesAll ts

end

/-- An argument for the included file, and a node that asks for one of that name. -/
def overhearing : Element :=
  .mk "launch" [] "" [
    .mk "include" [("file", "a.launch")] "" [.mk "arg" [("name", "x"), ("value", "2")] "" []],
    .mk "node" [("pkg", "$(arg x)"), ("type", "t")] "" []]

/-- What stands aside can be heard : the node is there as long as the included file is given an
argument, and an error without it. The condition of the law is what fails. -/
theorem ofElement_hears_aside :
    ((ofElement overhearing).exec {}).1.toOption.map tagNames =
      some ["launch", "include", "arg", "node"] ∧
    ((ofElement overhearing).exec {}).1.toOption.map (tagNames ∘ less overhearing) =
      some ["launch", "include", "node"] ∧
    ((ofElement overhearing.kept).exec {}).1.toOption.map tagNames =
      some ["launch", "include", "error"] ∧
    ¬ ∀ a ∈ asides [] overhearing {}, a.IsSilent := by
  refine ⟨?_, ?_, ?_, ?_⟩ <;> decide +kernel

/-- What stands aside counts only through the arguments that are asked for after it and before they
are declared again. -/
theorem ofElement_kept {e : Element} {c c₁ : SubstContext} {t : LaunchTree}
    (hsilent : ∀ a ∈ asides [] e c, a.IsSilent) (h : (ofElement e).exec c = (.ok t, c₁)) :
    ∃ c₂, (ofElement e.kept).exec c = (.ok (less e t), c₂) := by
  obtain ⟨c₂, he, -⟩ := reads_kept e hsilent (refl_of (Alike _) c) h
  exact ⟨c₂, he⟩

/-- An included file that is given an argument of its own and one that is handed on, an argument
that is switched off and then declared, and a node that asks for two of the three. -/
def discreet : Element :=
  .mk "launch" [] "" [
    .mk "arg" [("name", "x"), ("value", "p")] "" [],
    .mk "include" [("file", "a.launch")] "" [
      .mk "arg" [("name", "y"), ("value", "2")] "" [],
      .mk "arg" [("name", "x"), ("value", "$(arg x)")] "" []],
    .mk "arg" [("name", "z"), ("value", "3"), ("if", "0")] "" [],
    .mk "arg" [("name", "z"), ("value", "4")] "" [],
    .mk "node" [("pkg", "$(arg x)"), ("type", "t$(arg z)")] "" []]

theorem ofElement_kept_discreet :
    (asides [] discreet {}).length = 3 ∧ (∀ a ∈ asides [] discreet {}, a.IsSilent) ∧
    ∃ t c₁ c₂, (ofElement discreet).exec {} = (.ok t, c₁) ∧
      tagNames t = ["launch", "arg", "include", "arg", "arg", "arg", "arg", "node"] ∧
      (ofElement discreet.kept).exec {} = (.ok (less discreet t), c₂) ∧
      tagNames (less discreet t) = ["launch", "arg", "include", "arg", "node"] := by
  have hsilent : ∀ a ∈ asides [] discreet {}, a.IsSilent := by decide +kernel
  have hnames : ((ofElement discreet).exec {}).1.toOption.map
      (fun t => (tagNames t, tagNames (less discreet t))) =
      some (["launch", "arg", "include", "arg", "arg", "arg", "arg", "node"],
        ["launch", "arg", "include", "arg", "node"]) := by decide +kernel
  rcases h : (ofElement discreet).exec {} with ⟨f | t, c₁⟩ <;> rw [h] at hnames
  · cases hnames
  · obtain ⟨hall, hless⟩ := Prod.mk.inj (Option.some.inj hnames)
    obtain ⟨c₂, hkept⟩ := ofElement_kept hsilent h
    exact ⟨by decide +kernel, hsilent, t, c₁, c₂, rfl, hall, hkept, hless⟩

end LaunchTree

end RosAudit
