import RosAudit.Proofs.Launch.PassedArguments

/-!
# The launch tree mirrors the document

A launch tree has one tag or error for each element of its document, in the place where the element
stands. `Mirrors c e t` says so of an element `e` that is come to in the context `c` : what a tag
says is what its element says (`Describes`), it has as many children as the element, and the child
at each place is a tag exactly if the grammar admits the element there (`Admits`, `Stands`). The
context of a child is the one that the reader has when it has read the element up to the child
(`upTo`), so that the arguments declared before it count and those after it do not.
-/

namespace RosAudit

open Job List

/-! ## Elements without repeated attributes -/

namespace Xml.Element

/-- No element has an attribute twice. -/
inductive Distinct : Element → Prop
  | mk {name : String} {attrs : List (String × String)} {text : String} {es : List Element}
    (hattrs : (attrs.map Prod.fst).Nodup) (hes : ∀ e ∈ es, Distinct e) :
    Distinct (.mk name attrs text es)

/-- An open element that has no attribute twice, and neither have its children so far. -/
structure Frame.Distinct (f : Frame) : Prop where
  attributes : (f.attributes.map Prod.fst).Nodup
  children : ∀ e ∈ f.children, e.Distinct

variable {f : Frame} {e : Element} {attrs : List (String × String)}

theorem Frame.Distinct.close (h : f.Distinct) : f.close.Distinct :=
  .mk h.attributes fun e he => h.children e (mem_reverse.mp he)

theorem Frame.Distinct.append (h : f.Distinct) (cs : List Char) : (f.append cs).Distinct := by
  unfold Frame.append
  split
  · exact ⟨h.attributes, h.children⟩
  · exact h

theorem distinct_openFrame {scope written} (h : openFrame scope written attrs = some f) :
    f.Distinct := by
  unfold openFrame at h
  simp only [Option.bind_eq_bind] at h
  split at h
  · cases h
  · simp only [Option.bind_eq_some_iff] at h
    obtain ⟨scope', -, name, -, as, -, h⟩ := h
    split at h
    · cases h
    · rename_i hnodup
      cases h
      exact ⟨by simpa using hnodup, forall_mem_nil _⟩

theorem distinct_build {root frames es} (hroot : ∀ e, root = some e → e.Distinct)
    (hframes : ∀ f ∈ frames, f.Distinct) (h : build root frames es = some e) : e.Distinct := by
  fun_induction build root frames es with
  | case1 => exact hroot e h
  | case4 root n attrs es _ ih =>
    obtain ⟨f, hf, h⟩ := Option.bind_eq_some_iff.mp h
    exact ih f hroot (forall_mem_singleton.mpr (distinct_openFrame hf)) h
  | case5 root cs es _ ih | case8 root es _ ih => exact ih hroot hframes h
  | case10 root f fs n attrs es ih =>
    obtain ⟨g, hg, h⟩ := Option.bind_eq_some_iff.mp h
    exact ih g hroot (forall_mem_cons.mpr ⟨distinct_openFrame hg, hframes⟩) h
  | case11 root f n es _ ih =>
    have hclose := (hframes f mem_cons_self).close
    exact ih (fun _ he => by cases he; exact hclose) (forall_mem_nil _) h
  | case12 root f n es _ g gs ih =>
    obtain ⟨hf, hg, hgs⟩ := (forall_mem_cons.trans (and_congr_right fun _ =>
      forall_mem_cons)).mp hframes
    exact ih hroot (forall_mem_cons.mpr
      ⟨⟨hg.attributes, forall_mem_cons.mpr ⟨hf.close, hg.children⟩⟩, hgs⟩) h
  | case14 root f fs cs es ih | case15 root f fs cs es ih =>
    obtain ⟨hf, hfs⟩ := forall_mem_cons.mp hframes
    exact ih hroot (forall_mem_cons.mpr ⟨hf.append cs, hfs⟩) h
  | case2 | case3 | case6 | case7 | case9 | case13 | case16 => cases h

theorem distinct_parse {document} (h : parse document = some e) : e.Distinct := by
  obtain ⟨es, -, h⟩ := Option.bind_eq_some_iff.mp h
  exact distinct_build (fun _ h => by cases h) (forall_mem_nil _) h

end Xml.Element

/-! ## What a tag says -/

/-- The kind of a value that has no open commands. -/
def Subst.kind? : Subst → Option Kind
  | text _ => some .text
  | bool _ => some .bool
  | int _ => some .int
  | float _ => some .float
  | pending _ => none

variable {c : SubstContext} {k : TagKind}

namespace LaunchTree

open SubstContext
open Xml (Element)

/-- The kind of a tag; an error has none. -/
def kind? : LaunchTree → Option TagKind
  | error _ => none
  | tag k _ _ _ => some k

def Refuses (c : SubstContext) (k : TagKind) (a : String × String) : Prop :=
  ∃ r ∈ k.schema, r.key = a.1 ∧
    ∃ cause, ((substitute a.2 r.kind).exec c).1 = .error (.substitution cause)

/-- The tag that an element names may stand inside the tag `k`, and none of its attributes is
refused in `c`. -/
def Admits (c : SubstContext) (k : TagKind) (e : Element) : Prop :=
  ∃ k' ∈ k.childKinds, k'.tagName = e.name ∧ ∀ a ∈ e.attributes, ¬ Refuses c k' a

def Stands (c : SubstContext) (k : TagKind) (e : Element) (t : LaunchTree) : Prop :=
  Admits c k e ∧ t.kind?.map TagKind.tagName = some e.name ∨ ¬ Admits c k e ∧ t.kind? = none

/-- The tag `k` with the attributes `attrs` says what the element says that is read in `c`. -/
structure Describes (c : SubstContext) (e : Element) (k : TagKind) (attrs : Table String Subst) :
    Prop where
  name : k.tagName = e.name
  keys : attrs.keys = (e.attributes.map Prod.fst).filter ((k.schema.map (·.key)).contains ·)
  value : ∀ a ∈ e.attributes, ∀ r ∈ k.schema, r.key = a.1 →
    ∃ v, attrs.get? a.1 = some v ∧ ((substitute a.2 r.kind).exec c).1 = .ok v
  kind : ∀ r ∈ k.schema, ∀ v, attrs.get? r.key = some v → v.isPending = true ∨ v.kind? = some r.kind
  openKeys : openKeys attrs = attrs.keys.filter fun key => (attrs.get? key).any Subst.isPending
  wantsFalse : ∀ v, attrs.get? "unless" = some v → Condition.of attrs = ⟨false, v⟩
  wantsTrue : attrs.get? "unless" = none →
    Condition.of attrs = ⟨true, (attrs.get? "if").getD (.bool true)⟩

/-- The context of the reader when it comes to the child at place `i` of an element : it has read
the element up to there. -/
def upTo (c : SubstContext) : Element → Nat → SubstContext
  | .mk name attrs text es, i => ((ofElement (.mk name attrs text (es.take i))).exec c).2

/-- The tree mirrors an element that is come to in the context `c`. -/
inductive Mirrors : SubstContext → Element → LaunchTree → Prop
  | error (c : SubstContext) (e : Element) (message : String) : Mirrors c e (.error message)
  | tag {c : SubstContext} {e : Element} {k : TagKind} {text : String} {attrs : Table String Subst}
    {ts : List LaunchTree} (hattrs : Describes c e k attrs) (hlen : ts.length = e.children.length)
    (hstands : ∀ i e' t', e.children[i]? = some e' → ts[i]? = some t' →
      Stands (upTo c e i) k e' t')
    (hchildren : ∀ i e' t', e.children[i]? = some e' → ts[i]? = some t' →
      Mirrors (upTo c e i) e' t') :
    Mirrors c e (.tag k text attrs ts)

/-! ## Reading attributes -/

/-- The attributes that some rules know, with the kind of their values. -/
def known (rules : List AttributeRule) (attrs : List (String × String)) :
    List (String × String × Kind) :=
  attrs.filterMap fun a => (rules.find? fun r => r.key == a.1).map fun r => (a.1, a.2, r.kind)

theorem substituteAttributes_eq (rules) : ∀ attrs : List (String × String),
    substituteAttributes rules attrs =
      (known rules attrs).mapM fun x => do return (x.1, ← substitute x.2.1 x.2.2)
  | [] => by simp [substituteAttributes, known]
  | (key, value) :: rest => by
    have ih := substituteAttributes_eq rules rest
    unfold substituteAttributes
    cases h : rules.find? fun r => r.key == key with
    | none => simpa [known, h] using ih
    | some r => simp [known, h, ih]

/-- No attribute changes how another is read, so each can be read in the context of its element. -/
theorem exec_substituteAttributes_fst (rules attrs c) :
    ((substituteAttributes rules attrs).exec c).1 = (known rules attrs).mapM fun x =>
      (((substitute x.2.1 x.2.2).exec c).1).map fun v => (x.1, v) := by
  rw [substituteAttributes_eq, exec_mapM_fst]
  · simp only [exec_bind_pure]
  · intro x y d
    simp only [exec_bind_pure]
    rw [← (blind_substitute (List.Subset.refl _) x.2.2 _ _ (within_substitute y.2.1 y.2.2 d)).1]

section Rules

variable {k : TagKind} {c : SubstContext} {attrs : List (String × String)}
  {as : List (String × Subst)}

theorem kind_of_rule (k : TagKind) : ∀ r ∈ k.schema,
    (k.schema.find? fun x => x.key == r.key).map (·.kind) = some r.kind := by
  cases k <;> decide

theorem kind_unique {r r'} (hr : r ∈ k.schema) (hr' : r' ∈ k.schema) (h : r'.key = r.key) :
    r'.kind = r.kind := by
  have hfind := kind_of_rule k r' hr'
  rw [h, kind_of_rule k r hr] at hfind
  exact (Option.some.inj hfind).symm

theorem mem_known {x} : x ∈ known k.schema attrs ↔
    ∃ r ∈ k.schema, r.key = x.1 ∧ r.kind = x.2.2 ∧ (x.1, x.2.1) ∈ attrs := by
  obtain ⟨key, value, kind⟩ := x
  simp only [known, mem_filterMap, Option.map_eq_some_iff, Prod.mk.injEq]
  constructor
  · rintro ⟨⟨key', value'⟩, ha, r, hr, rfl, rfl, rfl⟩
    exact ⟨r, List.mem_of_find?_eq_some hr, by simpa using find?_some hr, rfl, ha⟩
  · rintro ⟨r, hr, rfl, rfl, ha⟩
    obtain ⟨r', hr', hkind⟩ := Option.map_eq_some_iff.mp (kind_of_rule k r hr)
    exact ⟨_, ha, r', hr', rfl, rfl, hkind⟩

theorem map_fst_known (rules) : (known rules attrs).map Prod.fst =
    (attrs.map Prod.fst).filter ((rules.map (·.key)).contains ·) := by
  induction attrs with
  | nil => rfl
  | cons a attrs ih =>
    rw [known, filterMap_cons, map_cons, filter_cons, ← ih]
    have hcontains :
        (rules.map (·.key)).contains a.1 = (rules.find? fun r => r.key == a.1).isSome := by
      rw [Bool.eq_iff_iff]
      simp
    rw [hcontains]
    cases rules.find? fun r => r.key == a.1 <;> rfl

section

variable (ha : ((substituteAttributes k.schema attrs).exec c).1 = .ok as)
include ha

/-- The attributes of a tag are those that its rules know, each read in the context of the
element. -/
theorem mem_of_substituteAttributes {key v} :
    (key, v) ∈ as ↔ ∃ r ∈ k.schema, r.key = key ∧
      ∃ value, (key, value) ∈ attrs ∧ ((substitute value r.kind).exec c).1 = .ok v := by
  rw [exec_substituteAttributes_fst] at ha
  rw [mem_mapM_ok ha]
  constructor
  · rintro ⟨x, hx, hv⟩
    obtain ⟨r, hr, hkey, hkind, hmem⟩ := mem_known.mp hx
    obtain ⟨w, hw, heq⟩ := map_eq_ok.mp hv
    obtain ⟨rfl, rfl⟩ := Prod.mk.inj heq
    exact ⟨r, hr, hkey, x.2.1, hmem, by rw [hkind, hw]⟩
  · rintro ⟨r, hr, hkey, value, hmem, hv⟩
    exact ⟨(key, value, r.kind), mem_known.mpr ⟨r, hr, hkey, rfl, hmem⟩, by rw [hv]; rfl⟩

theorem exists_of_substituteAttributes {r a} (hr : r ∈ k.schema) (hkey : r.key = a.1)
    (hmem : a ∈ attrs) : ∃ v, ((substitute a.2 r.kind).exec c).1 = .ok v := by
  rw [exec_substituteAttributes_fst] at ha
  have hknown : (a.1, a.2, r.kind) ∈ known k.schema attrs :=
    mem_known.mpr ⟨r, hr, hkey, rfl, hmem⟩
  obtain ⟨y, hy⟩ := forall_of_mapM_ok ha _ hknown
  obtain ⟨v, hv, -⟩ := map_eq_ok.mp hy
  exact ⟨v, hv⟩

theorem map_fst_of_substituteAttributes :
    as.map Prod.fst = (attrs.map Prod.fst).filter ((k.schema.map (·.key)).contains ·) := by
  rw [exec_substituteAttributes_fst] at ha
  rw [← map_fst_known]
  refine map_of_mapM_ok (fun x y hy => ?_) ha
  obtain ⟨w, -, rfl⟩ := map_eq_ok.mp hy
  rfl

end

end Rules

theorem kind?_convert {k : Kind} {s} {v : Subst} (h : k.convert s = .ok v) : v.kind? = some k := by
  unfold Kind.convert at h
  repeat' split at h
  all_goals
    cases h
    try rfl

theorem kind_of_substitute {value : String} {k} {v : Subst}
    (h : ((substitute value k).exec c).1 = .ok v) : v.isPending = true ∨ v.kind? = some k := by
  cases hw : Template.wholeEval? value with
  | some body =>
    simp only [substitute, hw] at h
    cases h
    exact .inl rfl
  | none =>
    cases hn : Template.hasNested value.toList with
    | true => simp [substitute, hw, hn] at h
    | false =>
      rw [exec_substitute_fst hw hn] at h
      obtain ⟨rs, -, hclose⟩ := bind_eq_ok.mp h
      unfold Kind.close at hclose
      split at hclose
      · exact .inr (kind?_convert hclose)
      · cases hclose
        exact .inl rfl

theorem openKeys_eq_filter {attrs} (hkeys : attrs.keys.Nodup) :
    openKeys attrs = attrs.keys.filter fun key => (attrs.get? key).any Subst.isPending := by
  have hget : ∀ e ∈ attrs.entries, attrs.get? e.1 = some e.2 := fun e he =>
    (Table.get?_eq_some_iff hkeys).mpr he
  rw [Table.keys, filter_map, ← filterMap_eq_filter, map_filterMap]
  refine filterMap_congr fun e he => ?_
  rw [Option.guard, Function.comp_apply, hget e he, Option.any_some]
  cases e.2.isPending <;> rfl

theorem tagName_of_ofName? {n} (h : TagKind.ofName? n = some k) : k.tagName = n := by
  simpa using find?_some h

theorem describes_of_ok {name text attrs es as} (hk : TagKind.ofName? name = some k)
    (hattrs : (attrs.map Prod.fst).Nodup)
    (ha : ((substituteAttributes k.schema attrs).exec c).1 = .ok as) :
    Describes c (.mk name attrs text es) k (Table.ofList as) := by
  have hfst := map_fst_of_substituteAttributes ha
  have hnodup : (as.map Prod.fst).Nodup := hfst ▸ hattrs.filter _
  have hentries : (Table.ofList as).entries = as := Table.entries_ofList hnodup
  have hkeys : (Table.ofList as).keys = as.map Prod.fst := by rw [Table.keys, hentries]
  have hget {key : String} {v : Subst} : (Table.ofList as).get? key = some v ↔ (key, v) ∈ as := by
    rw [Table.get?_eq_some_iff (hkeys ▸ hnodup), hentries]
  refine ⟨tagName_of_ofName? hk, hkeys.trans hfst, fun a hmem r hr hkey => ?_, fun r hr v hv => ?_,
    openKeys_eq_filter (hkeys ▸ hnodup), fun v hv => ?_, fun hv => ?_⟩
  · obtain ⟨v, hv⟩ := exists_of_substituteAttributes ha hr hkey hmem
    exact ⟨v, hget.mpr ((mem_of_substituteAttributes ha).mpr ⟨r, hr, hkey, a.2, hmem, hv⟩), hv⟩
  · obtain ⟨r', hr', hkey, value, -, hv⟩ := (mem_of_substituteAttributes ha).mp (hget.mp hv)
    rw [← kind_unique hr hr' hkey]
    exact kind_of_substitute hv
  · rw [Condition.of, hv]
  · rw [Condition.of, hv]

/-! ## An element in its place -/

theorem ofName?_tagName (k : TagKind) : TagKind.ofName? k.tagName = some k := by
  cases k <;> decide

theorem not_refuses_of_ok {attrs as}
    (ha : ((substituteAttributes k.schema attrs).exec c).1 = .ok as) :
    ∀ a ∈ attrs, ¬ Refuses c k a := by
  rintro a hmem ⟨r, hr, hkey, cause, hcause⟩
  obtain ⟨v, hv⟩ := exists_of_substituteAttributes ha hr hkey hmem
  rw [hv] at hcause
  cases hcause

theorem exists_refuses_of_error {attrs cause}
    (ha : ((substituteAttributes k.schema attrs).exec c).1 = .error (.substitution cause)) :
    ∃ a ∈ attrs, Refuses c k a := by
  rw [exec_substituteAttributes_fst] at ha
  obtain ⟨x, hx, herr⟩ := exists_of_mapM_error ha
  obtain ⟨r, hr, hkey, hkind, hmem⟩ := mem_known.mp hx
  exact ⟨_, hmem, r, hr, hkey, cause, by rw [hkind]; exact map_eq_error.mp herr⟩

variable {c c₁ : SubstContext} {e : Element} {t : LaunchTree}

theorem stands_adopt (k : TagKind) (h : (ofElement e).exec c = (.ok t, c₁)) :
    Stands c k e (adopt k t) := by
  have hunique {k' k'' : TagKind} {n : String} (hk : TagKind.ofName? n = some k')
      (hname : k''.tagName = n) : k'' = k' := by
    rw [← hname, ofName?_tagName] at hk
    exact Option.some.inj hk
  cases ofElement_ok_iff.mp h with
  | unknown hk =>
    refine .inr ⟨?_, rfl⟩
    rintro ⟨k', -, rfl, -⟩
    exact absurd ((ofName?_tagName k').symm.trans hk) (Option.some_ne_none k')
  | refused hk ha =>
    refine .inr ⟨?_, rfl⟩
    rintro ⟨k', -, hname, hall⟩
    obtain rfl := hunique hk hname
    obtain ⟨a, hmem, hrefuses⟩ := exists_refuses_of_error (congrArg Prod.fst ha)
    exact hall a hmem hrefuses
  | @tag _ _ _ _ k' _ _ _ _ hk ha =>
    by_cases hchild : k' ∈ k.childKinds
    · have hname := tagName_of_ofName? hk
      rw [adopt_of_mem hchild]
      exact .inl ⟨⟨k', hchild, hname, not_refuses_of_ok (congrArg Prod.fst ha)⟩,
        congrArg some hname⟩
    · rw [adopt_of_not_mem hchild]
      refine .inr ⟨?_, rfl⟩
      rintro ⟨k'', hmem, hname, -⟩
      obtain rfl := hunique hk hname
      exact hchild hmem

theorem Mirrors.adopt (h : Mirrors c e t) (k : TagKind) : Mirrors c e (adopt k t) := by
  cases t with
  | error m => exact h
  | tag k' text attrs ts =>
    by_cases hchild : k' ∈ k.childKinds
    · rwa [adopt_of_mem hchild]
    · rw [adopt_of_not_mem hchild]
      exact .error c e _

/-! ## The mirror -/

theorem ofElements_at : ∀ {es ts c c₁},
    (ofElements es).exec c = (.ok ts, c₁) → ts.length = es.length ∧
      ∀ i e t, es[i]? = some e → ts[i]? = some t → ∃ us d d',
        (ofElements (es.take i)).exec c = (.ok us, d) ∧ (ofElement e).exec d = (.ok t, d')
  | [], ts, c, c₁, h => by
    cases h
    exact ⟨rfl, by simp⟩
  | e :: es, ts, c, c₁, h => by
    obtain ⟨t, d, us, he, hes, rfl⟩ := ofElements_cons_ok h
    obtain ⟨hlen, hat⟩ := ofElements_at hes
    refine ⟨congrArg (· + 1) hlen, fun i e' t' he' ht' => ?_⟩
    cases i with
    | zero =>
      cases he'
      cases ht'
      exact ⟨[], c, d, by simp [ofElements], he⟩
    | succ i =>
      obtain ⟨vs, d₁, d₂, htake, hread⟩ := hat i e' t' he' ht'
      refine ⟨t :: vs, d₁, d₂, ?_, hread⟩
      rw [take_succ_cons, ofElements, exec_bind_of_ok he, exec_bind_of_ok htake, exec_pure]

theorem mirrors_ofElement (he : e.Distinct) : ∀ {c c₁ t},
    (ofElement e).exec c = (.ok t, c₁) → Mirrors c e t := by
  induction he with
  | @mk name attrs text es hattrs _ ih =>
    intro c c₁ t h
    cases ofElement_ok_iff.mp h with
    | unknown | refused => exact .error c _ _
    | @tag _ _ _ _ k as ts d _ hk ha hcheck hts =>
      obtain ⟨hlen, hat⟩ := ofElements_at hts
      -- the reader comes to a child by reading the same element, cut off before the child
      have hplace : ∀ i e' t', es[i]? = some e' → (ts.map (adopt k))[i]? = some t' →
          ∃ u d', (ofElement e').exec (upTo c (.mk name attrs text es) i) = (.ok u, d') ∧
            t' = adopt k u := by
        intro i e' t' he' ht'
        obtain ⟨u, hu, rfl⟩ := Option.map_eq_some_iff.mp (List.getElem?_map ▸ ht')
        obtain ⟨us, d₁, d₂, htake, hread⟩ := hat i e' u he' hu
        have hcut := ofElement_ok_iff.mpr (Reads.tag hk ha hcheck htake)
        refine ⟨u, d₂, ?_, rfl⟩
        rwa [upTo, hcut]
      refine .tag (describes_of_ok hk hattrs (congrArg Prod.fst ha)) ?_ ?_ ?_
      · rwa [length_map]
      · intro i e' t' he' ht'
        obtain ⟨u, d', hread, rfl⟩ := hplace i e' t' he' ht'
        exact stands_adopt k hread
      · intro i e' t' he' ht'
        obtain ⟨u, d', hread, rfl⟩ := hplace i e' t' he' ht'
        exact (ih e' (mem_of_getElem? he') hread).adopt k

theorem kind?_root (hname : e.name = "launch") (h : (ofElement e).exec c = (.ok t, c₁)) :
    t.kind? = some .launch := by
  obtain ⟨name, attrs, text, es⟩ := e
  obtain rfl : name = TagKind.launch.tagName := hname
  have hlaunch := ofName?_tagName .launch
  cases ofElement_ok_iff.mp h with
  | unknown hk => exact absurd (hlaunch.symm.trans hk) (Option.some_ne_none _)
  | refused hk ha =>
    obtain rfl := Option.some.inj (hlaunch.symm.trans hk)
    obtain ⟨a, -, r, hr, -⟩ := exists_refuses_of_error (congrArg Prod.fst ha)
    exact absurd hr (not_mem_nil)
  | tag hk => exact hk.symm.trans hlaunch

/-- The tree of every launch document that is accepted mirrors the document. -/
theorem ofDocument_mirrors {document : String} {c c₁ : SubstContext} {t : LaunchTree}
    (h : (ofDocument document).exec c = (.ok t, c₁)) :
    ∃ root, Element.parse document = some root ∧ root.name = "launch" ∧ t.kind? = some .launch ∧
      Mirrors c root t := by
  unfold ofDocument at h
  split at h
  · simp at h
  · rename_i root hparse
    split at h
    · rename_i hname
      have hname : root.name = "launch" := by simpa using hname
      refine ⟨root, hparse, hname, kind?_root hname h,
        mirrors_ofElement (Element.distinct_parse hparse) h⟩
    · simp at h

/-- A document with an unknown tag, a refused attribute and a tag in the wrong place, in a group and
beside it. -/
def crooked : String :=
  "<launch><arg name='x' value='p'/><group ns='$(env NS)' unless='0'>" ++
    "<node pkg='$(arg x)' type='t' if='$(arg y)'/><bogus/><launch/></group>" ++
    "<remap from='a' to='b'><arg name='z'/></remap><node pkg='$(arg x)' type='t' dir='d'/></launch>"

theorem ofDocument_mirrors_crooked : ∃ t c₁ root, (ofDocument crooked).exec {} = (.ok t, c₁) ∧
    tagNames t = ["launch", "arg", "group", "error", "error", "error", "remap", "error", "node"] ∧
    Element.parse crooked = some root ∧ Mirrors {} root t := by
  have hnames : ((ofDocument crooked).exec {}).1.toOption.map tagNames =
      some ["launch", "arg", "group", "error", "error", "error", "remap", "error", "node"] := by
    decide +kernel
  rcases h : (ofDocument crooked).exec {} with ⟨f | t, c₁⟩ <;> rw [h] at hnames
  · cases hnames
  · obtain ⟨root, hparse, -, -, hmirrors⟩ := ofDocument_mirrors h
    exact ⟨t, c₁, root, rfl, Option.some.inj hnames, hparse, hmirrors⟩

end LaunchTree

end RosAudit
