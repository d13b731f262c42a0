import Mathlib.Data.List.Forall2
import RosAudit.Extract.Recall
import RosAudit.Proofs.Job
import RosAudit.Proofs.Model.Quiet
import RosAudit.Proofs.Table

/-!
# Remembered nodes come back as they were

Between two audits the nodes of a project are kept as data (`Model.nodeValue`), and read back by
`Recall.nodes`. Data has no references : a place in the source code is written with the names of its
package and its file, and found again by these names if they tell packages and files apart
(`Model.WellNamed`). A call is made anew from what is read, and making a call settles its depth and
whether it repeats, so it comes back unchanged only because it was made in the same way before
(`Call.Made`).
-/

namespace RosAudit

open Job List

/-! ## What is kept -/

/-- The packages of a project have different names, and so have the files of each package. Every
file has a name. -/
structure Model.WellNamed (m : Model) (p : Ref .project) : Prop where
  packages : ((m.project p).packages.map fun r => (m.package r).name).Nodup
  files : ∀ r ∈ (m.project p).packages, ((m.package r).files.map fun f => (m.file f).fullName).Nodup
  named : ∀ r ∈ (m.project p).packages, ∀ f ∈ (m.package r).files, (m.file f).fullName ≠ ""

/-- A place in a package of a project, or in a file of it. -/
def Location.InProject (m : Model) (p : Ref .project) : Location → Prop
  | .source r file _ _ _ =>
    r ∈ (m.project p).packages ∧ ∀ f, file = some f → f ∈ (m.package r).files
  | .runtime _ => False

/-- A text that stands as a condition in the source code of a project. -/
def Guard.InProject (m : Model) (p : Ref .project) (g : Guard) : Prop :=
  ∃ text l, g = .source (.text text) (some l) ∧ l.InProject m p

def Call.Made (m : Model) (c : Call) : Prop :=
  ∃ (m₀ : Model) (c₀ : Call) (depth : Int) (repeats : Bool),
    (m₀.makeCall c₀ depth repeats (m.guardList c.guards)).2 = c

variable {m m₁ m₂ : Model} {l : Location}

theorem Call.made_iff {c : Call} : c.Made m ↔
    (if c.depth = 0 then ((m.guardList c.guards).length : Int) else c.depth) = c.depth ∧
    (c.repeats && decide (c.depth ≥ 1)) = c.repeats := by
  constructor
  · rintro ⟨m₀, c₀, depth, repeats, hmade⟩
    have hdepth := congrArg Call.depth hmade
    have hrepeats := congrArg Call.repeats hmade
    simp only [Model.makeCall] at hdepth hrepeats
    constructor
    · split
      · split at hdepth <;> omega
      · rfl
    · rw [hdepth] at hrepeats
      rw [← hrepeats]
      simp
  · rintro ⟨hdepth, hrepeats⟩
    refine ⟨{ guards := Array.replicate c.guards.index [] }, c, c.depth, c.repeats, ?_⟩
    simp only [Model.makeCall, Model.addGuards, hdepth, hrepeats, Array.size_replicate]

/-- A call that was found in the source code of a project. -/
structure Call.InProject (m : Model) (p : Ref .project) (c : Call) : Prop where
  made : c.Made m
  location : ∃ l, c.location = some l ∧ l.InProject m p
  guards : ∀ g ∈ m.guardList c.guards, g.InProject m p

/-- A node as it is found in a package of a project : it has no name at runtime yet, its files are
those of its package, and its calls stand in the source code of the project. -/
structure Node.InProject (m : Model) (p : Ref .project) (n : Node) : Prop where
  package : n.package ∈ (m.project p).packages
  packageName : n.packageName = (m.package n.package).name
  rosname : n.rosname = none
  files : ∀ f ∈ n.files, f ∈ (m.package n.package).files
  times : ∀ f ∈ n.files, (m.file f).timestamp.isNumber = true
  calls : ∀ k, ∀ c ∈ n.calls k, c.InProject m p

/-- The call `c'` of the model `m'`, where its guards are listed, is the call `c` of `m`. Only
topics have a queue. -/
structure Call.Same (m m' : Model) (k : CallKind) (c c' : Call) : Prop where
  name : c'.name = c.name
  space : c'.space = c.space
  type : c'.type = c.type
  queue : k = .advertise ∨ k = .subscribe → c'.queue = c.queue
  depth : c'.depth = c.depth
  repeats : c'.repeats = c.repeats
  listed : c'.guards.index < m'.guards.size
  guards : m'.guardList c'.guards = m.guardList c.guards
  location : c'.location = c.location

/-- The node `n'` of the model `m'` is the node `n` of `m`, with the same calls in the same order.
-/
structure Node.Same (m m' : Model) (n n' : Node) : Prop where
  name : n'.name = n.name
  package : n'.package = n.package
  packageName : n'.packageName = n.packageName
  rosname : n'.rosname = n.rosname
  nodelet : n'.nodelet = n.nodelet
  files : n'.files = n.files
  calls : ∀ k, List.Forall₂ (Call.Same m m' k) (n.calls k) (n'.calls k)

/-! ## Records -/

namespace Value

@[simp] theorem same_text (s t : String) : same (.text s) (.text t) = (s == t) := by
  rw [same]

@[simp] theorem asText?_text? (s) : (text? s).asText? = s := by
  cases s <;> rfl

@[simp] theorem truthy_text? (s) : (text? s).truthy = s.any (!·.isEmpty) := by
  cases s <;> rfl

theorem need_object (es k) :
    (object es).need k = match es.find? fun e => e.1 == k with
      | some e => .ok e.2
      | none => .error .noKey := by
  have hfield : (object es).field? k = (es.find? fun e => e.1 == k).map Prod.snd := by
    simp only [object, field?, find?_map, Function.comp_def, isText, Option.map_map]
  simp only [need, hfield]
  cases es.find? fun e => e.1 == k <;> rfl

end Value

theorem find?_of_nodup {α β : Type} [BEq β] [LawfulBEq β] {f : α → β} {a : α} : ∀ {l : List α},
    (l.map f).Nodup → a ∈ l → l.find? (fun x => f a == f x) = some a
  | [], _, ha => nomatch ha
  | x :: l, hl, ha => by
    rw [map_cons, nodup_cons] at hl
    rcases mem_cons.mp ha with rfl | ha
    · simp
    · have hx : f a ≠ f x := fun h => hl.1 (h ▸ mem_map_of_mem ha)
      simpa [hx] using find?_of_nodup hl.2 ha

/-! ## Reading back -/

/-- From `m` to `m'` only nodes and guards were added. -/
structure Model.Recalls (m m' : Model) : Prop where
  project : ∀ r, m'.project r = m.project r
  package : ∀ r, m'.package r = m.package r
  file : ∀ r, m'.file r = m.file r
  size_nodes : m.nodes.size ≤ m'.nodes.size
  node : ∀ r : Ref .node, r.index < m.nodes.size → m'.node r = m.node r
  size_guards : m.guards.size ≤ m'.guards.size
  guards : ∀ g : Ref .guards, g.index < m.guards.size → m'.guardList g = m.guardList g

namespace Recall

variable {m m' : Model} {p : Ref .project} {r : Ref .package}

theorem packageNamed_of_mem (hp : m.WellNamed p)
    (hr : r ∈ (m.project p).packages) : packageNamed m p (.text (m.package r).name) = .ok r := by
  simp only [packageNamed, Value.same_text, find?_of_nodup hp.packages hr]
  rfl

theorem filesNamed_of_mem (hp : m.WellNamed p)
    (hr : r ∈ (m.project p).packages) : ∀ {fs : List (Ref .file)},
    (∀ f ∈ fs, f ∈ (m.package r).files) →
    filesNamed m r (fs.map fun f => .text (m.file f).fullName) = .ok fs
  | [], _ => rfl
  | f :: fs, hfs => by
    have hf := find?_of_nodup (hp.files r hr) (hfs f mem_cons_self)
    have hrest := filesNamed_of_mem hp hr fun f' hf' => hfs f' (mem_cons_of_mem f hf')
    refine mapM_cons_ok.mpr ⟨f, fs, ?_, hrest, rfl⟩
    simp only [Value.same_text, hf]
    rfl

theorem locationOf_source {file} (hr : packageNamed m p (.text (m.package r).name) = .ok r)
    (hfile : ∀ f, file = some f → (m.file f).fullName ≠ "" ∧
      filesNamed m r [.text (m.file f).fullName] = .ok [f])
    (line function cls) :
    locationOf m p (m.locationValue (.source r file line function cls)) =
      .ok (some (.source r file line function cls)) := by
  have hline : ((line.map Value.int).getD .null).asInt? = line := by cases line <;> rfl
  cases file with
  | none =>
    simp [locationOf, Model.locationValue, Value.need_object, hr, hline, ok_bind, pure_eq_ok]
  | some f =>
    obtain ⟨hne, hf⟩ := hfile f rfl
    have hfiles : filesNamed m r [.text? (some (m.file f).fullName)] = .ok [f] := hf
    simp [locationOf, Model.locationValue, Value.need_object, hr, hline, ok_bind, pure_eq_ok,
      hfiles, hne]

theorem locationOf_locationValue (hp : m.WellNamed p) (hl : l.InProject m p) :
    locationOf m p (m.locationValue l) = .ok (some l) := by
  cases l with
  | runtime c => exact hl.elim
  | source r file line function cls =>
    obtain ⟨hr, hfile⟩ := hl
    refine locationOf_source (packageNamed_of_mem hp hr) (fun f hf => ?_) line function cls
    have hmem := hfile f hf
    exact ⟨hp.named r hr f hmem, filesNamed_of_mem hp hr (forall_mem_singleton.mpr hmem)⟩

end Recall

namespace Model.Recalls

variable {m m' m'' : Model} {p : Ref .project}

theorem refl (m : Model) : m.Recalls m :=
  ⟨fun _ => rfl, fun _ => rfl, fun _ => rfl, Nat.le_refl _, fun _ _ => rfl, Nat.le_refl _,
    fun _ _ => rfl⟩

theorem trans (h : m.Recalls m') (h' : m'.Recalls m'') : m.Recalls m'' where
  project r := (h'.project r).trans (h.project r)
  package r := (h'.package r).trans (h.package r)
  file r := (h'.file r).trans (h.file r)
  size_nodes := Nat.le_trans h.size_nodes h'.size_nodes
  node r hr := (h'.node r (Nat.lt_of_lt_of_le hr h.size_nodes)).trans (h.node r hr)
  size_guards := Nat.le_trans h.size_guards h'.size_guards
  guards g hg := (h'.guards g (Nat.lt_of_lt_of_le hg h.size_guards)).trans (h.guards g hg)

theorem wellNamed (h : m.Recalls m') (hp : m.WellNamed p) : m'.WellNamed p := by
  obtain ⟨hpackages, hfiles, hnamed⟩ := hp
  constructor
  · simpa only [h.project, h.package] using hpackages
  · simpa only [h.project, h.package, h.file] using hfiles
  · simpa only [h.project, h.package, h.file] using hnamed

theorem inProject (h : m.Recalls m') (hl : l.InProject m p) : l.InProject m' p := by
  cases l with
  | runtime c => exact hl.elim
  | source r file line function cls =>
    simpa only [Location.InProject, h.project, h.package] using hl

theorem locationValue (h : m.Recalls m') (hl : l.InProject m p) :
    m'.locationValue l = m.locationValue l := by
  cases l with
  | runtime c => exact hl.elim
  | source r file line function cls => simp only [Model.locationValue, h.package, h.file]

theorem addGuards (m : Model) (gs) : m.Recalls (m.addGuards gs).1 :=
  { refl m with
    size_guards := by simp [Model.addGuards]
    guards := fun _ hg => getD_push_of_lt _ _ _ hg }

theorem addNode (m : Model) (n : Node) : m.Recalls (m.addNode n).1 :=
  { refl m with
    size_nodes := by simp [Model.addNode]
    node := fun _ hr => getD_push_of_lt _ _ _ hr }

end Model.Recalls

/-- A call as it is read back, with the guards `g`. Only topics have a queue. -/
def Call.recalled (k : CallKind) (c : Call) (g : Ref .guards) : Call :=
  { c with guards := g, queue := if k = .advertise || k = .subscribe then c.queue else .null }

theorem Call.same_recalled (k : CallKind) (c : Call) :
    Call.Same m (m₁.addGuards (m.guardList c.guards)).1 k c (c.recalled k ⟨m₁.guards.size⟩) where
  name := rfl
  space := rfl
  type := rfl
  queue h := by simp [recalled, h]
  depth := rfl
  repeats := rfl
  listed := by simp [recalled, Model.addGuards]
  guards := getD_push_size _ _ _
  location := rfl

theorem Call.Same.recalls {k} {c : Call} {c'} (h : c.Same m m₁ k c') (hm : m₁.Recalls m₂) :
    c.Same m m₂ k c' :=
  { h with
    listed := Nat.lt_of_lt_of_le h.listed hm.size_guards
    guards := (hm.guards _ h.listed).trans h.guards }

variable {n n' n₂ : Node}

namespace Node

theorem calls_setCalls (n : Node) (k k' : CallKind) (cs : List Call) :
    (n.setCalls k cs).calls k' = if k' = k then cs else n.calls k' := by
  cases k <;> cases k' <;> rfl

def bare (n : Node) : Node :=
  { n with advertise := [], subscribe := [], service := [], client := [], readParam := []
           writeParam := [] }

theorem bare_setCalls (n : Node) (k : CallKind) (cs : List Call) :
    (n.setCalls k cs).bare = n.bare := by
  cases k <;> rfl

theorem Same.nodeName {m m'} (h : n.Same m m' n') : n'.nodeName = n.nodeName := by
  simp only [Node.nodeName, h.packageName, h.nodelet, h.name]

end Node

/-! ## Guards and calls -/

namespace Recall

section ReadingBack

variable {m m₁ : Model} {p : Ref .project} (hp : m.WellNamed p)
include hp

theorem locationOf_recalls (hm : m.Recalls m₁) (hl : l.InProject m p) :
    locationOf m₁ p (m.locationValue l) = .ok (some l) := by
  rw [← hm.locationValue hl]
  exact locationOf_locationValue (hm.wellNamed hp) (hm.inProject hl)

theorem guardOf_guardValue (hm : m.Recalls m₁) {g} (hg : g.InProject m p) :
    ∃ v, m.guardValue g = .ok v ∧ guardOf m₁ p v = .ok g := by
  obtain ⟨text, l, rfl, hl⟩ := hg
  refine ⟨_, rfl, ?_⟩
  simp [guardOf, Value.need_object, Model.locationValue?, locationOf_recalls hp hm hl,
    Value.display, ok_bind, pure_eq_ok]

theorem mapM_guardOf (hm : m.Recalls m₁) : ∀ {gs : List Guard}, (∀ g ∈ gs, g.InProject m p) →
    ∃ vs, gs.mapM m.guardValue = .ok vs ∧ vs.mapM (guardOf m₁ p) = .ok gs
  | [], _ => ⟨[], rfl, rfl⟩
  | g :: gs, hgs => by
    obtain ⟨v, hv, hg⟩ := guardOf_guardValue hp hm (hgs g mem_cons_self)
    obtain ⟨vs, hvs, hrest⟩ := mapM_guardOf hm fun g' hg' => hgs g' (mem_cons_of_mem g hg')
    exact ⟨v :: vs, mapM_cons_ok.mpr ⟨v, vs, hv, hvs, rfl⟩,
      mapM_cons_ok.mpr ⟨g, gs, hg, hrest, rfl⟩⟩

omit hp in
theorem exec_callOf_of_places (k : CallKind) {c : Call} (hc : c.Made m)
    (hl : c.location = some l) (hplace : locationOf m₁ p (m.locationValue l) = .ok (some l))
    {vs : List Value} (hvs : (m.guardList c.guards).mapM m.guardValue = .ok vs) {gs : List Guard}
    (hgs : vs.mapM (guardOf m₁ p) = .ok gs) (hlength : gs.length = (m.guardList c.guards).length) :
    ∃ v, m.callValue k c = .ok v ∧ (callOf p k v).exec m₁ =
      (.ok (c.recalled k ⟨m₁.guards.size⟩), (m₁.addGuards gs).1) := by
  obtain ⟨hdepth, hrepeats⟩ := Call.made_iff.mp hc
  rw [← hlength] at hdepth
  have hguards : m.guardValues (m.guardList c.guards) = .ok (.list vs) := by
    rw [Model.guardValues, hvs]
    rfl
  refine ⟨_, by rw [Model.callValue, hguards]; rfl, ?_⟩
  rw [callOf]
  -- all keys are there, so the data is read without a fault, for topics with their queue
  cases k <;>
  · simp [Value.need_object, ok_bind, pure_eq_ok, Model.locationValue?, hl, hplace, hgs,
      Value.each, Value.asInt?, Value.truthy, Model.makeCall, hdepth, hrepeats, Call.recalled,
      exec_bind]
    rfl

theorem exec_mapM_callOf (k : CallKind) : ∀ {cs m₁}, m.Recalls m₁ →
    (∀ c ∈ cs, c.InProject m p) → ∃ vs cs' m₂, cs.mapM (m.callValue k) = .ok vs ∧
      (vs.mapM (callOf p k)).exec m₁ = (.ok cs', m₂) ∧ m₁.Recalls m₂ ∧
      List.Forall₂ (Call.Same m m₂ k) cs cs'
  | [], m₁, _, _ => ⟨[], [], m₁, rfl, rfl, .refl m₁, .nil⟩
  | c :: cs, m₁, hm, hcs => by
    have hc := hcs c mem_cons_self
    obtain ⟨l, hlocation, hl⟩ := hc.location
    obtain ⟨gs, hgs, hguards⟩ := mapM_guardOf hp hm hc.guards
    obtain ⟨v, hv, hread⟩ :=
      exec_callOf_of_places k hc.made hlocation (locationOf_recalls hp hm hl) hgs hguards rfl
    have hstep := Model.Recalls.addGuards m₁ (m.guardList c.guards)
    obtain ⟨vs, cs', m₂, hvs, hrest, hm₂, hsame⟩ :=
      exec_mapM_callOf k (hm.trans hstep) fun c' hc' => hcs c' (mem_cons_of_mem c hc')
    refine ⟨v :: vs, c.recalled k ⟨m₁.guards.size⟩ :: cs', m₂,
      mapM_cons_ok.mpr ⟨v, vs, hv, hvs, rfl⟩, ?_, hstep.trans hm₂, .cons ?_ hsame⟩
    · rw [mapM_cons, exec_bind_of_ok hread, exec_bind_of_ok hrest]
      rfl
    · exact (Call.same_recalled k c).recalls hm₂

theorem exec_foldlM_callOf {n : Node} (hn : ∀ k, ∀ c ∈ n.calls k, c.InProject m p) {v : Value} :
    ∀ (ks : List (String × CallKind)) (done : List CallKind) {m₁ : Model} (n₁ : Node),
      m.Recalls m₁ →
    (∀ e ∈ ks, ∃ data, m.callValues e.2 (n.calls e.2) = .ok data ∧ v.need e.1 = .ok data) →
    (∀ k ∈ done, List.Forall₂ (Call.Same m m₁ k) (n.calls k) (n₁.calls k)) →
    ∃ n₂ m₂, (ks.foldlM (fun n (key, kind) => do
        let data ← Job.ofResult ((← Job.ofResult (v.need key)).each)
        let calls ← data.mapM (callOf p kind)
        pure (Node.setCalls n kind calls)) n₁).exec m₁ = (.ok n₂, m₂) ∧ m₁.Recalls m₂ ∧
      n₂.bare = n₁.bare ∧
      ∀ k ∈ done ++ ks.map Prod.snd, List.Forall₂ (Call.Same m m₂ k) (n.calls k) (n₂.calls k)
  | [], done, m₁, n₁, _, _, hdone => ⟨n₁, m₁, rfl, .refl m₁, rfl, by simpa using hdone⟩
  | (key, kind) :: ks, done, m₁, n₁, hm, hks, hdone => by
    obtain ⟨data, hdata, hkey⟩ := hks _ mem_cons_self
    obtain ⟨vs, cs', m₂, hvs, hread, hm₂, hcs'⟩ := exec_mapM_callOf hp kind hm (hn kind)
    obtain rfl : .list vs = data := by
      rw [Model.callValues, hvs] at hdata
      exact Except.ok.inj hdata
    have hdone' : ∀ k ∈ done ++ [kind],
        List.Forall₂ (Call.Same m m₂ k) (n.calls k) ((n₁.setCalls kind cs').calls k) := by
      intro k hk
      rw [Node.calls_setCalls]
      split
      · rename_i h
        exact h ▸ hcs'
      · rename_i h
        have hk : k ∈ done := by simpa [h] using hk
        exact (hdone k hk).imp fun _ _ h => h.recalls hm₂
    obtain ⟨n₃, m₃, hrest, hm₃, hbare, hsame⟩ := exec_foldlM_callOf hn ks (done ++ [kind])
      (n₁.setCalls kind cs') (hm.trans hm₂) (fun e he => hks e (mem_cons_of_mem _ he)) hdone'
    refine ⟨n₃, m₃, ?_, hm₂.trans hm₃, hbare.trans (Node.bare_setCalls _ _ _), by simpa using hsame⟩
    refine (exec_bind_of_ok ?_).trans hrest
    simp only [hkey, exec_bind, exec_ofResult, Value.each, pure_eq_ok, hread, exec_pure]

omit hp in
theorem isNumber_timestampOf (hn : ∀ f ∈ n.files, (m.file f).timestamp.isNumber = true) :
    (m.timestampOf n).isNumber = true := by
  have htimes : ∀ t ∈ n.files.map fun f => (m.file f).timestamp, t.isNumber = true := by
    simpa using hn
  unfold Model.timestampOf
  generalize n.files.map (fun f => (m.file f).timestamp) = times at htimes
  cases times with
  | nil => rfl
  | cons t ts =>
    refine foldlRecOn (motive := fun t : Value => t.isNumber = true) ts _
      (htimes t mem_cons_self) ?_
    intro a ha b hb
    split
    · exact ha
    · exact htimes b (mem_cons_of_mem t hb)

omit hp in
theorem exec_checkTimes {stamp} (hstamp : stamp.isNumber = true) : ∀ {fs : List (Ref .file)},
    (∀ f ∈ fs, (m.file f).timestamp.isNumber = true) →
    (forIn fs PUnit.unit fun f _ => do
      Job.ofResult (checkTime (m.file f).timestamp stamp)
      pure (ForInStep.yield PUnit.unit) : Job Model PUnit).exec m₁ = (.ok (), m₁)
  | [], _ => rfl
  | f :: fs, hfs => by
    have hf : checkTime (m.file f).timestamp stamp = .ok () := by
      simp [checkTime, hfs f mem_cons_self, hstamp, pure_eq_ok]
    simpa only [forIn_cons, hf, exec_bind, exec_ofResult, exec_pure] using
      exec_checkTimes hstamp fun f' hf' => hfs f' (mem_cons_of_mem f hf')

def nodeRecord (m : Model) (n : Node) (data : CallKind → Value) : Value :=
  .object [("id", .text n.nodeName), ("name", .text n.name), ("package", .text n.packageName),
    ("rosname", (n.rosname.map Model.nameValue).getD n.label), ("nodelet", .text? n.nodelet),
    ("files", .texts (n.files.map fun f => (m.file f).fullName)),
    ("advertise", data .advertise), ("subscribe", data .subscribe),
    ("service", data .service), ("client", data .client), ("readParam", data .readParam),
    ("writeParam", data .writeParam), ("timestamp", m.timestampOf n)]

omit hp in
theorem nodeValue_eq_ok {data} (h : ∀ k, m.callValues k (n.calls k) = .ok (data k)) :
    m.nodeValue n = .ok (nodeRecord m n data) := by
  simp only [Model.nodeValue, h, ok_bind, pure_eq_ok, nodeRecord]

omit hp in
theorem need_nodeRecord (m : Model) (n : Node) (data : CallKind → Value) :
    ∀ e ∈ callKeys, (nodeRecord m n data).need e.1 = .ok (data e.2) := by
  simp [callKeys, nodeRecord, Value.need_object]

theorem sources_nodeRecord (hm : m.Recalls m₁) (hn : n.InProject m p) (data : CallKind → Value) :
    (do
      let pkg ← packageNamed m₁ p (← (nodeRecord m n data).need "package")
      pure (pkg, ← filesNamed m₁ pkg (← (← (nodeRecord m n data).need "files").each))
      : Result (Ref .package × List (Ref .file))) = .ok (n.package, n.files) := by
  have hpkg : n.package ∈ (m₁.project p).packages := hm.project p ▸ hn.package
  have hname := packageNamed_of_mem (hm.wellNamed hp) hpkg
  rw [hm.package, ← hn.packageName] at hname
  have hfiles := filesNamed_of_mem (hm.wellNamed hp) hpkg (hm.package n.package ▸ hn.files)
  simp only [hm.file] at hfiles
  simp [nodeRecord, Value.need_object, ok_bind, pure_eq_ok, hname, Value.texts, Value.each,
    Function.comp_def, hfiles]

def uncalled (m : Model) (n : Node) : Node :=
  { m.makeNode n.name n.package none n.nodelet with label := n.label, files := n.files }

omit hp in
theorem same_of_bare (hm : m.Recalls m₁) (hn : n.InProject m p)
    (hbare : n₂.bare = (uncalled m₁ n).bare)
    (hcalls : ∀ k, List.Forall₂ (Call.Same m m₂ k) (n.calls k) (n₂.calls k)) : n.Same m m₂ n₂ := by
  have hpart {β : Type} (f : Node → β) (hf : f n₂.bare = f n₂) := hf.symm.trans (congrArg f hbare)
  exact {
    name := hpart Node.name rfl
    package := hpart Node.package rfl
    packageName := (hpart Node.packageName rfl).trans
      ((congrArg Package.name (hm.package _)).trans hn.packageName.symm)
    rosname := (hpart Node.rosname rfl).trans hn.rosname.symm
    nodelet := hpart Node.nodelet rfl
    files := hpart Node.files rfl
    calls := hcalls }

theorem exec_nodeOf (hm : m.Recalls m₁) (hn : n.InProject m p) :
    ∃ v m₂ n₂, m.nodeValue n = .ok v ∧
      (nodeOf p v).exec m₁ = (.ok (some ⟨m₂.nodes.size⟩), (m₂.addNode n₂).1) ∧ m₁.Recalls m₂ ∧
      n.Same m m₂ n₂ := by
  have hcalls : ∀ k, ∃ data, m.callValues k (n.calls k) = .ok data := by
    intro k
    obtain ⟨vs, _, _, hvs, _⟩ := exec_mapM_callOf hp k (.refl m) (hn.calls k)
    exact ⟨.list vs, by rw [Model.callValues, hvs]; rfl⟩
  choose data hdata using hcalls
  have htimes : ∀ f ∈ n.files, (m₁.file f).timestamp.isNumber = true := by
    simpa only [hm.file] using hn.times
  obtain ⟨n₂, m₂, hread, hm₂, hbare, hsame⟩ := exec_foldlM_callOf hp hn.calls callKeys []
    (uncalled m₁ n) hm (fun e he => ⟨_, hdata e.2, need_nodeRecord m n data e he⟩) (by simp)
  have hkeys : ∀ k, k ∈ callKeys.map Prod.snd := by
    intro k
    cases k <;> simp [callKeys]
  refine ⟨_, m₂, n₂, nodeValue_eq_ok hdata, ?_, hm₂,
    same_of_bare hm hn hbare fun k => hsame k (hkeys k)⟩
  have hlabel : (nodeRecord m n data).need "rosname" = .ok n.label := by
    simp [nodeRecord, Value.need_object, hn.rosname]
  rw [nodeOf, exec_bind, exec_get]
  simp only [sources_nodeRecord hp hm hn data, hlabel]
  refine (exec_bind_of_ok (exec_checkTimes (isNumber_timestampOf hn.times) htimes)).trans ?_
  refine (exec_bind_of_ok (exec_ofResult _ _)).trans ?_
  refine (exec_bind_of_ok (exec_ofResult _ _)).trans ?_
  refine (exec_bind_of_ok (exec_ofResult _ _)).trans ?_
  rw [Value.asText?_text?]
  exact (exec_bind_of_ok hread).trans rfl

omit hp in
theorem exec_nodes_cons {v} (vs known) {o} (hread : (nodeOf p v).exec m₁ = (.ok o, m₂)) :
    (nodes p (v :: vs)).exec (m₁, known) =
      (nodes p vs).exec (m₂, o.elim known fun r => known.put (m₂.node r).nodeName r) := by
  cases o <;>
    simp only [nodes, forIn_cons, exec_bind, exec_get, exec_set, exec_ofResult, exec_pure, hread,
      Option.elim]

theorem exec_nodes : ∀ {ns : List Node} {m₁ : Model} (known : Table String (Ref .node)),
    m.Recalls m₁ → (∀ n ∈ ns, n.InProject m p) → (ns.map Node.nodeName).Nodup →
    ∃ data m₂ known', ns.mapM m.nodeValue = .ok data ∧
      (nodes p data).exec (m₁, known) = (.ok (), (m₂, known')) ∧ m₁.Recalls m₂ ∧
      (∀ key ∉ ns.map Node.nodeName, known'.get? key = known.get? key) ∧
      ∀ n ∈ ns, ∃ r, known'.get? n.nodeName = some r ∧ n.Same m m₂ (m₂.node r)
  | [], m₁, known, _, _, _ => ⟨[], m₁, known, rfl, rfl, .refl m₁, fun _ _ => rfl, by simp⟩
  | n :: ns, m₁, known, hm, hns, hnames => by
    obtain ⟨v, m₂, n₂, hv, hread, hm₂, hsame⟩ := exec_nodeOf hp hm (hns n mem_cons_self)
    have hadd := Model.Recalls.addNode m₂ n₂
    have hnode : (m₂.addNode n₂).1.node ⟨m₂.nodes.size⟩ = n₂ := getD_push_size _ _ _
    rw [map_cons, nodup_cons] at hnames
    obtain ⟨data, m₃, known', hdata, hrest, hm₃, hold, hnew⟩ :=
      exec_nodes (known.put n.nodeName ⟨m₂.nodes.size⟩) ((hm.trans hm₂).trans hadd)
        (fun n' hn' => hns n' (mem_cons_of_mem n hn')) hnames.2
    refine ⟨v :: data, m₃, known', mapM_cons_ok.mpr ⟨v, data, hv, hdata, rfl⟩, ?_,
      (hm₂.trans hadd).trans hm₃, ?_, ?_⟩
    · rwa [exec_nodes_cons data known hread, Option.elim_some, hnode, hsame.nodeName]
    · intro key hkey
      rw [map_cons, mem_cons, not_or] at hkey
      rw [hold key hkey.2, Table.get?_put_of_ne _ _ hkey.1]
    · intro n' hn'
      rcases mem_cons.mp hn' with rfl | hn'
      · -- its name is not taken again, so it stays where it was put
        refine ⟨⟨m₂.nodes.size⟩, ?_, ?_⟩
        · rw [hold _ hnames.1, Table.get?_put_self]
        · rw [hm₃.node _ (by simp [Model.addNode]), hnode]
          exact { hsame with
            calls := fun k => (hsame.calls k).imp fun _ _ hc => hc.recalls (hadd.trans hm₃) }
      · exact hnew n' hn'

/-- The nodes of a cache are found again under their names, as they were. -/
theorem exec_nodes_nodeValues {ns : List Node} (hns : ∀ n ∈ ns, n.InProject m p)
    (hnames : (ns.map Node.nodeName).Nodup) :
    ∃ data m' known, ns.mapM m.nodeValue = .ok data ∧
      (nodes p data).exec (m, Table.empty) = (.ok (), (m', known)) ∧ m.Recalls m' ∧
      ∀ n ∈ ns, ∃ r, known.get? n.nodeName = some r ∧ n.Same m m' (m'.node r) := by
  obtain ⟨data, m', known, hdata, hread, hm', _, hnew⟩ :=
    exec_nodes hp Table.empty (.refl m) hns hnames
  exact ⟨data, m', known, hdata, hread, hm', hnew⟩

end ReadingBack

/-! ## Two nodes that are remembered -/

/-- A project of two packages. A call of the node `drive` repeats under two conditions, one of which
stands in the other package. -/
def patrol : Model where
  projects := #[{ name := "patrol", packages := [⟨0⟩, ⟨1⟩] }]
  packages := #[{ name := "base", files := [⟨0⟩, ⟨1⟩] }, { name := "tools", files := [⟨2⟩] }]
  files := #[
    { name := "drive.cpp", directory := "src", package := ⟨0⟩, packageName := "base"
      fullName := "src/drive.cpp", folder := "/base/src", path := "/base/src/drive.cpp"
      language := "cpp", timestamp := .int 7 },
    { name := "scan.cpp", directory := "src", package := ⟨0⟩, packageName := "base"
      fullName := "src/scan.cpp", folder := "/base/src", path := "/base/src/scan.cpp"
      language := "cpp", timestamp := .int 9 },
    { name := "drive.cpp", directory := "src", package := ⟨1⟩, packageName := "tools"
      fullName := "src/drive.cpp", folder := "/tools/src", path := "/tools/src/drive.cpp"
      language := "cpp", timestamp := .int 8 }]
  guards := #[[],
    [.source (.text "ready") (some (.source ⟨0⟩ (some ⟨0⟩) (some 12) (some "main") none)),
    .source (.text "i < n") (some (.source ⟨1⟩ (some ⟨2⟩) (some 3) none (some "Loop")))]]

/-- A node that publishes, subscribes and reads a parameter. -/
def drive : Node :=
  { name := "drive", package := ⟨0⟩, packageName := "base", files := [⟨0⟩, ⟨1⟩]
    advertise := [{ name := some "speed", space := some "", type := some "Twist", queue := .int 10
                    depth := 2, repeats := true, guards := ⟨1⟩
                    location := some (.source ⟨0⟩ (some ⟨0⟩) (some 14) (some "main") none) }]
    subscribe := [{ name := some "scan", type := some "Scan", queue := .null, guards := ⟨0⟩
                    location := some (.source ⟨0⟩ (some ⟨1⟩) none none (some "Scan")) }]
    readParam := [{ name := some "~rate", space := some "/", type := some "int", depth := 3
                    guards := ⟨1⟩, location := some (.source ⟨1⟩ none none none none) }] }

/-- A nodelet that calls a service. -/
def probe : Node :=
  { name := "manager", package := ⟨1⟩, packageName := "tools", nodelet := some "tools/Probe"
    files := [⟨2⟩]
    client := [{ name := some "ask", type := some "Ask", guards := ⟨0⟩
                 location := some (.source ⟨1⟩ (some ⟨2⟩) (some 5) none none) }] }

theorem inProject_drive : drive.InProject patrol ⟨0⟩ where
  package := by decide
  packageName := rfl
  rosname := rfl
  files := by decide
  times := by decide
  calls k c hc := by
    have hguards : ∀ g ∈ patrol.guardList ⟨1⟩, g.InProject patrol ⟨0⟩ := by
      simp [patrol, Model.guardList, Guard.InProject, Location.InProject, Model.project,
        Model.package]
    cases k <;> simp only [drive, Node.calls, mem_singleton, not_mem_nil] at hc
    · subst hc
      exact ⟨Call.made_iff.mpr (by decide), ⟨_, rfl, by decide, by simp; decide⟩, hguards⟩
    · subst hc
      exact ⟨Call.made_iff.mpr (by decide), ⟨_, rfl, by decide, by simp; decide⟩,
        by simp [patrol, Model.guardList]⟩
    · subst hc
      exact ⟨Call.made_iff.mpr (by decide), ⟨_, rfl, by decide, by simp⟩, hguards⟩

theorem inProject_probe : probe.InProject patrol ⟨0⟩ where
  package := by decide
  packageName := rfl
  rosname := rfl
  files := by decide
  times := by decide
  calls k c hc := by
    cases k <;> simp only [probe, Node.calls, mem_singleton, not_mem_nil] at hc
    subst hc
    exact ⟨Call.made_iff.mpr (by decide), ⟨_, rfl, by decide, by simp; decide⟩,
      by simp [patrol, Model.guardList]⟩

theorem exec_nodes_nodeValues_patrol :
    [drive, probe].map Node.nodeName = ["base/drive", "tools/tools/Probe"] ∧
    ∃ data m' known, [drive, probe].mapM patrol.nodeValue = .ok data ∧
      (nodes ⟨0⟩ data).exec (patrol, Table.empty) = (.ok (), (m', known)) ∧ patrol.Recalls m' ∧
      ∀ n ∈ [drive, probe], ∃ r, known.get? n.nodeName = some r ∧ n.Same patrol m' (m'.node r) := by
  have hp : patrol.WellNamed ⟨0⟩ := by
    constructor <;> decide
  have hns : ∀ n ∈ [drive, probe], n.InProject patrol ⟨0⟩ := by
    simp [inProject_drive, inProject_probe]
  exact ⟨by decide, exec_nodes_nodeValues hp hns (by decide)⟩

end Recall

end RosAudit
