import RosAudit.Proofs.Extract.NodeCache

/-!
# Reading data that is out of date

Between two audits packages and files may leave a project, and files may change. A node is read from
data as long as the package and the files that the data names are there (`Sources`), be the data
older than its files or not (`nodes_kept`, `nodes_outdated`). A place that has left is dropped. It
is written as missing, and data with a missing place cannot be read : a call comes back a second
time exactly if its own place and those of its conditions are known. It is the same call exactly if
its conditions are texts, since a condition of another kind is written as a text
(`exec_callOf_again`, `callOf_departed`).
-/

namespace RosAudit

open Job List

instance : IsPreorder Model Model.Recalls where
  refl := .refl
  trans _ _ _ := .trans

/-- The place of a condition, where it is known. -/
def Guard.place? : Guard → Option Location
  | .source _ l => l
  | .settled _ => none

/-- A condition as it is after it was written and read : a text. -/
def Guard.written : Guard → Guard
  | .source v l => .source (.text v.display) l
  | .settled b => .settled b

/-- A condition from the source is a text. -/
def Guard.IsTextual : Guard → Prop
  | .source v _ => ∃ s, v = .text s
  | .settled _ => True

theorem Guard.written_eq_iff {g : Guard} : g.written = g ↔ g.IsTextual := by
  cases g with
  | settled b => exact iff_of_true rfl trivial
  | source v l =>
    constructor
    · exact fun h => ⟨_, (Guard.source.inj h).1.symm⟩
    · rintro ⟨s, rfl⟩
      rfl

/-- The place of a call is known, and so are those of its conditions. -/
def Call.isPlaced (m : Model) (c : Call) : Bool :=
  c.location.isSome && (m.guardList c.guards).all (·.place?.isSome)

namespace Recall

variable {m m' m₁ : Model} {p : Ref .project} {k : CallKind} {v w : Value} {c : Call} {g : Guard}
  {r : Ref .package} {fs : List (Ref .file)}

/-! ## What data names -/

/-- The first package of the project with a name. -/
def IsPackage (m : Model) (p : Ref .project) (name : Value) (r : Ref .package) : Prop :=
  (m.project p).packages.find? (fun r => name.same (.text (m.package r).name)) = some r

/-- The first file of the package with a name. -/
def IsFile (m : Model) (r : Ref .package) (name : Value) (f : Ref .file) : Prop :=
  (m.package r).files.find? (fun f => name.same (.text (m.file f).fullName)) = some f

/-- The package and the files that data names. -/
def Sources (m : Model) (p : Ref .project) (v : Value) (r : Ref .package) (fs : List (Ref .file)) :
    Prop :=
  (∃ x, v.need "package" = .ok x ∧ IsPackage m p x r) ∧
    ∃ x xs, v.need "files" = .ok x ∧ x.each = .ok xs ∧ List.Forall₂ (IsFile m r) xs fs

theorem Sources.unique {r' fs'} (h : Sources m p v r fs) (h' : Sources m p v r' fs') : r' = r := by
  obtain ⟨⟨x, hx, hr⟩, -⟩ := h
  obtain ⟨⟨x', hx', hr'⟩, -⟩ := h'
  cases hx.symm.trans hx'
  exact Option.some.inj (hr'.symm.trans hr)

theorem packageNamed_ok : packageNamed m p v = .ok r ↔ IsPackage m p v r := by
  unfold packageNamed IsPackage
  cases (m.project p).packages.find? fun r => v.same (.text (m.package r).name) with
  | some r' => simp [pure_eq_ok]
  | none => cases v <;> simp [throw, throwThe, MonadExceptOf.throw]

theorem filesNamed_ok {xs} : filesNamed m r xs = .ok fs ↔ List.Forall₂ (IsFile m r) xs fs := by
  unfold filesNamed
  induction xs generalizing fs with
  | nil => simp [pure_eq_ok, eq_comm]
  | cons x xs ih =>
    rw [mapM_cons_ok, forall₂_cons_left_iff]
    refine exists_congr fun f => exists_congr fun fs' => ?_
    rw [ih, eq_comm (b := fs)]
    unfold IsFile
    cases (m.package r).files.find? fun f => x.same (.text (m.file f).fullName) with
    | some f' => simp [pure_eq_ok]
    | none => cases x <;> simp [throw, throwThe, MonadExceptOf.throw]

/-! ## Nodes -/

/-- The name under which a node that is read from data is known. -/
def keyOf (m : Model) (v : Value) (r : Ref .package) : String :=
  (m.makeNode (v.field "name").display r none (v.field "nodelet").asText?).nodeName

theorem field_of_need {key} (h : v.need key = .ok w) : v.field key = w := by
  unfold Value.need at h
  split at h
  · split at h
    · rename_i hx
      cases h
      rw [Value.field, hx]
      rfl
    · cases h
  · cases h

theorem within_callOf : Within Model.Recalls (callOf p k v) := by
  intro m
  unfold callOf
  rw [exec_bind_of_ok (exec_get m)]
  extract_lets read
  cases read with
  | error f => exact .refl m
  | ok x => exact .addGuards m _

theorem exec_nodeOf_ok {o} (h : (nodeOf p v).exec m = (.ok o, m')) :
    m.Recalls m' ∧
      ((∃ r fs n, o = some n ∧ Sources m p v r fs ∧ (m'.node n).nodeName = keyOf m v r) ∨
        o = none ∧ ∀ r fs, ¬ Sources m p v r fs) := by
  unfold nodeOf at h
  rw [exec_bind_of_ok (exec_get m)] at h
  extract_lets sources at h
  have hsources : ∀ r fs, sources = .ok (r, fs) ↔ Sources m p v r fs := by
    intro r fs
    simp only [sources, bind_eq_ok, packageNamed_ok, filesNamed_ok, pure_eq_ok, Except.ok.injEq,
      Prod.mk.injEq]
    constructor
    · rintro ⟨x, hx, r, hr, y, hy, ys, hys, fs, hfs, rfl, rfl⟩
      exact ⟨⟨x, hx, hr⟩, y, ys, hy, hys, hfs⟩
    · rintro ⟨⟨x, hx, hr⟩, y, ys, hy, hys, hfs⟩
      exact ⟨x, hx, r, hr, y, hy, ys, hys, fs, hfs, rfl, rfl⟩
  rcases hs : sources with f | ⟨r, fs⟩ <;> rw [hs] at h
  · have hnone : ∀ r fs, ¬ Sources m p v r fs := fun r fs hrfs => by
      rw [← hsources, hs] at hrfs
      cases hrfs
    cases f <;> try cases h
    obtain ⟨_, -, h⟩ := exec_ofResult_bind_ok.mp h
    cases h
    exact ⟨.refl m, .inr ⟨rfl, hnone⟩⟩
  · obtain ⟨stamp, -, h⟩ := exec_ofResult_bind_ok.mp h
    obtain ⟨_, m₁, htimes, h⟩ := exec_bind_ok.mp h
    have hm₁ : m.Recalls m₁ := Within.of_exec (chains_within.forIn
      (fun f _ _ => (within_ofResult _).bind fun _ => within_pure _) _) htimes
    obtain ⟨name, hname, h⟩ := exec_ofResult_bind_ok.mp h
    obtain ⟨label, -, h⟩ := exec_ofResult_bind_ok.mp h
    obtain ⟨nodelet, hnodelet, h⟩ := exec_ofResult_bind_ok.mp h
    obtain ⟨text, htext, h⟩ := exec_ofResult_bind_ok.mp h
    have hdisplay : name.display = text := by
      cases name <;> cases htext
      rfl
    extract_lets made node at h
    obtain ⟨n, m₂, hcalls, h⟩ := exec_bind_ok.mp h
    cases h
    have hm₂ : m₁.Recalls m₂ :=
      Within.of_exec (chains_within.foldlM (fun n e => (within_ofResult _).bind
      fun _ => (within_ofResult _).bind fun _ => (chains_within.mapM fun _ _ => within_callOf).bind
      fun _ => within_pure _) _ _) hcalls
    -- the calls of a node do not matter to its name
    have hbare : n.bare = node.bare := by
      refine returns_foldlM (Q := fun n : Node => n.bare = node.bare) (fun n e hn => ?_) _ rfl
        _ _ _ hcalls
      refine .after fun _ => .after fun _ => .after fun _ => returns_pure ?_
      rw [Node.bare_setCalls, hn]
    have hnode : (m₂.addNode n).1.node ⟨m₂.nodes.size⟩ = n := getD_push_size _ _ _
    refine ⟨(hm₁.trans hm₂).trans (.addNode m₂ n), .inl ⟨r, fs, ⟨m₂.nodes.size⟩, rfl,
      (hsources r fs).mp hs, ?_⟩⟩
    rw [keyOf, field_of_need hname, field_of_need hnodelet, hdisplay]
    exact (congrArg Node.nodeName hnode).trans (congrArg Node.nodeName hbare :)

theorem sources_of_recalls (h : m.Recalls m₁) : Sources m₁ = Sources m ∧ keyOf m₁ = keyOf m := by
  have hfile : IsFile m₁ = IsFile m := by
    unfold IsFile
    simp only [h.package, h.file]
  unfold Sources IsPackage keyOf Model.makeNode
  simp only [h.project, h.package, hfile, and_self]

theorem get?_of_nodes {data m' known'} (key : String) :
    ∀ {m known},
    (nodes p data).exec (m, known) = (.ok (), (m', known')) → ((known'.get? key).isSome ↔
      (known.get? key).isSome ∨ ∃ v ∈ data, ∃ r fs, Sources m p v r fs ∧ keyOf m v r = key) := by
  induction data with
  | nil =>
    intro m known h
    cases h
    simp
  | cons v data ih =>
    intro m known h
    rcases hv : (nodeOf p v).exec m with ⟨f | o, m₁⟩
    · simp [nodes, exec_bind, hv] at h
    · obtain ⟨hm₁, hv'⟩ := exec_nodeOf_ok hv
      rw [exec_nodes_cons data known hv] at h
      rw [ih h, (sources_of_recalls hm₁).1, (sources_of_recalls hm₁).2, exists_mem_cons_iff]
      rcases hv' with ⟨r, fs, n, rfl, hsources, hkey⟩ | ⟨rfl, hnone⟩
      · have hsame : (∃ r fs, Sources m p v r fs ∧ keyOf m v r = key) ↔ key = keyOf m v r := by
          constructor
          · rintro ⟨r', fs', h', rfl⟩
            rw [hsources.unique h']
          · rintro rfl
            exact ⟨r, fs, hsources, rfl⟩
        rw [Option.elim_some, hkey, hsame, ← or_assoc]
        by_cases hk : key = keyOf m v r
        · simp [hk]
        · simp [hk, Table.get?_put_of_ne]
      · simp [hnone]

/-- A cache has a node under a name exactly if some data of that name has its package and its files
in the project. How old the data is does not matter. -/
theorem nodes_kept {data : List Value} {known : Table String (Ref .node)}
    (h : (nodes p data).exec (m, Table.empty) = (.ok (), (m', known))) (key : String) :
    (known.get? key).isSome ↔ ∃ v ∈ data, ∃ r fs, Sources m p v r fs ∧ keyOf m v r = key := by
  rw [get?_of_nodes key h]
  exact or_iff_right Bool.false_ne_true

/-- Data of a node that is older than the file of the node. -/
def olderDrive : Value :=
  .object [("name", .text "drive"), ("package", .text "base"), ("rosname", .null),
    ("nodelet", .null), ("files", .texts ["src/drive.cpp"]), ("advertise", .list []),
    ("subscribe", .list []), ("service", .list []), ("client", .list []), ("readParam", .list []),
    ("writeParam", .list []), ("timestamp", .int 5)]

theorem nodes_kept_drive : ∃ m' known,
    (nodes ⟨0⟩ [olderDrive]).exec (patrol, Table.empty) = (.ok (), (m', known)) ∧
    ((known.get? "base/drive").isSome ↔
      ∃ v ∈ [olderDrive], ∃ r fs, Sources patrol ⟨0⟩ v r fs ∧ keyOf patrol v r = "base/drive") :=
  ⟨_, _, rfl, nodes_kept rfl "base/drive"⟩

/-- The only file of the node is newer than its data, and the node is kept. -/
theorem nodes_outdated : ∃ m' known,
    (nodes ⟨0⟩ [olderDrive]).exec (patrol, Table.empty) = (.ok (), (m', known)) ∧
    (known.get? "base/drive").isSome ∧ Sources patrol ⟨0⟩ olderDrive ⟨0⟩ [⟨0⟩] ∧
    (olderDrive.field "timestamp").less (patrol.file ⟨0⟩).timestamp = true :=
  ⟨_, _, rfl, rfl, ⟨⟨_, rfl, rfl⟩, _, _, rfl, rfl, .cons rfl .nil⟩, rfl⟩

/-! ## A second reading -/

theorem eq_text_of_same {s} (h : v.same (.text s) = true) : v = .text s := by
  cases v <;> simp [Value.same, Value.sameNumber, Value.magnitude?] at h
  · rw [h]

theorem locationOf_again {l} (h : locationOf m p v = .ok (some l)) :
    locationOf m p (m.locationValue l) = .ok (some l) := by
  unfold locationOf at h
  extract_lets place at h
  rcases hplace : place with f | ⟨r, file⟩ <;> rw [hplace] at h
  · cases f <;> cases h
  obtain ⟨line, -, h⟩ := bind_eq_ok.mp h
  obtain ⟨function, -, h⟩ := bind_eq_ok.mp h
  obtain ⟨cls, -, h⟩ := bind_eq_ok.mp h
  cases h
  obtain ⟨name, -, hplace⟩ := bind_eq_ok.mp hplace
  obtain ⟨r', hr, hplace⟩ := bind_eq_ok.mp hplace
  have hname := eq_text_of_same (find?_some (packageNamed_ok.mp hr) :)
  rw [hname] at hr
  obtain ⟨x, -, hplace⟩ := bind_eq_ok.mp hplace
  split at hplace
  · rename_i hx
    obtain ⟨fs, hfs, hplace⟩ := bind_eq_ok.mp hplace
    cases hplace
    obtain ⟨f, _, hf, hnil, rfl⟩ := forall₂_cons_left_iff.mp (filesNamed_ok.mp hfs)
    obtain rfl := forall₂_nil_left_iff.mp hnil
    obtain rfl : x = _ := eq_text_of_same (find?_some hf :)
    refine locationOf_source hr (fun f' hf' => ?_) _ _ _
    cases hf'
    exact ⟨by simpa [Value.truthy] using hx, hfs⟩
  · cases hplace
    exact locationOf_source hr (by simp) _ _ _

theorem locationOf_missing : locationOf m p .null = .error .wrongKind := rfl

theorem guardOf_again (h : guardOf m p v = .ok g) : ∃ w, m.guardValue g = .ok w ∧
    guardOf m p w = if g.place?.isSome then .ok g.written else .error .wrongKind := by
  obtain ⟨text, -, h⟩ := bind_eq_ok.mp h
  obtain ⟨x, -, h⟩ := bind_eq_ok.mp h
  obtain ⟨l, hl, h⟩ := bind_eq_ok.mp h
  cases h
  refine ⟨_, rfl, ?_⟩
  cases l with
  | none =>
    simp [guardOf, Value.need_object, Model.locationValue?, locationOf_missing, Guard.place?, bind,
      Except.bind]
  | some l =>
    simp [guardOf, Value.need_object, Model.locationValue?, locationOf_again hl, Guard.place?,
      Guard.written, bind, Except.bind, pure, Except.pure]

theorem mapM_guardOf_again {vs : List Value} {gs : List Guard}
    (h : vs.mapM (guardOf m p) = .ok gs) : ∃ ws, gs.mapM m.guardValue = .ok ws ∧
      ws.mapM (guardOf m p) =
        if gs.all (·.place?.isSome) then .ok (gs.map Guard.written) else .error .wrongKind := by
  induction vs generalizing gs with
  | nil =>
    cases h
    exact ⟨[], rfl, rfl⟩
  | cons v vs ih =>
    obtain ⟨g, gs, hg, hgs, rfl⟩ := mapM_cons_ok.mp h
    obtain ⟨w, hw, hg⟩ := guardOf_again hg
    obtain ⟨ws, hws, hgs⟩ := ih hgs
    refine ⟨w :: ws, mapM_cons_ok.mpr ⟨w, ws, hw, hws, rfl⟩, ?_⟩
    rw [mapM_cons, hg, hgs, all_cons]
    cases g.place?.isSome <;> cases gs.all (·.place?.isSome) <;> rfl

/-- A call is made from what is read : its conditions one by one, and its place. -/
theorem exec_callOf_ok (h : (callOf p k v).exec m = (.ok c, m')) : ∃ call depth repeats gs,
    m' = (m.makeCall call depth repeats gs).1 ∧ c = (m.makeCall call depth repeats gs).2 ∧
    (∃ vs : List Value, vs.mapM (guardOf m p) = .ok gs) ∧
      ∃ x, locationOf m p x = .ok c.location := by
  obtain ⟨⟨call, depth, repeats, gs⟩, hread, h⟩ := exec_ofResult_bind_ok.mp h
  cases h
  refine ⟨call, depth, repeats, gs, rfl, rfl, ?_⟩
  cases k <;>
  · simp only [bind_eq_ok, pure_eq_ok] at hread
    obtain ⟨_, -, vs, -, gs, hgs, _, -, _, -, _, -, _, -, _, -, _, -, x, -, l, hl, hread⟩ := hread
    cases hread
    exact ⟨⟨vs, hgs⟩, x, hl⟩

/-- A call that was read from data can be written, and is read again exactly if its own place and
those of its conditions are known. Then all but its conditions is as it was, and they are as they
were exactly if they are texts. Otherwise the second reading stops at the place that is missing. -/
theorem exec_callOf_again (h : (callOf p k v).exec m = (.ok c, m')) :
    ∃ w, m'.callValue k c = .ok w ∧
      (c.isPlaced m' = true → ∃ c' m₂, (callOf p k w).exec m' = (.ok c', m₂) ∧
        (∃ g, c' = c.recalled k g) ∧
        m₂.guardList c'.guards = (m'.guardList c.guards).map Guard.written ∧
        (c.Same m' m₂ k c' ↔ ∀ g ∈ m'.guardList c.guards, g.IsTextual)) ∧
      (c.isPlaced m' = false → (callOf p k w).exec m' = (.error .wrongKind, m')) := by
  obtain ⟨call, depth, repeats, gs, hm', hc, ⟨vs, hvs⟩, x, hx⟩ := exec_callOf_ok h
  have hgs : m'.guardList c.guards = gs := by
    rw [hm', hc]
    exact getD_push_size _ _ _
  -- a call adds to the guards only, so that names mean the same after it
  have hread : guardOf m' p = guardOf m p ∧ locationOf m' p = locationOf m p := by
    rw [hm']
    exact ⟨rfl, rfl⟩
  rw [← hread.1] at hvs
  rw [← hread.2] at hx
  obtain ⟨ws, hws, hagain⟩ := mapM_guardOf_again hvs
  cases hplaced : c.isPlaced m' with
  | true =>
    obtain ⟨hlocation, hplaces⟩ := Bool.and_eq_true_iff.mp hplaced
    obtain ⟨l, hl⟩ := Option.isSome_iff_exists.mp hlocation
    rw [← hgs, hplaces, if_pos rfl] at hagain
    have hmade : c.Made m' := ⟨m, call, depth, repeats, by rw [hgs, hc]⟩
    obtain ⟨w, hw, hexec⟩ := exec_callOf_of_places k hmade hl (locationOf_again (hl ▸ hx))
      (hgs ▸ hws) hagain (length_map _)
    have hwritten : ∀ gs, (m'.addGuards gs).1.guardList ⟨m'.guards.size⟩ = gs :=
      fun gs => getD_push_size _ _ _
    refine ⟨w, hw, fun _ =>
      ⟨_, _, hexec, ⟨_, rfl⟩, hwritten _, fun hsame g hg => ?_, fun htext => ?_⟩,
      fun h => absurd h.symm Bool.false_ne_true⟩
    · have hmap := ((hwritten _).symm.trans hsame.guards).trans (map_id _).symm
      exact Guard.written_eq_iff.mp (map_inj_left.mp hmap g hg)
    · have hmap := map_congr_left fun g hg => Guard.written_eq_iff.mpr (htext g hg)
      rw [hmap, map_id']
      exact Call.same_recalled k c
  | false =>
    have hguards : m'.guardValues (m'.guardList c.guards) = .ok (.list ws) := by
      rw [Model.guardValues, hgs, hws]
      rfl
    refine ⟨_, by rw [Model.callValue, hguards]; rfl, fun h => absurd h Bool.false_ne_true,
      fun _ => ?_⟩
    rw [Call.isPlaced, hgs] at hplaced
    rw [callOf]
    cases hplaces : gs.all (·.place?.isSome) <;> rw [hplaces] at hagain
    · simp [Value.need_object, ok_bind, hagain, Value.each, exec_bind, pure_eq_ok]
      rfl
    · have hl : c.location = none := by simpa [hplaces] using hplaced
      cases k <;>
      · simp [Value.need_object, ok_bind, pure_eq_ok, Model.locationValue?, hl, hagain, Value.each,
          exec_bind, locationOf_missing]
        rfl

/-- A publication under a condition that stands in some package. -/
def publication (package : String) : Value :=
  .object [("name", .text "speed"), ("namespace", .text ""), ("type", .text "Twist"),
    ("queue", .int 10), ("depth", .int 1), ("repeats", .bool true),
    ("conditions", .list [.object [("condition", .text "ready"), ("location", place package)]]),
    ("location", place "base")]
where
  place (package : String) : Value :=
    .object [("package", .text package), ("file", .text "src/drive.cpp"), ("line", .int 12),
      ("function", .null), ("class", .null)]

theorem exec_callOf_again_tools : ∃ c m' w c' m₂,
    (callOf ⟨0⟩ .advertise (publication "tools")).exec patrol = (.ok c, m') ∧
    m'.callValue .advertise c = .ok w ∧ (callOf ⟨0⟩ .advertise w).exec m' = (.ok c', m₂) ∧
    c.Same m' m₂ .advertise c' := by
  have hread : (callOf ⟨0⟩ .advertise (publication "tools")).exec patrol = _ := rfl
  obtain ⟨w, hw, hagain⟩ := exec_callOf_again hread
  obtain ⟨c', m₂, hexec, -, -, hsame⟩ := hagain.1 rfl
  exact ⟨_, _, w, c', m₂, hread, hw, hexec, hsame.mpr (forall_mem_singleton.mpr ⟨_, rfl⟩)⟩

/-- The condition stands in a package that has left the project. The call can be read and written,
but not read again. -/
theorem callOf_departed : ∃ c m' w,
    (callOf ⟨0⟩ .advertise (publication "gone")).exec patrol = (.ok c, m') ∧
    m'.callValue .advertise c = .ok w ∧
    (callOf ⟨0⟩ .advertise w).exec m' = (.error .wrongKind, m') :=
  ⟨_, _, _, rfl, rfl, rfl⟩

end Recall

end RosAudit
