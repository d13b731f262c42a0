import Mathlib.Data.List.Flatten
import Mathlib.Data.List.Nodup
import RosAudit.Audit.Brief
import RosAudit.Proofs.Table
import RosAudit.Proofs.Text.Lines

/-!
# Identifiers

A report has findings for every package, every file and every configuration of a project, and finds
them again by the identifier of the object. `lists_make` says what stands in a new report : the
objects in order (`subjects`), and each identifier with the place of the object that it was given to
last.

Identifiers are put together from names, and a folder may hold the sign that parts them. Still no
two are the same (`nodup_ids`) if the names are different where the project keeps them apart
(`Project.Distinct`). So every object has its own findings, and its own place in the database
(`distinct_ids`).
-/

namespace RosAudit

open List

theorem Table.get?_putAll_of_mem {κ α : Type} [BEq κ] [LawfulBEq κ] {es k a}
    (h : (es.map Prod.fst).Nodup) (hmem : (k, a) ∈ es) (t : Table κ α) :
    (t.putAll es).get? k = some a := by
  have hlookup : es.lookup k = some a := (get?_eq_some_iff (t := ⟨es⟩) h).mpr hmem
  rw [get?_putAll h, hlookup]
  rfl

theorem Table.mem_of_get?_putAll {κ α : Type} [BEq κ] [LawfulBEq κ] {es k a} {t : Table κ α}
    (h : (t.putAll es).get? k = some a) : (k, a) ∈ es ∨ t.get? k = some a := by
  induction es generalizing t with
  | nil => exact .inr h
  | cons e es ih =>
    obtain hmem | hput := ih (t := t.put e.1 e.2) h
    · exact .inl (mem_cons_of_mem _ hmem)
    · by_cases hk : k = e.1
      · subst hk
        cases (get?_put_self _ _ _).symm.trans hput
        exact .inl mem_cons_self
      · exact .inr ((get?_put_of_ne _ _ hk).symm.trans hput)

variable {m : Model}

/-- The names of a project are different where it keeps them apart, and only folders have slashes.
-/
structure Project.Distinct (m : Model) (p : Project) : Prop where
  packages : (p.packages.map fun r => (m.package r).name).Nodup
  configurations : (p.configurations.map fun c => (m.configuration c).name).Nodup
  plain : ∀ r ∈ p.packages, '/' ∉ (m.package r).name.toList
  owned : ∀ r ∈ p.packages, ∀ f ∈ (m.package r).files,
    (m.file f).packageName = (m.package r).name ∧ '/' ∉ (m.file f).name.toList
  files : ∀ r ∈ p.packages,
    ((m.package r).files.map fun f => ((m.file f).directory, (m.file f).name)).Nodup

/-! ## Reports -/

namespace Report

/-- The objects that a report has findings for. -/
def subjects (m : Model) (p : Project) : List Entity :=
  (p.packages.flatMap fun r => r.entity :: (m.package r).files.map Ref.entity) ++
    p.configurations.map Ref.entity

def idOf (m : Model) (e : Entity) : String := (m.id? e).getD ""

/-- The report has findings for some objects, in order, and none for others. -/
structure Lists (m : Model) (r : Report) (es : List Entity) : Prop where
  store : r.store.toList = es.map fun e => { scope := some e }
  index : r.index = Table.ofList (es.map (idOf m)).zipIdx

theorem Lists.enlist {r es} (h : Lists m r es) (e : Entity) :
    Lists m (r.enlist m e).1 (es ++ [e]) where
  store := by simp [Report.enlist, h.store]
  index := by
    have hsize : r.store.size = es.length := by simpa using congrArg length h.store
    rw [map_append, zipIdx_append, Table.ofList, Table.putAll_append, ← Table.ofList, ← h.index]
    simp [Report.enlist, Table.putAll, hsize, idOf]

theorem lists_foldl {σ α : Type} (report : σ → Report) (f : σ → α → σ) (g : α → List Entity)
    (hf : ∀ x es a, Lists m (report x) es → Lists m (report (f x a)) (es ++ g a)) (xs : List α)
    {x es} (h : Lists m (report x) es) :
    Lists m (report (xs.foldl f x)) (es ++ xs.flatMap g) := by
  induction xs generalizing x es with
  | nil => simpa using h
  | cons a xs ih =>
    rw [flatMap_cons, ← append_assoc]
    exact ih (hf x es a h)

theorem lists_addPackage {r es} (h : Lists m r es) (p) :
    Lists m (addPackage m r p) (es ++ (p.entity :: (m.package p).files.map Ref.entity)) := by
  have hfiles := lists_foldl Prod.fst (fun x f => ((x.1.enlist m f.entity).1,
    x.2 ++ [(f, (x.1.enlist m f.entity).2)])) (fun f : Ref .file => [f.entity])
    (fun x es f hx => hx.enlist f.entity) (m.package p).files (x := (_, [])) (h.enlist p.entity)
  rw [← map_eq_flatMap, append_assoc] at hfiles
  exact ⟨hfiles.store, hfiles.index⟩

/-- A new report has findings for every subject, and for the whole project after them. -/
theorem lists_make (m project timestamp) :
    ∃ r, Lists m r (subjects m (m.project project)) ∧
      (make m project timestamp).store = r.store.push {} ∧
      (make m project timestamp).index = r.index ∧
        (make m project timestamp).whole = r.store.size := by
  have hpackages := lists_foldl id (addPackage m) _ (fun r es p h => lists_addPackage h p)
    (m.project project).packages (⟨rfl, rfl⟩ : Lists m { project, timestamp } [])
  have hall := lists_foldl id (addConfiguration m) (fun c => [c.entity])
    (fun r es c h => ⟨(h.enlist c.entity).store, (h.enlist c.entity).index⟩)
    (m.project project).configurations hpackages
  rw [nil_append, ← map_eq_flatMap] at hall
  exact ⟨_, hall, rfl, rfl, rfl⟩

end Report

/-! ## Identifiers are different -/

/-- The identifier of a file gives its package, its folder and its name. -/
theorem SourceFile.eq_of_id_eq {f g : SourceFile} (hf : '/' ∉ f.packageName.toList)
    (hg : '/' ∉ g.packageName.toList) (hfn : '/' ∉ f.name.toList) (hgn : '/' ∉ g.name.toList)
    (h : f.id = g.id) :
    f.packageName = g.packageName ∧ (f.directory, f.name) = (g.directory, g.name) := by
  have hid : ∀ f : SourceFile, f.id.toList =
      "file:".toList ++ (f.packageName.toList ++ '/' :: f.directory.toList) ++
        '/' :: f.name.toList := by
    simp [SourceFile.id]
  have hchars := congrArg String.toList h
  rw [hid, hid] at hchars
  obtain ⟨hfront, hname⟩ := Text.append_cons_inj hfn hgn hchars
  -- the package ends at the first slash, so the front is read backwards
  have hreverse := congrArg reverse (append_cancel_left hfront)
  simp only [reverse_append, reverse_cons, append_assoc, singleton_append] at hreverse
  obtain ⟨hdirectory, hpackage⟩ :=
    Text.append_cons_inj (by simpa using hf) (by simpa using hg) hreverse
  rw [String.toList_inj.mp hname, String.toList_inj.mp (reverse_inj.mp hpackage),
    String.toList_inj.mp (reverse_inj.mp hdirectory)]
  exact ⟨rfl, rfl⟩

variable {p : Project}

namespace Project.Distinct

variable (h : p.Distinct m)

include h

/-- No two packages and files have the same identifier. -/
theorem nodup_owned : (p.packages.flatMap fun r =>
    (m.package r).id :: (m.package r).files.map fun f => (m.file f).id).Nodup := by
  have hid :
      ∀ r ∈ p.packages, ∀ f ∈ (m.package r).files, ∀ s ∈ p.packages, ∀ g ∈ (m.package s).files,
      (m.file f).id = (m.file g).id → (m.package r).name = (m.package s).name ∧
        ((m.file f).directory, (m.file f).name) = ((m.file g).directory, (m.file g).name) := by
    intro r hr f hf s hs g hg heq
    obtain ⟨hfr, hfn⟩ := h.owned r hr f hf
    obtain ⟨hgs, hgn⟩ := h.owned s hs g hg
    rw [← hfr, ← hgs]
    exact SourceFile.eq_of_id_eq (hfr ▸ h.plain r hr) (hgs ▸ h.plain s hs) hfn hgn heq
  -- the first letter tells a package from a file
  have hfile : ∀ {r s}, (m.package r).id ∉ (m.package s).files.map fun f => (m.file f).id := by
    intro r s hmem
    obtain ⟨f, -, hf⟩ := mem_map.mp hmem
    have hhead := congrArg (·.toList.head?) hf
    simp [Package.id, SourceFile.id] at hhead
  rw [nodup_flatMap]
  constructor
  · intro r hr
    refine nodup_cons.mpr ⟨hfile, pairwise_map.mpr ((pairwise_map.mp (h.files r hr)).imp_of_mem ?_)⟩
    exact fun hf hg hne heq => hne (hid r hr _ hf r hr _ hg heq).2
  · refine (pairwise_map.mp h.packages).imp_of_mem fun hr hs hne id hmem hmem' => ?_
    rcases mem_cons.mp hmem with rfl | hmem
    · rcases mem_cons.mp hmem' with heq | hmem'
      · exact hne (by simpa [Package.id] using heq)
      · exact hfile hmem'
    · rcases mem_cons.mp hmem' with rfl | hmem'
      · exact hfile hmem
      · obtain ⟨f, hf, rfl⟩ := mem_map.mp hmem
        obtain ⟨g, hg, heq⟩ := mem_map.mp hmem'
        exact hne (hid _ hr f hf _ hs g hg heq.symm).1

/-- No two objects that have findings have the same identifier. -/
theorem nodup_ids : ((Report.subjects m p).map (Report.idOf m)).Nodup := by
  have hinj : Function.Injective ("configuration:" ++ ·) := fun a b hab => by simpa using hab
  have hconfigurations := h.configurations.map hinj
  rw [map_map] at hconfigurations
  rw [Report.subjects, map_append, map_flatMap, map_map]
  simp only [map_cons, map_map]
  refine Nodup.append h.nodup_owned hconfigurations fun id hmem hmem' => ?_
  obtain ⟨c, -, rfl⟩ := mem_map.mp hmem'
  obtain ⟨r, -, hmem⟩ := mem_flatMap.mp hmem
  rcases mem_cons.mp hmem with heq | hmem
  · have hhead := congrArg (·.toList.head?) heq
    simp [Report.idOf, Model.id?, Ref.entity, Package.id] at hhead
  · obtain ⟨f, -, heq⟩ := mem_map.mp hmem
    have hhead := congrArg (·.toList.head?) heq
    simp [Report.idOf, Model.id?, Ref.entity, SourceFile.id] at hhead

end Project.Distinct

/-- Where names are different, a new report has exactly one entry for each package, file and
configuration, and one more for the whole project. Each identifier leads to the findings of its own
object, and the database keeps every package and every file under its own identifier. -/
theorem distinct_ids (d : Database) (project : Ref .project) (timestamp : String)
    (h : (d.model.project project).Distinct d.model) :
    let p := d.model.project project
    let es := Report.subjects d.model p
    let r := Report.make d.model project timestamp
    r.index.entries = (es.map (Report.idOf d.model)).zipIdx ∧ r.index.keys.Nodup ∧
    r.store.toList = es.map (fun e => { scope := some e }) ++ [{ scope := none }] ∧
    r.whole = es.length ∧
    (∀ q ∈ p.packages, (d.register project).catalog.packages.get? (d.model.package q).id = some q ∧
      ∀ f ∈ (d.model.package q).files,
        (d.register project).catalog.files.get? (d.model.file f).id = some f) := by
  intro p es r
  obtain ⟨r₀, hlists, hstore, hindex, hwhole⟩ := Report.lists_make d.model project timestamp
  have hentries : r.index.entries = (es.map (Report.idOf d.model)).zipIdx := by
    rw [hindex, hlists.index]
    refine Table.entries_ofList ?_
    rw [zipIdx_map_fst]
    exact h.nodup_ids
  refine ⟨hentries, ?_, ?_, ?_, fun q hq => ⟨?_, fun f hf => ?_⟩⟩
  · rw [Table.keys, hentries, zipIdx_map_fst]
    exact h.nodup_ids
  · rw [hstore, Array.toList_push, hlists.store]
  · rw [hwhole]
    simpa using congrArg length hlists.store
  · have hkeys : ((p.packages.map fun r => ((d.model.package r).id, r)).map Prod.fst).Nodup := by
      rw [map_map, map_eq_flatMap]
      exact h.nodup_owned.sublist (.flatMap_right _ fun _ _ => (nil_sublist _).cons_cons _)
    exact Table.get?_putAll_of_mem hkeys (mem_map_of_mem hq) _
  · have hkeys : ((p.packages.flatMap fun r => (d.model.package r).files.map fun f =>
        ((d.model.file f).id, f)).map Prod.fst).Nodup := by
      simp only [map_flatMap, map_map]
      exact h.nodup_owned.sublist (.flatMap_right _ fun _ _ => sublist_cons_self _ _)
    exact Table.get?_putAll_of_mem hkeys (mem_flatMap.mpr ⟨q, hq, mem_map_of_mem hf⟩) _

/-- Two packages with a file of the same name each, in a folder and outside. -/
def shed : Model where
  packages := #[{ name := "saw", files := [⟨0⟩, ⟨1⟩] }, { name := "sawdust", files := [⟨2⟩] }]
  files := #[("", ⟨0⟩, "saw"), ("src/bin", ⟨0⟩, "saw"), ("", ⟨1⟩, "sawdust")].map fun x =>
    { name := "main.py", directory := x.1, package := x.2.1, packageName := x.2.2, fullName := ""
      folder := "", path := "", language := "py" }
  projects := #[{ name := "shed", packages := [⟨0⟩, ⟨1⟩] }]

theorem distinct_ids_shed : (shed.project ⟨0⟩).Distinct shed ∧
    (Report.make shed ⟨0⟩ "").index.entries =
      [("package:saw", 0), ("file:saw//main.py", 1), ("file:saw/src/bin/main.py", 2),
        ("package:sawdust", 3), ("file:sawdust//main.py", 4)] := by
  have h : (shed.project ⟨0⟩).Distinct shed :=
    ⟨by decide, by decide, by decide, by decide +kernel, by decide +kernel⟩
  exact ⟨h, (distinct_ids { model := shed } ⟨0⟩ "" h).1.trans (by decide +kernel)⟩

end RosAudit
