import Mathlib.Data.List.Nodup
import Sidebar.Proofs.Places
import Sidebar.Validation

/-!
# Sidebar.Proofs.Trails: where the documents of a tree are

`Tree.trails` lists the documents of a tree over all its groups, each with its group and the labels
that lead to it.  `Tree.locate` is a search in this list (`locate_eq`), and in a validated tree an
id is in it at most once (`ValidatedTree.trail_unique`), so that the search has no choice
(`ValidatedTree.locate_of_mem`).
-/

namespace Sidebar

open Item

/-- The documents of a tree, each with its group and the labels of the categories around it. -/
def Tree.trails (t : Tree) : List (Group × Doc × List Text) :=
  t.groups.flatMap fun g => (trailsAll [] g.2).map fun e => (g, e)

namespace Tree

variable {t : Tree}

theorem mem_trails {g : Group} {d : Doc} {labels : List Text} :
    (g, d, labels) ∈ t.trails ↔ g ∈ t.groups ∧ (d, labels) ∈ trailsAll [] g.2 := by
  rw [trails, List.mem_flatMap]
  constructor
  · rintro ⟨g', hg, h⟩
    obtain ⟨e, he, heq⟩ := List.mem_map.1 h
    obtain ⟨rfl, rfl⟩ := Prod.mk.inj heq
    exact ⟨hg, he⟩
  · rintro ⟨hg, h⟩
    exact ⟨g, hg, List.mem_map.2 ⟨_, h, rfl⟩⟩

theorem map_doc_trails (t : Tree) : t.trails.map (·.2.1) = t.docs := by
  rw [docs_eq, trails, List.map_flatMap]
  refine List.flatMap_congr fun g _ => ?_
  rw [List.map_map]
  rfl

/-- A document is under labels in a group exactly when a path through the group leads to it that
passes these labels. -/
theorem mem_trails_iff_reach? {name : Text} {items : List Item} {d : Doc} {labels : List Text} :
    ((name, items), d, labels) ∈ t.trails ↔ (name, items) ∈ t.groups ∧
      ∃ steps, t.reach? (.name name :: steps) = some (labels, .doc d) := by
  rw [mem_trails, trailsAll_eq]
  refine and_congr_right fun hg => ?_
  rw [List.mem_filterMap]
  constructor
  · rintro ⟨⟨steps, l, x⟩, hp, h⟩
    obtain ⟨e, he, heq⟩ := Option.map_eq_some_iff.1 h
    obtain ⟨rfl, rfl⟩ := Prod.mk.inj heq
    obtain rfl := Item.eq_doc_of_doc? he
    exact ⟨steps, (mem_placesFrom_iff_reach? hg).1 hp⟩
  · rintro ⟨steps, h⟩
    exact ⟨⟨steps, labels, .doc d⟩, (mem_placesFrom_iff_reach? hg).2 h, rfl⟩

/-- Finding a document is a search over all trails. -/
theorem locate_eq (t : Tree) (id : Text) :
    t.locate id =
      match t.trails.find? fun e => e.2.1.id = id with
      | some e => .ok (e.1, e.2.2)
      | none => .error (.doc id) := by
  have h : (t.groups.findSome? fun g =>
      ((trailsAll [] g.2).find? fun trail => trail.1.id = id).map fun trail => (g, trail.2)) =
      (t.trails.find? fun e => e.2.1.id = id).map fun e => (e.1, e.2.2) := by
    rw [trails, List.find?_flatMap, List.map_findSome?]
    congr 1
    funext g
    rw [Function.comp_apply, List.find?_map, Option.map_map]
    rfl
  unfold locate
  simp only [h]
  cases t.trails.find? fun e => e.2.1.id = id <;> rfl

theorem locate_of_notMem {id : Text} (h : ∀ d ∈ t.docs, d.id ≠ id) :
    t.locate id = .error (.doc id) := by
  rw [locate_eq]
  split
  · next e he =>
    have hm : e.2.1 ∈ t.docs := by
      rw [← map_doc_trails]
      exact List.mem_map.2 ⟨e, List.mem_of_find?_eq_some he, rfl⟩
    exact absurd (by simpa using List.find?_some he) (h _ hm)
  · rfl

end Tree

namespace ValidatedTree

variable {v : ValidatedTree}

/-- In a validated tree, trails with the same id are the same. -/
theorem trail_unique {e f : Group × Doc × List Text} (he : e ∈ v.tree.trails)
    (hf : f ∈ v.tree.trails) (h : e.2.1.id = f.2.1.id) : e = f := by
  have hd := v.distinctIds
  rw [← Tree.map_doc_trails, List.map_map] at hd
  exact List.inj_on_of_nodup_map hd he hf h

/-- In a validated tree, a document is found at its one place. -/
theorem locate_of_mem {g : Group} {d : Doc} {labels : List Text}
    (h : (g, d, labels) ∈ v.tree.trails) : v.tree.locate d.id = .ok (g, labels) := by
  rw [Tree.locate_eq]
  split
  · next e he =>
    have hid : e.2.1.id = d.id := by simpa using List.find?_some he
    have hu := trail_unique (List.mem_of_find?_eq_some he) h hid
    rw [hu]
  · next hn =>
    exact absurd (List.find?_eq_none.1 hn _ h) (by simp)

theorem breadcrumb_of_mem {g : Group} {d : Doc} {labels : List Text}
    (h : (g, d, labels) ∈ v.tree.trails) : v.tree.breadcrumb d.id = .ok labels := by
  rw [Tree.breadcrumb, locate_of_mem h]
  rfl

end ValidatedTree

end Sidebar
