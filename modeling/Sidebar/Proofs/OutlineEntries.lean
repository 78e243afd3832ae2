import Mathlib.Algebra.GroupWithZero.Nat
import Sidebar.AnyTree
import Sidebar.Proofs.OutlineLines
import Sidebar.Proofs.Pagination

/-!
# Sidebar.Proofs.OutlineEntries: an outline has one entry for each item

The outline of a group, the counts of its documents and categories, and the list of its documents
are walks of their own over the same items.  All of them are views of the places in the group:

* `Item.Place.line_eq_entry`: the line at a place is indented by the categories around it.
* `Item.countDocsAll_eq_length_docs`, `Item.countDocsAll_eq`, `Item.countCategoriesAll_eq`: the
  counts.
* `Tree.outline_by_entries`: the outline of a tree is a flat list of entries, in document order.
-/

namespace Sidebar

namespace Item

/-! ## The entry of a place -/

/-- The entry of a place in an outline: what its item is called, indented by four blanks for each
category around it and four more. -/
def Place.entry (p : Place) : Text :=
  List.replicate (4 * (p.labels.length + 1)) (CodePoint.ofChar ' ') ++
    match p.item with
    | .doc d => d.label ++ " (" ++ d.id ++ ")"
    | .category label _ => label ++ "/"

/-- The item is a document. -/
def isDoc : Item → Bool
  | .doc _ => true
  | .category .. => false

variable {x : Item} {xs : List Item} {i : Nat} {p : Place}

/-- Steps and labels of a place are equal in number: each step leads into a category. -/
theorem length_steps_of_mem_places (h : p ∈ places x) : p.steps.length = p.labels.length := by
  induction x generalizing p with
  | doc d =>
    obtain rfl := List.mem_singleton.1 h
    rfl
  | category label items ih =>
    rw [places, List.mem_cons, List.mem_map] at h
    rcases h with rfl | ⟨q, hq, rfl⟩
    · rfl
    · obtain ⟨j, y, r, hy, hr, rfl⟩ := mem_placesFrom.1 hq
      exact congrArg (· + 1) (ih y (List.mem_of_getElem? hy) hr)

theorem length_steps_of_mem_placesFrom (h : p ∈ placesFrom i xs) :
    p.steps.length = p.labels.length + 1 := by
  obtain ⟨j, y, q, -, hq, rfl⟩ := mem_placesFrom.1 h
  exact congrArg (· + 1) (length_steps_of_mem_places hq)

/-- **The line of a place** in a group is its entry. -/
theorem Place.line_eq_entry (name : Text) (h : p ∈ placesFrom i xs) :
    line (.ofGroup name ++ p.steps, p.item) = p.entry := by
  have hdepth : NodePath.depth (.ofGroup name ++ p.steps) = p.labels.length + 1 := by
    rw [NodePath.depth, NodePath.ofGroup, List.length_append, List.length_singleton,
      length_steps_of_mem_placesFrom h]
    omega
  rw [line, hdepth, entry, indent]
  congr 1
  cases p.item <;> rfl

theorem Place.entry_ne_nil (p : Place) : p.entry ≠ [] := by
  simp [entry]

/-- The lines of a group are its heading and the entries of its places. -/
theorem lines_eq_entries (g : Group) :
    Group.lines g = (("Sidebar: " : Text) ++ g.1) :: (placesFrom 0 g.2).map Place.entry := by
  rw [Group.lines, Group.title, positionsFrom_eq_of (fun y _ path => positions_eq path y),
    List.map_map]
  refine congrArg (List.cons _) (List.map_congr_left fun p hp => ?_)
  exact Place.line_eq_entry g.1 hp

/-! ## Counting -/

/-- A count over items, each of which counts what is in it, is a count over places. -/
theorem countP_placesFrom_of {q : Item → Bool} {count : Item → Nat}
    (h : ∀ x ∈ xs, count x = (places x).countP fun p => q p.item) (i : Nat) :
    (placesFrom i xs).countP (fun p => q p.item) = (xs.map count).sum := by
  induction xs generalizing i with
  | nil => rfl
  | cons x xs ih =>
    rw [List.forall_mem_cons] at h
    rw [placesFrom, List.countP_append, List.countP_map, ih h.2, List.map_cons, List.sum_cons, h.1]
    rfl

theorem countP_places_category {q : Item → Bool} {count : Item → Nat} {label : Text}
    {items : List Item} (h : ∀ x ∈ items, count x = (places x).countP fun p => q p.item) :
    (places (.category label items)).countP (fun p => q p.item) =
      (items.map count).sum + if q (.category label items) then 1 else 0 := by
  rw [places, List.countP_cons, List.countP_map, ← countP_placesFrom_of h 0]
  rfl

theorem countDocsAll_eq_sum (xs : List Item) : countDocsAll xs = (xs.map countDocs).sum := by
  induction xs with
  | nil => rfl
  | cons x xs ih => rw [countDocsAll, ih, List.map_cons, List.sum_cons]

theorem countCategoriesAll_eq_sum (xs : List Item) :
    countCategoriesAll xs = (xs.map countCategories).sum := by
  induction xs with
  | nil => rfl
  | cons x xs ih => rw [countCategoriesAll, ih, List.map_cons, List.sum_cons]

theorem countDocs_eq (x : Item) : countDocs x = (places x).countP fun p => p.item.isDoc := by
  induction x with
  | doc d => rfl
  | category label items ih =>
    rw [countP_places_category ih, countDocs, countDocsAll_eq_sum]
    rfl

theorem countCategories_eq (x : Item) :
    countCategories x = (places x).countP fun p => !p.item.isDoc := by
  induction x with
  | doc d => rfl
  | category label items ih =>
    rw [countP_places_category (q := fun y => !y.isDoc) ih, countCategories,
      countCategoriesAll_eq_sum, Nat.add_comm]
    rfl

/-- The count of documents is that of the places that hold one. -/
theorem countDocsAll_eq (i : Nat) (xs : List Item) :
    countDocsAll xs = (placesFrom i xs).countP fun p => p.item.isDoc := by
  rw [countP_placesFrom_of (fun x _ => countDocs_eq x), countDocsAll_eq_sum]

/-- The count of categories is that of the places that hold one. -/
theorem countCategoriesAll_eq (i : Nat) (xs : List Item) :
    countCategoriesAll xs = (placesFrom i xs).countP fun p => !p.item.isDoc := by
  rw [countP_placesFrom_of (q := fun y => !y.isDoc) (fun x _ => countCategories_eq x),
    countCategoriesAll_eq_sum]

theorem map_doc_doc? (x : Item) : x.doc?.map .doc = if x.isDoc then some x else none := by
  cases x <;> rfl

/-- The places that hold a document hold the documents of the list, in order. -/
theorem map_item_filter_isDoc (xs : List Item) :
    ((placesFrom 0 xs).filter fun p => p.item.isDoc).map (·.item) = (docs xs).map .doc := by
  rw [docs_eq, List.map_filterMap]
  simp only [map_doc_doc?]
  induction placesFrom 0 xs with
  | nil => rfl
  | cons p ps ih =>
    rw [List.filter_cons, List.filterMap_cons, ← ih]
    split <;> rfl

theorem countDocsAll_eq_length_docs (xs : List Item) : countDocsAll xs = (docs xs).length := by
  have hlength := congrArg List.length (map_item_filter_isDoc xs)
  rw [List.length_map, List.length_map, ← List.countP_eq_length_filter] at hlength
  rw [countDocsAll_eq 0, hlength]

end Item

/-! ## Trees -/

namespace Tree

open Item

/-- **An outline is flat.**  The places in a group are the paths that lead through the group to an
item, in document order.  The outline gives each group its heading and one entry for each of these
places, also for a category that is empty, joined by line feeds, and joins the groups by two; no
heading and no entry is an empty text.  The entries of documents and those of categories are in
number what is counted, and the former are the documents that the group is flattened to, in order.
Whether the tree is validated makes no difference. -/
theorem outline_by_entries (standard : Text) (t : Tree) :
    (∀ g ∈ t.groups,
      (∀ p, p ∈ placesFrom 0 g.2 ↔
        t.reach? (.name g.1 :: p.steps) = some (p.labels, p.item)) ∧
      (placesFrom 0 g.2).Pairwise fun p q => NodePath.Before t.names p.steps q.steps) ∧
    t.outline = List.intercalate "\n\n" (t.groups.map fun g =>
      List.intercalate "\n" ((("Sidebar: " : Text) ++ g.1) :: (placesFrom 0 g.2).map Place.entry)) ∧
    (∀ p : Place, p.entry ≠ []) ∧
    (∀ g ∈ t.groups, List.intercalate "\n" (outlines 1 g.2) = [] ↔ g.2 = []) ∧
    (∀ g ∈ t.groups,
      ((placesFrom 0 g.2).filter fun p => p.item.isDoc).length = countDocsAll g.2 ∧
      ((placesFrom 0 g.2).filter fun p => !p.item.isDoc).length = countCategoriesAll g.2 ∧
      ∃ ds, t.flatten standard (some g.1) = .ok ds ∧
        ((placesFrom 0 g.2).filter fun p => p.item.isDoc).map (·.item) = ds.map .doc) ∧
    ∀ v : ValidatedTree, v.tree = t → (AnyTree.validated v).tree.outline = t.outline := by
  refine ⟨fun g hg => ⟨fun p => mem_placesFrom_iff_reach? hg, ?_⟩, ?_, Place.entry_ne_nil,
    fun g _ => intercalate_outlines_eq_nil_iff 1 g.2, fun g hg => ⟨?_, ?_, Item.docs g.2,
      flatten_of_mem hg standard, map_item_filter_isDoc g.2⟩, ?_⟩
  · exact pairwise_placesFrom t.names (fun x _ => Item.pairwise_places t.names x) 0
  · rw [Tree.outline]
    congr 1
    refine List.map_congr_left fun g _ => ?_
    rw [Group.outline_eq, lines_eq_entries]
  · rw [countDocsAll_eq 0, List.countP_eq_length_filter]
  · rw [countCategoriesAll_eq 0, List.countP_eq_length_filter]
  · rintro v rfl
    rfl

/-- Neither a category without items nor a group without items leaves an empty line. -/
example :
    outline ⟨[("docs", [.category "Part" [], .category "More" [.doc ⟨"intro", "Intro"⟩]]),
      ("blog", [])], by decide⟩ =
    "Sidebar: docs\n    Part/\n    More/\n        Intro (intro)\n\nSidebar: blog" := by
  decide

end Tree

end Sidebar
