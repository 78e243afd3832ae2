import Mathlib.Data.List.Perm.Subperm
import Sidebar.Proofs.Pagination

/-!
# Sidebar.Proofs.GroupOrder: answers do not depend on the order of the groups

Two trees are equal when they have the same groups with the same items; the order in which the
groups are declared is left out of it (`Tree.sameGroups_iff_perm`).  A search for an id goes through
the groups in order and stops at the first place, so it could tell the order; in a validated tree an
id has one place only, and the search ends there whatever the order
(`ValidatedTree.locate_of_sameGroups`).  Main statement: `ValidatedTree.answers_of_sameGroups`.
-/

namespace Sidebar

namespace Tree

variable {t u : Tree}

/-- Trees are equal exactly when the groups of one are those of the other in some order. -/
theorem sameGroups_iff_perm : t.sameGroups u = true ↔ t.groups.Perm u.groups := by
  have hnodup : t.groups.Nodup := List.Nodup.of_map _ t.distinct
  have hall : (t.groups.all fun g => u.items? g.1 == some g.2) = true ↔ t.groups ⊆ u.groups := by
    rw [List.all_eq_true]
    exact forall₂_congr fun g _ => beq_iff_eq.trans items?_eq_some_iff
  rw [sameGroups, Bool.and_eq_true, beq_iff_eq, hall]
  constructor
  · rintro ⟨hlength, hsub⟩
    exact (List.subperm_of_subset hnodup hsub).perm_of_length_le (Nat.le_of_eq hlength.symm)
  · intro hperm
    exact ⟨hperm.length_eq, hperm.subset⟩

theorem items?_of_perm (h : t.groups.Perm u.groups) (name : Text) :
    t.items? name = u.items? name := by
  refine Option.ext fun items => ?_
  rw [items?_eq_some_iff, items?_eq_some_iff, h.mem_iff]

theorem resolveGroup_some_of_perm (h : t.groups.Perm u.groups) (standard name : Text) :
    t.resolveGroup standard (some name) = u.resolveGroup standard (some name) := by
  rw [resolveGroup, resolveGroup, items?_of_perm h]

/-- The first group is only asked for where there is no standard group. -/
theorem resolveGroup_none_of_perm (h : t.groups.Perm u.groups) {standard : Text}
    (hs : standard ∈ t.names) : t.resolveGroup standard none = u.resolveGroup standard none := by
  obtain ⟨⟨name, items⟩, hg, rfl⟩ := List.mem_map.1 hs
  have ht : t.items? name = some items := items?_eq_some_iff.2 hg
  have hu : u.items? name = some items := (items?_of_perm h name).symm.trans ht
  simp only [resolveGroup, ht, hu]

theorem trails_perm (h : t.groups.Perm u.groups) : t.trails.Perm u.trails := h.flatMap_right _

theorem docs_perm (h : t.groups.Perm u.groups) : t.docs.Perm u.docs := by
  rw [← map_doc_trails, ← map_doc_trails]
  exact (trails_perm h).map _

end Tree

namespace ValidatedTree

variable {v w : ValidatedTree}

/-- A document of a validated tree is found at its one place, and nothing is found elsewhere. -/
theorem locate_of_sameGroups (h : v.tree.groups.Perm w.tree.groups) (id : Text) :
    v.tree.locate id = w.tree.locate id := by
  by_cases hid : ∃ d ∈ v.tree.docs, d.id = id
  · obtain ⟨d, hd, rfl⟩ := hid
    obtain ⟨g, hg, i, hi⟩ := Tree.mem_docs_iff_group.1 hd
    obtain ⟨labels, hv⟩ := exists_trail hg hi
    have hw : (g, d, labels) ∈ w.tree.trails := (Tree.trails_perm h).mem_iff.1 hv
    rw [locate_of_mem hv, locate_of_mem hw]
  · have hv : ∀ d ∈ v.tree.docs, d.id ≠ id := fun d hd he => hid ⟨d, hd, he⟩
    have hw : ∀ d ∈ w.tree.docs, d.id ≠ id := fun d hd => hv d ((Tree.docs_perm h).mem_iff.2 hd)
    rw [Tree.locate_of_notMem hv, Tree.locate_of_notMem hw]

/-- **Equal validated trees answer alike.**  Where the groups of two validated trees are the same up
to their order, a question for an id or a named group has the same answer in both, or the same
error; and so has the question for no group in particular, if there is a group of the standard
name. -/
theorem answers_of_sameGroups (standard : Text) (h : v.tree.sameGroups w.tree = true) :
    (∀ id, v.tree.breadcrumb id = w.tree.breadcrumb id) ∧
      (∀ id, v.tree.pagination id = w.tree.pagination id) ∧
      (∀ name, v.tree.resolveGroup standard (some name) =
        w.tree.resolveGroup standard (some name)) ∧
      (∀ name, v.tree.flatten standard (some name) = w.tree.flatten standard (some name)) ∧
      (standard ∈ v.tree.names →
        v.tree.resolveGroup standard none = w.tree.resolveGroup standard none ∧
          v.tree.flatten standard none = w.tree.flatten standard none) := by
  have hperm := Tree.sameGroups_iff_perm.1 h
  refine ⟨fun id => ?_, fun id => ?_, Tree.resolveGroup_some_of_perm hperm standard,
    fun name => ?_, fun hs => ?_⟩
  · rw [Tree.breadcrumb, Tree.breadcrumb, locate_of_sameGroups hperm]
  · rw [Tree.pagination, Tree.pagination, locate_of_sameGroups hperm]
  · rw [Tree.flatten, Tree.flatten, Tree.resolveGroup_some_of_perm hperm]
  · have hnone := Tree.resolveGroup_none_of_perm hperm hs
    rw [Tree.flatten, Tree.flatten, hnone]
    exact ⟨rfl, rfl⟩

/-- Three groups, one of them empty; a category has the name of a group that it is not in. -/
def threeGroups : ValidatedTree where
  tree := ⟨[("docs", [.doc ⟨"intro", "Intro"⟩, .category "blog" [.doc ⟨"guide/setup", "Setup"⟩]]),
    ("blog", [.doc ⟨"news", "News"⟩]), ("later", [])], by decide⟩
  distinctIds := by decide

/-- The three groups in another order. -/
def threeGroupsTurned : ValidatedTree where
  tree := ⟨threeGroups.tree.groups.rotate 2, by decide⟩
  distinctIds := by decide

/-- The answers about three groups, in two orders. -/
theorem answers_of_threeGroups :
    threeGroups.tree.sameGroups threeGroupsTurned.tree = true ∧
      threeGroupsTurned.tree.names = ["later", "docs", "blog"] ∧
      threeGroups.tree.breadcrumb "guide/setup" = threeGroupsTurned.tree.breadcrumb "guide/setup" ∧
      threeGroups.tree.pagination "gone" = threeGroupsTurned.tree.pagination "gone" ∧
      threeGroups.tree.resolveGroup "docs" none =
        threeGroupsTurned.tree.resolveGroup "docs" none := by
  have hsame : threeGroups.tree.sameGroups threeGroupsTurned.tree = true := by decide
  obtain ⟨hcrumb, hpage, -, -, hnone⟩ := answers_of_sameGroups "docs" hsame
  exact ⟨hsame, by decide, hcrumb _, hpage _, (hnone (by decide)).1⟩

/-- Without validation the order of the groups shows: here an id has a place in each of two. -/
example : ∃ t u : Tree, t.sameGroups u = true ∧ t.breadcrumb "intro" ≠ u.breadcrumb "intro" :=
  ⟨⟨[("docs", [.doc ⟨"intro", "Intro"⟩]), ("blog", [.category "News" [.doc ⟨"intro", "Intro"⟩]])],
    by decide⟩,
    ⟨[("blog", [.category "News" [.doc ⟨"intro", "Intro"⟩]]), ("docs", [.doc ⟨"intro", "Intro"⟩])],
    by decide⟩, by decide, by decide⟩

end ValidatedTree

end Sidebar
