import Sidebar.Build
import Sidebar.Proofs.Calls
import Sidebar.Proofs.Pagination
import Sidebar.Proofs.Written

/-!
# Sidebar.Proofs.Navigation: questions about a built tree, answered from its configuration

What is asked of a tree can be read off the configuration it was built from: a group holds the
documents that are written in it, in the order in which they are written, and the breadcrumb of a
document are the labels of the categories that are written around it.  Main statement:
`build_answers_as_written`.
-/

namespace Sidebar

open Raw Item

theorem tree_of_validate_eq_ok {registry : Option Registry} {t : Tree} {v : ValidatedTree}
    (h : (t.validate registry).outcome = .ok v) : v.tree = t := by
  unfold Tree.validate at h
  dsimp only at h
  split at h
  · cases h
  · rw [← Except.ok.inj h]
  · cases h

/-- What is built was read and then checked. -/
theorem build_eq_ok {registry : Option Registry} {h : Heap} {config : Value} {v : ValidatedTree}
    (hb : (build registry h config).outcome = .ok v) : Tree.ofRaw h config = .ok v.tree := by
  unfold build at hb
  split at hb
  · cases hb
  · next t ht =>
    cases hc : (t.validate registry).outcome with
    | error e =>
      dsimp only at hb
      rw [hc] at hb
      cases hb
    | ok w =>
      dsimp only at hb
      rw [hc] at hb
      obtain rfl := Except.ok.inj hb
      rw [ht, tree_of_validate_eq_ok hc]

namespace Tree

variable {t : Tree}

/-- The documents of a list of items, each with the steps that lead to it and the labels of the
categories on the way. -/
def docPlaces (items : List Item) : List (List PathStep × List Text × Doc) :=
  (placesFrom 0 items).filterMap fun p => p.item.doc?.map fun d => (p.steps, p.labels, d)

theorem map_docPlaces (items : List Item) : (docPlaces items).map (·.2.2) = Item.docs items := by
  rw [Item.docs_eq, docPlaces, List.map_filterMap]
  simp [Function.comp_def]

theorem mem_docPlaces {name : Text} {items : List Item} (hg : (name, items) ∈ t.groups)
    {steps : List PathStep} {labels : List Text} {d : Doc} :
    (steps, labels, d) ∈ docPlaces items ↔
      t.reach? (.name name :: steps) = some (labels, .doc d) := by
  rw [docPlaces, List.mem_filterMap]
  constructor
  · rintro ⟨p, hp, he⟩
    obtain ⟨e, hd, he⟩ := Option.map_eq_some_iff.1 he
    obtain ⟨rfl, hl⟩ := Prod.mk.inj he
    obtain ⟨rfl, rfl⟩ := Prod.mk.inj hl
    rw [← eq_doc_of_doc? hd]
    exact (mem_placesFrom_iff_reach? hg).1 hp
  · intro h
    exact ⟨⟨steps, labels, .doc d⟩, (mem_placesFrom_iff_reach? hg).2 h, rfl⟩

theorem pairwise_docPlaces (names : List Text) (items : List Item) :
    (docPlaces items).Pairwise fun e f => NodePath.Before names e.1 f.1 := by
  rw [docPlaces, List.pairwise_filterMap]
  refine (pairwise_placesFrom names (fun x _ => Item.pairwise_places names x) 0).imp ?_
  intro p q hpq e he f hf
  obtain ⟨d, -, rfl⟩ := Option.map_eq_some_iff.1 he
  obtain ⟨d', -, rfl⟩ := Option.map_eq_some_iff.1 hf
  exact hpq

end Tree

/-- **Navigation follows the configuration.**  The groups of a built tree are those of its
configuration, in its order.  The documents of a group are those that the configuration writes in
the group, each once and in the order of writing, with the id and the label that are written or
made from the id; and the breadcrumb of each is made of the labels of the categories written around
it.  No id is written in two places. -/
theorem build_answers_as_written {registry : Option Registry} {h : Heap} {config : Value}
    {v : ValidatedTree} (hb : (build registry h config).outcome = .ok v) (standard : Text) :
    (h.groups? config).map Keyed.keys = some (v.tree.names.map .text) ∧
      (∀ name ∈ v.tree.names, ∃ ds : List (List PathStep × List Text × Doc),
        v.tree.flatten standard (some name) = .ok (ds.map (·.2.2)) ∧
        (∀ steps labels d, (steps, labels, d) ∈ ds ↔
          h.docAt? config (.name name :: steps) = some (labels, d)) ∧
        (ds.Pairwise fun e f => NodePath.Before v.tree.names e.1 f.1) ∧
        ∀ e ∈ ds, v.tree.breadcrumb e.2.2.id = .ok e.2.1) ∧
      ∀ p q labels labels' d e, h.docAt? config p = some (labels, d) →
        h.docAt? config q = some (labels', e) → d.id = e.id → p = q := by
  have ht := build_eq_ok hb
  refine ⟨Tree.names_of_ofRaw ht, fun name hn => ?_, fun p q labels labels' d e hp hq hid => ?_⟩
  · obtain ⟨⟨_, items⟩, hg, rfl⟩ := List.mem_map.1 hn
    refine ⟨Tree.docPlaces items, ?_, fun steps labels d => ?_, Tree.pairwise_docPlaces _ items, ?_⟩
    · rw [Tree.map_docPlaces]
      exact Tree.flatten_of_mem hg standard
    · rw [Tree.mem_docPlaces hg, Tree.reach?_doc_iff ht]
    · rintro ⟨steps, labels, d⟩ he
      have hr := (Tree.mem_docPlaces hg).1 he
      exact v.breadcrumb_of_mem (Tree.mem_trails_iff_reach?.2 ⟨hg, steps, hr⟩)
  · have hd := v.tree.distinctIds_of_nodup v.distinctIds
    refine hd p q d e ?_ ?_ hid
    · rw [Tree.item?, (Tree.reach?_doc_iff ht).2 hp]
      rfl
    · rw [Tree.item?, (Tree.reach?_doc_iff ht).2 hq]
      rfl

/-- A configuration with a bare id, a document without a label inside a category, and an empty
group. -/
def guidesHeap : Heap := ⟨#[
  .mapping [(.text "docs", .ref 1), (.text "more", .ref 4)],
  .list [.text "intro", .ref 2],
  .mapping [(.text "type", .text "category"), (.text "label", .text "Guides"),
    (.text "items", .ref 3)],
  .tuple [.ref 5],
  .list [],
  .mapping [(.text "type", .text "doc"), (.text "id", .text "guide/first_steps"),
    (.text "label", .null)]]⟩

/-- The tree of that configuration. -/
def guidesTree : Tree :=
  ⟨[("docs", [.doc ⟨"intro", "Intro"⟩,
      .category "Guides" [.doc ⟨"guide/first_steps", "First Steps"⟩]]), ("more", [])], by decide⟩

/-- What is built from that configuration has its two groups, and the document inside the category
is found where it is written. -/
theorem guides_as_written :
    ∃ v : ValidatedTree, (build none guidesHeap (.ref 0)).outcome = .ok v ∧
      v.tree.names = ["docs", "more"] ∧
      v.tree.breadcrumb "guide/first_steps" = .ok ["Guides"] := by
  have ht : Tree.ofRaw guidesHeap (.ref 0) = .ok guidesTree := Tree.ofRaw_of_run rfl
  have hf : guidesTree.faults none = [] := by decide
  obtain ⟨v, htree, hv⟩ := validate_of_faults_eq_nil hf
  have hb : (build none guidesHeap (.ref 0)).outcome = .ok v := by
    rw [build, ht]
    dsimp only
    rw [show guidesTree.validate none = _ from hv]
    rfl
  obtain ⟨-, hgroups, -⟩ := build_answers_as_written hb "docs"
  obtain ⟨ds, -, hmem, -, hcrumb⟩ := hgroups "docs" (by rw [htree]; decide)
  have hd : guidesHeap.docAt? (.ref 0) [.name "docs", .index 1, .index 0] =
      some ([("Guides" : Text)], ⟨"guide/first_steps", "First Steps"⟩) := rfl
  exact ⟨v, hb, by rw [htree]; decide, hcrumb _ ((hmem _ _ _).2 hd)⟩

end Sidebar
