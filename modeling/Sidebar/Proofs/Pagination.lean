import Sidebar.Proofs.Faults
import Sidebar.Proofs.Trails

/-!
# Sidebar.Proofs.Pagination: going from document to document

In a validated tree the document with an id has one group and one number in it, and its neighbours
are those of this number (`ValidatedTree.pagination_of_getElem`).  Everything else follows from
this equation: going on from the first document of a group visits the group in order
(`ValidatedTree.visits_docs`), and going on and going back undo each other
(`ValidatedTree.next_iff_previous`).  `pagination_by_group` puts it together.
-/

namespace Sidebar

open Item

namespace Tree

/-- Some document of the tree has this id. -/
def Holds (t : Tree) (id : Text) : Prop := ∃ path d, t.item? path = some (.doc d) ∧ d.id = id

/-- The document after `a` in its group is `b`. -/
def NextOf (t : Tree) (a b : Doc) : Prop :=
  ∃ page, t.pagination a.id = .ok page ∧ page.next = some b

/-- The document before `b` in its group is `a`. -/
def PreviousOf (t : Tree) (b a : Doc) : Prop :=
  ∃ page, t.pagination b.id = .ok page ∧ page.previous = some a

/-- Going on from a document to the next one, until there is none, meets these documents. -/
inductive Visits (t : Tree) : Option Doc → List Doc → Prop
  | stop : Visits t none []
  | visit {d : Doc} {page : Pagination} {ds : List Doc} (h : t.pagination d.id = .ok page)
      (rest : Visits t page.next ds) : Visits t (some d) (d :: ds)

variable {t : Tree}

theorem mem_docs_iff {d : Doc} : d ∈ t.docs ↔ ∃ path, t.item? path = some (.doc d) := by
  rw [docs, docsOf, List.mem_filterMap]
  constructor
  · rintro ⟨⟨path, _ | _⟩, hp, h⟩
    · obtain rfl := Option.some.inj h
      exact ⟨path, mem_positions.1 hp⟩
    · cases h
  · rintro ⟨path, h⟩
    exact ⟨_, mem_positions.2 h, rfl⟩

theorem holds_iff {id : Text} : t.Holds id ↔ ∃ d ∈ t.docs, d.id = id := by
  constructor
  · rintro ⟨path, d, h, hid⟩
    exact ⟨d, mem_docs_iff.2 ⟨path, h⟩, hid⟩
  · rintro ⟨d, h, hid⟩
    obtain ⟨path, hp⟩ := mem_docs_iff.1 h
    exact ⟨path, d, hp, hid⟩

theorem mem_docs_iff_group {d : Doc} :
    d ∈ t.docs ↔ ∃ g ∈ t.groups, ∃ i : Nat, (Item.docs g.2)[i]? = some d := by
  rw [docs_eq, List.mem_flatMap]
  exact exists_congr fun g => and_congr_right fun _ => List.mem_iff_getElem?

/-- A named group is flattened to its documents. -/
theorem flatten_some_iff {standard name : Text} {ds : List Doc} :
    t.flatten standard (some name) = .ok ds ↔ ∃ items, (name, items) ∈ t.groups ∧
      ds = Item.docs items := by
  rw [flatten, resolveGroup]
  cases h : t.items? name with
  | none =>
    constructor
    · intro he
      cases he
    · rintro ⟨items, hg, -⟩
      rw [items?_eq_some_iff.2 hg] at h
      cases h
  | some items =>
    constructor
    · intro he
      exact ⟨items, items?_eq_some_iff.1 h, (Except.ok.inj he).symm⟩
    · rintro ⟨items', hg, rfl⟩
      obtain rfl := Option.some.inj (h.symm.trans (items?_eq_some_iff.2 hg))
      rfl

theorem flatten_of_mem {g : Group} (hg : g ∈ t.groups) (standard : Text) :
    t.flatten standard (some g.1) = .ok (Item.docs g.2) :=
  flatten_some_iff.2 ⟨g.2, hg, rfl⟩

/-- Who is not in the tree has no neighbours and no breadcrumb. -/
theorem not_found_of_not_holds {id : Text} (h : ¬ t.Holds id) :
    t.pagination id = .error (.doc id) ∧ t.breadcrumb id = .error (.doc id) := by
  have hl : t.locate id = .error (.doc id) :=
    locate_of_notMem fun d hd hid => h (holds_iff.2 ⟨d, hd, hid⟩)
  rw [pagination, breadcrumb, hl]
  exact ⟨rfl, rfl⟩

end Tree

namespace ValidatedTree

variable {v : ValidatedTree}

theorem exists_trail {g : Group} (hg : g ∈ v.tree.groups) {i : Nat} {d : Doc}
    (hd : (Item.docs g.2)[i]? = some d) : ∃ labels, (g, d, labels) ∈ v.tree.trails := by
  obtain ⟨⟨_, labels⟩, he, rfl⟩ := List.mem_map.1 (List.mem_of_getElem? hd)
  exact ⟨labels, Tree.mem_trails.2 ⟨hg, he⟩⟩

/-- In a validated tree, the ids in one group are distinct. -/
theorem nodup_ids {g : Group} (hg : g ∈ v.tree.groups) : ((Item.docs g.2).map (·.id)).Nodup := by
  have h := v.distinctIds
  rw [Tree.docs_eq, List.map_flatMap] at h
  exact (List.nodup_flatMap.1 h).1 g hg

/-- In a validated tree, an id has one group and one number in this group. -/
theorem index_unique {g g' : Group} (hg : g ∈ v.tree.groups) (hg' : g' ∈ v.tree.groups)
    {i j : Nat} {d e : Doc} (hd : (Item.docs g.2)[i]? = some d)
    (he : (Item.docs g'.2)[j]? = some e) (h : d.id = e.id) : g = g' ∧ i = j ∧ d = e := by
  obtain ⟨l, hl⟩ := exists_trail hg hd
  obtain ⟨l', hl'⟩ := exists_trail hg' he
  obtain ⟨rfl, h2⟩ := Prod.mk.inj (trail_unique hl hl' h)
  obtain ⟨rfl, -⟩ := Prod.mk.inj h2
  refine ⟨rfl, ?_, rfl⟩
  have hi : ((Item.docs g.2).map (·.id))[i]? = some d.id := by rw [List.getElem?_map, hd]; rfl
  have hj : ((Item.docs g.2).map (·.id))[j]? = some d.id := by rw [List.getElem?_map, he]; rfl
  exact (List.getElem?_inj (List.getElem?_eq_some_iff.1 hi).1 (nodup_ids hg)).1 (hi.trans hj.symm)

/-- Looking for an id in the documents of its group ends at its number. -/
theorem findIdx?_of_getElem {g : Group} (hg : g ∈ v.tree.groups) {i : Nat} {d : Doc}
    (hd : (Item.docs g.2)[i]? = some d) :
    ((Item.docs g.2).findIdx? fun e => e.id = d.id) = some i := by
  obtain ⟨hi, hdi⟩ := List.getElem?_eq_some_iff.1 hd
  refine List.findIdx?_eq_some_iff_getElem.2 ⟨hi, by simp [hdi], fun j hji h => ?_⟩
  have hj : (Item.docs g.2)[j]? = some (Item.docs g.2)[j] := List.getElem?_eq_getElem _
  have hji' := (index_unique hg hg hj hd (by simpa using h)).2.1
  omega

/-- **Neighbours by number**: the neighbours of a document are those before and after it in the
documents of its group. -/
theorem pagination_of_getElem {g : Group} (hg : g ∈ v.tree.groups) {i : Nat} {d : Doc}
    (hd : (Item.docs g.2)[i]? = some d) :
    v.tree.pagination d.id =
      .ok ⟨if i = 0 then none else (Item.docs g.2)[i - 1]?, (Item.docs g.2)[i + 1]?⟩ := by
  obtain ⟨labels, hl⟩ := exists_trail hg hd
  have hi := (List.findIdx?_eq_some_iff_findIdx_eq.1 (findIdx?_of_getElem hg hd)).2
  rw [Tree.pagination, locate_of_mem hl]
  show Except.ok (Pagination.mk _ _) = _
  rw [hi]

/-- Going on from a document in the middle of a group visits what is left of the group. -/
theorem visits_drop {g : Group} (hg : g ∈ v.tree.groups) (before ds : List Doc)
    (h : Item.docs g.2 = before ++ ds) : v.tree.Visits ds.head? ds := by
  induction ds generalizing before with
  | nil => exact .stop
  | cons d ds ih =>
    have hd : (Item.docs g.2)[before.length]? = some d := by rw [h]; simp
    have hn : (Item.docs g.2)[before.length + 1]? = ds.head? := by
      rw [h, List.getElem?_append_right (by omega), List.head?_eq_getElem?]
      simp
    refine .visit (pagination_of_getElem hg hd) ?_
    rw [hn]
    exact ih (before ++ [d]) (by rw [h, List.append_assoc]; rfl)

/-- Going on from the first document of a group visits the group in order and stops. -/
theorem visits_docs {g : Group} (hg : g ∈ v.tree.groups) :
    v.tree.Visits (Item.docs g.2).head? (Item.docs g.2) :=
  visits_drop hg [] _ rfl

/-- Going on and going back undo each other. -/
theorem next_iff_previous {a b : Doc} (ha : a ∈ v.tree.docs) (hb : b ∈ v.tree.docs) :
    v.tree.NextOf a b ↔ v.tree.PreviousOf b a := by
  obtain ⟨g, hg, i, hi⟩ := Tree.mem_docs_iff_group.1 ha
  obtain ⟨g', hg', j, hj⟩ := Tree.mem_docs_iff_group.1 hb
  constructor
  · rintro ⟨page, hp, hn⟩
    rw [pagination_of_getElem hg hi] at hp
    obtain rfl := Except.ok.inj hp
    refine ⟨_, pagination_of_getElem hg hn, ?_⟩
    show (if i + 1 = 0 then none else (Item.docs g.2)[i + 1 - 1]?) = some a
    rw [if_neg (by omega), Nat.add_sub_cancel, hi]
  · rintro ⟨page, hp, hn⟩
    rw [pagination_of_getElem hg' hj] at hp
    obtain rfl := Except.ok.inj hp
    have hj0 : j ≠ 0 := by
      rintro rfl
      cases hn
    change (if j = 0 then none else (Item.docs g'.2)[j - 1]?) = some a at hn
    rw [if_neg hj0] at hn
    refine ⟨_, pagination_of_getElem hg' hn, ?_⟩
    show (Item.docs g'.2)[j - 1 + 1]? = some b
    rw [Nat.sub_add_cancel (by omega), hj]

/-- **Pages of a validated tree.**  A document that is in the tree has one group and one number
among the documents of this group; it is found in this group, by this number, and its neighbours are
those of this number.  What is not in the tree is not found.  So going on from the first document
of a group visits each of its documents once, in order, and then stops; and going on and going
back undo each other. -/
theorem pagination_by_group (standard : Text) (v : ValidatedTree) :
    (∀ id, v.tree.Holds id → ∃ name items labels i d page,
      v.tree.flatten standard (some name) = .ok (Item.docs items) ∧
      (Item.docs items)[i]? = some d ∧ d.id = id ∧
      (∀ name' ds j e, v.tree.flatten standard (some name') = .ok ds → ds[j]? = some e →
        e.id = id → name' = name ∧ j = i) ∧
      v.tree.locate id = .ok ((name, items), labels) ∧
      ((Item.docs items).findIdx? fun e => e.id = id) = some i ∧
      v.tree.pagination id = .ok page ∧
      page.previous = (if i = 0 then none else (Item.docs items)[i - 1]?) ∧
      (page.previous = none ↔ i = 0) ∧
      page.next = (Item.docs items)[i + 1]? ∧
      (page.next = none ↔ i + 1 = (Item.docs items).length)) ∧
    (∀ id, ¬ v.tree.Holds id →
      v.tree.pagination id = .error (.doc id) ∧ v.tree.breadcrumb id = .error (.doc id)) ∧
    (∀ name ds, v.tree.flatten standard (some name) = .ok ds →
      v.tree.Visits ds.head? ds ∧ (ds.map (·.id)).Nodup) ∧
    (∀ a ∈ v.tree.docs, ∀ b ∈ v.tree.docs, v.tree.NextOf a b ↔ v.tree.PreviousOf b a) := by
  refine ⟨?_, fun id h => Tree.not_found_of_not_holds h, ?_,
    fun a ha b hb => next_iff_previous ha hb⟩
  · intro id h
    obtain ⟨d, hd, rfl⟩ := Tree.holds_iff.1 h
    obtain ⟨g, hg, i, hi⟩ := Tree.mem_docs_iff_group.1 hd
    obtain ⟨labels, hl⟩ := exists_trail hg hi
    have hlt := (List.getElem?_eq_some_iff.1 hi).1
    refine ⟨g.1, g.2, labels, i, d, _, Tree.flatten_of_mem hg standard, hi, rfl, ?_,
      locate_of_mem hl, findIdx?_of_getElem hg hi, pagination_of_getElem hg hi, rfl, ?_, rfl, ?_⟩
    · intro name ds j e hf he hid
      obtain ⟨items, hg', rfl⟩ := Tree.flatten_some_iff.1 hf
      obtain ⟨rfl, rfl, -⟩ := index_unique hg' hg he hi hid
      exact ⟨rfl, rfl⟩
    · show (if i = 0 then none else (Item.docs g.2)[i - 1]?) = none ↔ i = 0
      by_cases h0 : i = 0
      · simp [h0]
      · rw [if_neg h0, List.getElem?_eq_none_iff]
        omega
    · rw [List.getElem?_eq_none_iff]
      omega
  · intro name ds hf
    obtain ⟨items, hg, rfl⟩ := Tree.flatten_some_iff.1 hf
    exact ⟨visits_docs hg, nodup_ids hg⟩

/-- Two groups; in the first one, a document inside a category follows one outside. -/
def twoGroups : ValidatedTree where
  tree := ⟨[("docs", [.doc ⟨"intro", "Intro"⟩, .category "Guides" [.doc ⟨"guide/setup", "Setup"⟩]]),
    ("blog", [.doc ⟨"news", "News"⟩])], by decide⟩
  distinctIds := by decide

/-- The pages of two groups, one of which is visited in order. -/
theorem pages_of_twoGroups :
    twoGroups.tree.Holds "guide/setup" ∧
      (∃ page, twoGroups.tree.pagination "guide/setup" = .ok page) ∧
      ¬ twoGroups.tree.Holds "gone" ∧ twoGroups.tree.pagination "gone" = .error (.doc "gone") ∧
      twoGroups.tree.Visits (some ⟨"intro", "Intro"⟩)
        [⟨"intro", "Intro"⟩, ⟨"guide/setup", "Setup"⟩] := by
  obtain ⟨hheld, hgone, hvisits, -⟩ := pagination_by_group "docs" twoGroups
  have hs : twoGroups.tree.Holds "guide/setup" := Tree.holds_iff.2 (by decide)
  have hn : ¬ twoGroups.tree.Holds "gone" := fun h => absurd (Tree.holds_iff.1 h) (by decide)
  obtain ⟨-, -, -, -, -, page, -, -, -, -, -, -, hp, -⟩ := hheld "guide/setup" hs
  have hf : twoGroups.tree.flatten "docs" (some "docs") =
      .ok [⟨"intro", "Intro"⟩, ⟨"guide/setup", "Setup"⟩] := by decide
  exact ⟨hs, ⟨page, hp⟩, hn, (hgone "gone" hn).1, (hvisits "docs" _ hf).1⟩

end ValidatedTree

end Sidebar
