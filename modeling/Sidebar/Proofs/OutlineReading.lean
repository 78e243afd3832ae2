import Mathlib.Data.List.Infix
import Sidebar.Proofs.OutlineLines

/-!
# Sidebar.Proofs.OutlineReading: a tree can be read back from its outline

Depth is shown by indentation alone, the kind of an item by the last sign of its line, the id of a
document by the last blank before a bracket, and a new group by an empty line.  Where no name runs
over the end of its line or looks like one of these, the outline leaves no choice.

* `Item.line_injective`: a line tells the depth and the heading of its item.
* `Item.items_eq_of_marks`: the depths and headings of items, in document order, tell the items;
  what follows them must not be deeper than they are.
* `Tree.eq_of_outline_eq`: two trees that print alike are the same.
-/

namespace Sidebar

/-! ## Names that can be told apart -/

/-- The text does not run over the end of a line. -/
def Text.OneLine (t : Text) : Prop := CodePoint.ofChar '\n' ∉ t

/-- The text is a label on one line that does not look indented. -/
structure Text.PlainLabel (t : Text) : Prop where
  oneLine : t.OneLine
  notIndented : ¬ (" " : Text) <+: t

/-- The text is an id on one line that does not look like a label with another id. -/
structure Text.PlainId (t : Text) : Prop where
  oneLine : t.OneLine
  noBracket : ¬ (" (" : Text) <:+: t

/-- The names in a heading can be told apart. -/
def Heading.Plain : Heading → Prop
  | .doc d => d.label.PlainLabel ∧ d.id.PlainId
  | .category label => label.PlainLabel

/-- The names of the groups, and those of all items at every depth, can be told apart. -/
structure Tree.PlainNames (t : Tree) : Prop where
  groups : ∀ name ∈ t.names, name.OneLine
  items : ∀ p ∈ t.positions, p.2.heading.Plain

instance (t : Text) : Decidable t.OneLine :=
  inferInstanceAs (Decidable (CodePoint.ofChar '\n' ∉ t))

instance (t : Text) : Decidable t.PlainLabel :=
  decidable_of_iff (t.OneLine ∧ ¬ (" " : Text) <+: t)
    ⟨fun h => ⟨h.1, h.2⟩, fun h => ⟨h.oneLine, h.notIndented⟩⟩

instance (t : Text) : Decidable t.PlainId :=
  decidable_of_iff (t.OneLine ∧ ¬ (" (" : Text) <:+: t)
    ⟨fun h => ⟨h.1, h.2⟩, fun h => ⟨h.oneLine, h.noBracket⟩⟩

instance : DecidablePred Heading.Plain
  | .doc d => inferInstanceAs (Decidable (d.label.PlainLabel ∧ d.id.PlainId))
  | .category label => inferInstanceAs (Decidable label.PlainLabel)

instance (t : Tree) : Decidable t.PlainNames :=
  decidable_of_iff ((∀ name ∈ t.names, name.OneLine) ∧ ∀ p ∈ t.positions, p.2.heading.Plain)
    ⟨fun h => ⟨h.1, h.2⟩, fun h => ⟨h.groups, h.items⟩⟩

/-! ## Lines -/

theorem before_eq_nil_of_last {before i j : Text}
    (h : (" (" : Text) ++ i = before ++ (" (" ++ j)) (hi : ¬ (" (" : Text) <:+: i) :
    before = [] := by
  match before, h with
  | [], _ => rfl
  | [c], h =>
    have hblank : CodePoint.ofChar '(' = CodePoint.ofChar ' ' :=
      (List.cons.inj (List.cons.inj h).2).1
    exact absurd hblank (by decide)
  | c :: c' :: before, h =>
    have hrest : i = before ++ (" (" ++ j) := (List.cons.inj (List.cons.inj h).2).2
    exact absurd ⟨before, j, by rw [hrest, List.append_assoc]⟩ hi

/-- The last blank before a bracket sets the label apart from the id. -/
theorem label_and_id_inj {l m i j : Text} (hi : ¬ (" (" : Text) <:+: i)
    (hj : ¬ (" (" : Text) <:+: j) (h : l ++ (" (" ++ i) = m ++ (" (" ++ j)) : l = m ∧ i = j := by
  have hlm : l = m := by
    rcases List.append_eq_append_iff.1 h with ⟨more, hm, hrest⟩ | ⟨more, hl, hrest⟩
    · rw [hm, before_eq_nil_of_last hrest hi, List.append_nil]
    · rw [hl, before_eq_nil_of_last hrest hj, List.append_nil]
  subst hlm
  exact ⟨rfl, List.append_cancel_left (List.append_cancel_left h)⟩

theorem not_blanks_of_label {label rest : Text} (hl : label.PlainLabel)
    (hr : ¬ ("  " : Text) <+: rest) : ¬ ("  " : Text) <+: label ++ rest := by
  cases label with
  | nil => exact hr
  | cons c label =>
    rintro ⟨more, hm⟩
    have hc : CodePoint.ofChar ' ' = c := (List.cons.inj hm).1
    exact hl.notIndented ⟨label, by rw [← hc]; rfl⟩

namespace Heading

variable {heading heading' : Heading}

/-- What follows the indentation of a line does not begin with two blanks. -/
theorem Plain.not_blanks (hp : heading.Plain) : ¬ ("  " : Text) <+: heading.render := by
  cases heading with
  | doc d =>
    rw [render, List.append_assoc, List.append_assoc]
    refine not_blanks_of_label hp.1 ?_
    rintro ⟨more, hm⟩
    have hblank : CodePoint.ofChar ' ' = CodePoint.ofChar '(' :=
      (List.cons.inj (List.cons.inj hm).2).1
    exact absurd hblank (by decide)
  | category label =>
    refine not_blanks_of_label hp ?_
    rintro ⟨more, hm⟩
    have hblank : CodePoint.ofChar ' ' = CodePoint.ofChar '/' := (List.cons.inj hm).1
    exact absurd hblank (by decide)

/-- The line of a document does not end like that of a category. -/
theorem render_doc_ne_category {d : Doc} {label : Text} :
    (doc d).render ≠ (category label).render := by
  intro h
  have hlength : (")" : Text).length = ("/" : Text).length := by decide
  have hlast : (")" : Text) = "/" := List.append_inj_right' h hlength
  exact absurd hlast (by decide)

theorem render_injective (hp : heading.Plain) (hp' : heading'.Plain)
    (h : heading.render = heading'.render) : heading = heading' := by
  cases heading with
  | doc d =>
    cases heading' with
    | doc e =>
      have hinner : d.label ++ " (" ++ d.id = e.label ++ " (" ++ e.id := List.append_cancel_right h
      rw [List.append_assoc, List.append_assoc] at hinner
      obtain ⟨hlabel, hid⟩ := label_and_id_inj hp.2.noBracket hp'.2.noBracket hinner
      exact congrArg doc (congrArg₂ Doc.mk hid hlabel)
    | category label => exact absurd h render_doc_ne_category
  | category label =>
    cases heading' with
    | doc e => exact absurd h.symm render_doc_ne_category
    | category label' => exact congrArg category (List.append_cancel_right h)

theorem Plain.oneLine (hp : heading.Plain) : heading.render.OneLine := by
  have hdoc : (CodePoint.ofChar '\n') ∉ (" (" : Text) ∧ (CodePoint.ofChar '\n') ∉ (")" : Text) := by
    decide
  have hcategory : (CodePoint.ofChar '\n') ∉ ("/" : Text) := by decide
  cases heading with
  | doc d =>
    intro hm
    rw [render, List.mem_append, List.mem_append, List.mem_append] at hm
    rcases hm with ((hm | hm) | hm) | hm
    · exact hp.1.oneLine hm
    · exact hdoc.1 hm
    · exact hp.2.oneLine hm
    · exact hdoc.2 hm
  | category label =>
    intro hm
    rw [render, List.mem_append] at hm
    rcases hm with hm | hm
    · exact Text.PlainLabel.oneLine hp hm
    · exact hcategory hm

end Heading

namespace Item

theorem indent_add (d e : Nat) : indent (d + e) = indent d ++ indent e := by
  rw [indent, indent, indent, Nat.mul_add, List.replicate_add]

theorem blanks_prefix_indent (d : Nat) : ("  " : Text) <+: indent (d + 1) := by
  have hblanks : indent (d + 1) = List.replicate 2 (CodePoint.ofChar ' ') ++
      List.replicate (4 * d + 2) (CodePoint.ofChar ' ') := by
    rw [← List.replicate_add, indent]
    congr 1
    omega
  exact ⟨_, hblanks.symm⟩

theorem depth_le_of_indent {d e : Nat} {r s : Text} (h : indent d ++ r = indent e ++ s)
    (hr : ¬ ("  " : Text) <+: r) : e ≤ d := by
  by_contra hlt
  obtain ⟨k, rfl⟩ : ∃ k, e = d + (k + 1) := ⟨e - d - 1, by omega⟩
  rw [indent_add, List.append_assoc] at h
  have hmore : r = indent (k + 1) ++ s := List.append_cancel_left h
  exact hr (hmore ▸ (blanks_prefix_indent k).trans (List.prefix_append _ _))

variable {heading heading' : Heading}

/-- **A line tells the depth and the heading** of its item. -/
theorem line_injective {d e : Nat} (hp : heading.Plain) (hp' : heading'.Plain)
    (h : indent d ++ heading.render = indent e ++ heading'.render) :
    d = e ∧ heading = heading' := by
  have hde : d = e := Nat.le_antisymm (depth_le_of_indent h.symm hp'.not_blanks)
    (depth_le_of_indent h hp.not_blanks)
  subst hde
  exact ⟨rfl, Heading.render_injective hp hp' (List.append_cancel_left h)⟩

/-! ## Items -/

/-- The depth and the heading of a position. -/
def mark (p : NodePath × Item) : Nat × Heading := (p.1.depth, p.2.heading)

/-- The marks, if there are any, begin no deeper than this. -/
def Rises (depth : Nat) (marks : List (Nat × Heading)) : Prop :=
  ∀ m ∈ marks.head?, m.1 ≤ depth

/-- The marks of the item tell it, and where they end, if what is behind them is not deeper. -/
def Told (x : Item) : Prop :=
  ∀ (path : NodePath) (y : Item) (rest rest' : List (Nat × Heading)), path ≠ [] →
    (positions path x).map mark ++ rest = (positions path y).map mark ++ rest' →
    Rises path.depth rest → Rises path.depth rest' → x = y ∧ rest = rest'

variable {path : NodePath} {i : Nat} {x : Item} {xs : List Item}
  {rest rest' : List (Nat × Heading)}

theorem positions_eq_cons (path : NodePath) (x : Item) :
    ∃ inner, (positions path x).map mark = (path.depth, x.heading) :: inner := by
  cases x with
  | doc d => exact ⟨[], rfl⟩
  | category label items => exact ⟨(positionsFrom path 0 items).map mark, rfl⟩

theorem rises_positionsFrom (hp : path ≠ []) (hr : Rises path.depth rest) :
    Rises (path.depth + 1) ((positionsFrom path i xs).map mark ++ rest) := by
  cases xs with
  | nil =>
    intro m hm
    exact Nat.le_succ_of_le (hr m hm)
  | cons x xs =>
    obtain ⟨inner, hx⟩ := positions_eq_cons (path.child i) x
    rw [positionsFrom, List.map_append, hx, NodePath.depth_child hp]
    intro m hm
    obtain rfl := Option.some.inj hm
    exact Nat.le_refl _

/-- Behind items that are in something, what is not deeper does not begin like an item in it. -/
theorem rises_ne_positionsFrom (hp : path ≠ []) (hr : Rises path.depth rest) :
    rest ≠ (positionsFrom path i (x :: xs)).map mark ++ rest' := by
  intro he
  obtain ⟨inner, hx⟩ := positions_eq_cons (path.child i) x
  rw [positionsFrom, List.map_append, hx, NodePath.depth_child hp] at he
  rw [he] at hr
  exact absurd (hr _ rfl) (by simp)

/-- **Items are told by their marks**, in document order. -/
theorem items_eq_of_marks (ih : ∀ x ∈ xs, Told x) {ys : List Item} (hp : path ≠ [])
    (h : (positionsFrom path i xs).map mark ++ rest = (positionsFrom path i ys).map mark ++ rest')
    (hr : Rises path.depth rest) (hr' : Rises path.depth rest') : xs = ys ∧ rest = rest' := by
  induction xs generalizing i ys with
  | nil =>
    cases ys with
    | nil => exact ⟨rfl, h⟩
    | cons y ys => exact absurd h (rises_ne_positionsFrom hp hr)
  | cons x xs ihs =>
    cases ys with
    | nil => exact absurd h.symm (rises_ne_positionsFrom hp hr')
    | cons y ys =>
      rw [List.forall_mem_cons] at ih
      rw [positionsFrom, positionsFrom, List.map_append, List.map_append, List.append_assoc,
        List.append_assoc] at h
      have hdepth := NodePath.depth_child hp i
      -- behind the first item are the others, or what is behind all of them: neither is deeper
      obtain ⟨rfl, htail⟩ := ih.1 (path.child i) y _ _ (path.child_ne_nil i) h
        (hdepth ▸ rises_positionsFrom hp hr) (hdepth ▸ rises_positionsFrom hp hr')
      obtain ⟨rfl, hrest⟩ := ihs ih.2 htail
      exact ⟨rfl, hrest⟩

theorem told (x : Item) : Told x := by
  induction x with
  | doc d =>
    intro path y rest rest' hp h hr hr'
    cases y with
    | doc e =>
      obtain ⟨hfirst, hrest⟩ := List.cons.inj h
      have hde : d = e := Heading.doc.inj (Prod.mk.inj hfirst).2
      exact ⟨congrArg doc hde, hrest⟩
    | category label items =>
      cases (Prod.mk.inj (List.cons.inj h).1).2
  | category label items ih =>
    intro path y rest rest' hp h hr hr'
    cases y with
    | doc e => cases (Prod.mk.inj (List.cons.inj h).1).2
    | category label' items' =>
      obtain ⟨hfirst, hinner⟩ := List.cons.inj h
      have hlabel : label = label' := Heading.category.inj (Prod.mk.inj hfirst).2
      obtain ⟨hitems, hrest⟩ := items_eq_of_marks ih hp hinner hr hr'
      exact ⟨congrArg₂ category hlabel hitems, hrest⟩

end Item

/-! ## Trees -/

theorem eq_of_map_eq {α β : Type} {f : α → β} {xs ys : List α}
    (hf : ∀ x ∈ xs, ∀ y ∈ ys, f x = f y → x = y) (h : xs.map f = ys.map f) : xs = ys := by
  induction xs generalizing ys with
  | nil => exact (List.map_eq_nil_iff.1 h.symm).symm
  | cons x xs ih =>
    cases ys with
    | nil => cases h
    | cons y ys =>
      obtain ⟨hxy, hrest⟩ := List.cons.inj h
      have hx : x = y := hf x List.mem_cons_self y List.mem_cons_self hxy
      have hxs : xs = ys := ih (fun a ha b hb =>
        hf a (List.mem_cons_of_mem x ha) b (List.mem_cons_of_mem y hb)) hrest
      rw [hx, hxs]

section Splitting

variable {α : Type} [DecidableEq α] {a : α} {xs ys : List (List α)}

theorem eq_nil_of_intercalate_eq_nil (hx : ∀ x ∈ xs, a ∉ x) (hx' : xs ≠ [[]])
    (h : [a].intercalate xs = []) : xs = [] := by
  by_contra hne
  have hs := List.splitOn_intercalate a hx hne
  rw [h, List.splitOn_nil] at hs
  exact hx' hs.symm

/-- Parts that do not hold the separator can be told from what is joined of them; no part and one
empty part cannot. -/
theorem eq_of_intercalate_eq (hx : ∀ x ∈ xs, a ∉ x) (hy : ∀ y ∈ ys, a ∉ y) (hx' : xs ≠ [[]])
    (hy' : ys ≠ [[]]) (h : [a].intercalate xs = [a].intercalate ys) : xs = ys := by
  by_cases hxs : xs = []
  · rw [hxs, List.intercalate_nil] at h
    rw [hxs, eq_nil_of_intercalate_eq_nil hy hy' h.symm]
  · by_cases hys : ys = []
    · rw [hys, List.intercalate_nil] at h
      rw [hys, eq_nil_of_intercalate_eq_nil hx hx' h]
    · rw [← List.splitOn_intercalate a hx hxs, h, List.splitOn_intercalate a hy hys]

end Splitting

namespace Item

theorem marks_eq_of_lines_eq {ps qs : List (NodePath × Item)} (hp : ∀ p ∈ ps, p.2.heading.Plain)
    (hq : ∀ q ∈ qs, q.2.heading.Plain) (h : ps.map line = qs.map line) :
    ps.map mark = qs.map mark := by
  have hline : ∀ l : List (NodePath × Item),
      l.map line = (l.map mark).map fun m => indent m.1 ++ m.2.render := by
    intro l
    rw [List.map_map]
    rfl
  rw [hline, hline] at h
  refine eq_of_map_eq (fun m hm n hn hmn => ?_) h
  obtain ⟨p, hps, rfl⟩ := List.mem_map.1 hm
  obtain ⟨q, hqs, rfl⟩ := List.mem_map.1 hn
  obtain ⟨hdepth, hheading⟩ := line_injective (hp p hps) (hq q hqs) hmn
  exact Prod.ext hdepth hheading

theorem line_oneLine {p : NodePath × Item} (hp : p.2.heading.Plain) : (line p).OneLine := by
  intro hm
  rcases List.mem_append.1 hm with hm | hm
  · exact absurd (List.eq_of_mem_replicate hm) (by decide)
  · exact hp.oneLine hm

theorem line_ne_nil (p : NodePath × Item) : line p ≠ [] := by
  have hr : p.2.heading.render ≠ [] := by
    cases p.2.heading with
    | doc d => exact List.append_ne_nil_of_right_ne_nil _ (List.cons_ne_nil _ _)
    | category label => exact List.append_ne_nil_of_right_ne_nil _ (List.cons_ne_nil _ _)
  exact List.append_ne_nil_of_right_ne_nil _ hr

end Item

namespace Group

/-- The names of a group, and those of all items in it, can be told apart. -/
structure PlainNames (g : Group) : Prop where
  name : g.1.OneLine
  items : ∀ p ∈ Item.positionsFrom (.ofGroup g.1) 0 g.2, p.2.heading.Plain

theorem oneLine_of_mem_lines {g : Group} (hg : PlainNames g) {l : Text} (hl : l ∈ lines g) :
    l.OneLine := by
  rcases List.mem_cons.1 hl with rfl | hl
  · intro hm
    rcases List.mem_append.1 hm with hm | hm
    · exact absurd hm (by decide)
    · exact hg.name hm
  · obtain ⟨p, hp, rfl⟩ := List.mem_map.1 hl
    exact Item.line_oneLine (hg.items p hp)

theorem nil_notMem_lines (g : Group) : [] ∉ lines g := by
  intro hl
  rcases List.mem_cons.1 hl with hl | hl
  · cases hl
  · obtain ⟨p, -, hp⟩ := List.mem_map.1 hl
    exact Item.line_ne_nil p hp

theorem lines_injective {g g' : Group} (hg : PlainNames g) (hg' : PlainNames g')
    (h : lines g = lines g') : g = g' := by
  obtain ⟨name, items⟩ := g
  obtain ⟨name', items'⟩ := g'
  obtain ⟨htitle, hlines⟩ := List.cons.inj h
  obtain rfl : name = name' := List.append_cancel_left htitle
  have hmarks := Item.marks_eq_of_lines_eq hg.items hg'.items hlines
  have hp : NodePath.ofGroup name ≠ [] := List.cons_ne_nil _ _
  have hnone : ∀ depth, Item.Rises depth [] := fun depth m hm => nomatch hm
  obtain ⟨hitems, -⟩ := Item.items_eq_of_marks (fun x _ => Item.told x) hp
    (congrArg (· ++ []) hmarks) (hnone _) (hnone _)
  exact congrArg (Prod.mk name) hitems

end Group

namespace Tree

variable {t u : Tree}

theorem PlainNames.group (ht : t.PlainNames) {g : Group} (hg : g ∈ t.groups) :
    Group.PlainNames g := by
  refine ⟨ht.groups g.1 (List.mem_map_of_mem hg), fun p hp => ?_⟩
  exact ht.items p (List.mem_flatMap.2 ⟨g, hg, hp⟩)

theorem oneLine_of_mem_lines (ht : t.PlainNames) {l : Text} (hl : l ∈ t.lines) : l.OneLine := by
  rcases mem_of_mem_intercalate hl with hl | ⟨b, hb, hl⟩
  · rw [List.mem_singleton.1 hl]
    exact List.not_mem_nil
  · obtain ⟨g, hg, rfl⟩ := List.mem_map.1 hb
    exact Group.oneLine_of_mem_lines (ht.group hg) hl

theorem lines_ne_empty_line (t : Tree) : t.lines ≠ [[]] := by
  unfold lines
  cases t.groups with
  | nil => exact (List.cons_ne_nil _ _).symm
  | cons g groups =>
    intro h
    have htitle : Group.title g = [] := by
      rw [List.map_cons] at h
      cases groups with
      | nil =>
        rw [List.map_nil, List.intercalate_singleton] at h
        exact (List.cons.inj h).1
      | cons g' groups =>
        rw [List.map_cons, List.intercalate_cons_cons] at h
        exact (List.cons.inj h).1
    cases htitle

/-- **No two trees print alike**, as far as their names can be told apart: the outline determines
the groups and their order, and in each group the items, with their nesting, kinds, ids and labels,
empty categories and empty groups included. -/
theorem eq_of_outline_eq (ht : t.PlainNames) (hu : u.PlainNames) (h : t.outline = u.outline) :
    t = u := by
  -- no line holds a line feed
  have hlines : t.lines = u.lines := by
    rw [outline_eq, outline_eq] at h
    exact eq_of_intercalate_eq (fun l hl => oneLine_of_mem_lines ht hl)
      (fun l hl => oneLine_of_mem_lines hu hl) t.lines_ne_empty_line u.lines_ne_empty_line h
  -- no group holds an empty line
  have hblocks : t.groups.map Group.lines = u.groups.map Group.lines := by
    have hempty : ∀ (v : Tree), ∀ b ∈ v.groups.map Group.lines, [] ∉ b := by
      intro v b hb
      obtain ⟨g, -, rfl⟩ := List.mem_map.1 hb
      exact Group.nil_notMem_lines g
    have hone : ∀ (v : Tree), v.groups.map Group.lines ≠ [[]] := by
      intro v hv
      obtain ⟨g, -, hg⟩ := List.mem_map.1 (hv ▸ List.mem_singleton_self ([] : List Text))
      cases hg
    exact eq_of_intercalate_eq (hempty t) (hempty u) (hone t) (hone u) hlines
  have hgroups : t.groups = u.groups := eq_of_map_eq
    (fun g hg g' hg' => Group.lines_injective (ht.group hg) (hu.group hg')) hblocks
  obtain ⟨groups, hdistinct⟩ := t
  obtain ⟨groups', hdistinct'⟩ := u
  obtain rfl : groups = groups' := hgroups
  rfl

/-- Names that look like each other: the same line for a label with a bracket and for an id with
one. -/
example : (Tree.ofGroups [("docs", [.doc ⟨"c", "a (b"⟩])]).outline =
    (Tree.ofGroups [("docs", [.doc ⟨"b (c", "a"⟩])]).outline := by decide

/-- An empty group, and a group with an empty category that has no label. -/
def edgeTree : Tree :=
  .ofGroups [("", []), ("docs", [.category "" [], .category "More" [.doc ⟨"intro ", ""⟩]])]

/-- The same, the empty group being written twice. -/
def edgeTree' : Tree :=
  .ofGroups [("", [.category "/" []]),
    ("docs", [.category "" [], .category "More" [.doc ⟨"intro ", ""⟩]]), ("", [])]

/-- The two print alike, so they are the same. -/
theorem edgeTree_eq : edgeTree.PlainNames ∧ edgeTree'.PlainNames ∧
    edgeTree.outline = "Sidebar: \n\nSidebar: docs\n    /\n    More/\n         (intro )" ∧
    edgeTree = edgeTree' := by
  have ht : edgeTree.PlainNames := by decide +kernel
  have hu : edgeTree'.PlainNames := by decide +kernel
  have hprint : edgeTree.outline =
      "Sidebar: \n\nSidebar: docs\n    /\n    More/\n         (intro )" := by decide
  have hprint' : edgeTree'.outline =
      "Sidebar: \n\nSidebar: docs\n    /\n    More/\n         (intro )" := by decide
  exact ⟨ht, hu, hprint, eq_of_outline_eq ht hu (hprint.trans hprint'.symm)⟩

end Tree

end Sidebar
