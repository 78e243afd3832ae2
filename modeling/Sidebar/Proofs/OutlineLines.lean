import Sidebar.Outline
import Sidebar.Proofs.Places

/-!
# Sidebar.Proofs.OutlineLines: an outline, line by line

An outline is joined from the outlines of groups, which are joined from the outlines of items, which
are joined again.  `Tree.lines` is the flat list that comes of it: for each group its heading and
one line for every position, in document order; an empty line between two groups.

* `intercalate_append`: joining two lists of lines.
* `Item.outline_eq`: the outline of an item, by induction on the item.
* `Tree.outline_eq`: the outline of a tree is its lines, joined once.
-/

namespace Sidebar

/-! ## Joining -/

section Joining

variable {α : Type} {sep : List α}

theorem intercalate_append {xs ys : List (List α)} (hx : xs ≠ []) (hy : ys ≠ []) :
    sep.intercalate (xs ++ ys) = sep.intercalate xs ++ sep ++ sep.intercalate ys := by
  induction xs with
  | nil => exact absurd rfl hx
  | cons x xs ih =>
    cases xs with
    | nil => rw [List.singleton_append, List.intercalate_cons_of_ne_nil hy,
        List.intercalate_singleton]
    | cons x' xs =>
      have hne : x' :: xs ≠ [] := List.cons_ne_nil x' xs
      rw [List.cons_append,
        List.intercalate_cons_of_ne_nil (List.append_ne_nil_of_left_ne_nil hne ys), ih hne,
        List.intercalate_cons_of_ne_nil hne]
      simp only [List.append_assoc]

theorem mem_of_mem_intercalate {xs : List (List α)} {a : α} (ha : a ∈ sep.intercalate xs) :
    a ∈ sep ∨ ∃ x ∈ xs, a ∈ x := by
  induction xs with
  | nil => cases ha
  | cons x xs ih =>
    by_cases hxs : xs = []
    · rw [hxs, List.intercalate_singleton] at ha
      exact .inr ⟨x, List.mem_cons_self, ha⟩
    · rw [List.intercalate_cons_of_ne_nil hxs, List.mem_append, List.mem_append] at ha
      rcases ha with (ha | ha) | ha
      · exact .inr ⟨x, List.mem_cons_self, ha⟩
      · exact .inl ha
      · rcases ih ha with hs | ⟨y, hy, hay⟩
        · exact .inl hs
        · exact .inr ⟨y, List.mem_cons_of_mem x hy, hay⟩

end Joining

/-! ## The line of an item -/

/-- What the line of an item says. -/
inductive Heading
  | doc (d : Doc)
  | category (label : Text)
deriving DecidableEq

/-- The words of a heading. -/
def Heading.render : Heading → Text
  | .doc d => d.label ++ " (" ++ d.id ++ ")"
  | .category label => label ++ "/"

/-- How deep the items at a path are. -/
def NodePath.depth (path : NodePath) : Nat := path.length - 1

theorem NodePath.depth_child {path : NodePath} (hp : path ≠ []) (i : Nat) :
    (path.child i).depth = path.depth + 1 := by
  have hl : 0 < path.length := List.length_pos_iff.2 hp
  rw [depth, depth, child, List.length_append, List.length_singleton]
  omega

theorem NodePath.child_ne_nil (path : NodePath) (i : Nat) : path.child i ≠ [] := by
  simp [child]

namespace Item

/-- What the line of the item says. -/
def heading : Item → Heading
  | .doc d => .doc d
  | .category label _ => .category label

/-- The line of a position. -/
def line (p : NodePath × Item) : Text := indent p.1.depth ++ p.2.heading.render

variable {path : NodePath} {i : Nat} {x : Item} {xs : List Item}

theorem positions_ne_nil (path : NodePath) (x : Item) : positions path x ≠ [] := by
  cases x <;> simp [positions]

/-- The lines of several items, from the lines of each. -/
theorem intercalate_outlines
    (ih : ∀ x ∈ xs, ∀ path : NodePath, path ≠ [] →
      outline path.depth x = List.intercalate "\n" ((positions path x).map line))
    (hp : path ≠ []) :
    List.intercalate "\n" (outlines (path.depth + 1) xs) =
      List.intercalate "\n" ((positionsFrom path i xs).map line) := by
  induction xs generalizing i with
  | nil => rfl
  | cons x xs ihs =>
    rw [List.forall_mem_cons] at ih
    have hx := ih.1 (path.child i) (path.child_ne_nil i)
    rw [NodePath.depth_child hp] at hx
    have hxs := @ihs (i + 1) ih.2
    rw [outlines, positionsFrom, List.map_append]
    cases xs with
    | nil =>
      rw [outlines, positionsFrom, List.map_nil, List.append_nil, List.intercalate_singleton]
      exact hx
    | cons y ys =>
      have hne : (positionsFrom path (i + 1) (y :: ys)).map line ≠ [] := by
        simp [positionsFrom, positions_ne_nil]
      have hne' : (positions (path.child i) x).map line ≠ [] := by simp [positions_ne_nil]
      rw [intercalate_append hne' hne, ← hxs, ← hx, outlines, List.intercalate_cons_cons]

/-- **The outline of an item** has one line for each position in it. -/
theorem outline_eq (x : Item) (path : NodePath) (hp : path ≠ []) :
    outline path.depth x = List.intercalate "\n" ((positions path x).map line) := by
  induction x generalizing path with
  | doc d =>
    rw [outline, positions, List.map_singleton, List.intercalate_singleton, line, heading,
      Heading.render]
    simp only [List.append_assoc]
  | category label items ih =>
    have hfirst : line (path, .category label items) = indent path.depth ++ label ++ "/" := by
      rw [line, heading, Heading.render, List.append_assoc]
    cases items with
    | nil =>
      rw [outline, positions, positionsFrom, List.map_singleton, List.intercalate_singleton, hfirst]
    | cons x xs =>
      have hne : (positionsFrom path 0 (x :: xs)).map line ≠ [] := by
        simp [positionsFrom, positions_ne_nil]
      have hitems := @intercalate_outlines path 0 _ ih hp
      rw [outlines] at hitems
      rw [outline, hitems, positions, List.map_cons, List.intercalate_cons_of_ne_nil hne, hfirst]

/-! ## Headings without lines -/

theorem outline_ne_nil (depth : Nat) (x : Item) : outline depth x ≠ [] := by
  have hdoc : (")" : Text) ≠ [] := by decide
  have hcategory : ("/" : Text) ≠ [] := by decide
  cases x with
  | doc d => simp [outline, hdoc]
  | category label items => cases items <;> simp [outline, hcategory]

/-- The outline of items is an empty text only if there are none, so that what follows a heading can
be told from the text as well as from the items. -/
theorem intercalate_outlines_eq_nil_iff {sep : Text} (depth : Nat) (xs : List Item) :
    sep.intercalate (outlines depth xs) = [] ↔ xs = [] := by
  cases xs with
  | nil => exact iff_of_true rfl rfl
  | cons x xs =>
    refine iff_of_false (fun h => outline_ne_nil depth x ?_) (List.cons_ne_nil x xs)
    rw [outlines] at h
    cases hxs : outlines depth xs with
    | nil => rwa [hxs, List.intercalate_singleton] at h
    | cons y ys =>
      rw [hxs, List.intercalate_cons_cons, List.append_assoc] at h
      exact (List.append_eq_nil_iff.1 h).1

end Item

/-! ## Groups and trees -/

/-- The heading of a group. -/
def Group.title (g : Group) : Text := "Sidebar: " ++ g.1

/-- The lines of a group: its heading, and one line for each position in it. -/
def Group.lines (g : Group) : List Text :=
  Group.title g :: (Item.positionsFrom (.ofGroup g.1) 0 g.2).map Item.line

theorem Group.outline_eq (g : Group) :
    Group.outline g = List.intercalate "\n" (Group.lines g) := by
  obtain ⟨name, items⟩ := g
  have hbody := @Item.intercalate_outlines_eq_nil_iff "\n" 1 items
  cases items with
  | nil =>
    rw [lines, Item.positionsFrom, List.map_nil, List.intercalate_singleton, outline]
    exact if_pos (hbody.2 rfl)
  | cons x xs =>
    have hne : (Item.positionsFrom (.ofGroup name) 0 (x :: xs)).map Item.line ≠ [] := by
      simp [Item.positionsFrom, Item.positions_ne_nil]
    have hp : NodePath.ofGroup name ≠ [] := List.cons_ne_nil _ _
    have hitems := @Item.intercalate_outlines (.ofGroup name) 0 (x :: xs)
      (fun y _ => Item.outline_eq y) hp
    rw [lines, List.intercalate_cons_of_ne_nil hne, ← hitems, outline]
    exact if_neg fun h => List.cons_ne_nil x xs (hbody.1 h)

namespace Tree

/-- The lines of a tree: those of its groups, with an empty line between two groups. -/
def lines (t : Tree) : List Text := List.intercalate [[]] (t.groups.map Group.lines)

/-- Blocks of lines that are set apart by an empty line. -/
theorem intercalate_blocks {blocks : List (List Text)} (hb : ∀ b ∈ blocks, b ≠ []) :
    List.intercalate "\n\n" (blocks.map (List.intercalate "\n")) =
      List.intercalate "\n" (List.intercalate [[]] blocks) := by
  induction blocks with
  | nil => rfl
  | cons b blocks ih =>
    rw [List.forall_mem_cons] at hb
    cases blocks with
    | nil => simp only [List.map_singleton, List.intercalate_singleton]
    | cons c blocks =>
      have hrest : List.intercalate [[]] (c :: blocks) ≠ ([] : List Text) := by
        cases blocks <;> simp [hb.2]
      have hempty : ([[]] : List Text) ++ List.intercalate [[]] (c :: blocks) ≠ [] :=
        List.cons_ne_nil _ _
      rw [List.intercalate_cons_cons, List.append_assoc, intercalate_append hb.1 hempty,
        List.singleton_append, List.intercalate_cons_of_ne_nil hrest, ← ih hb.2, List.map_cons,
        List.map_cons, List.intercalate_cons_cons]
      simp only [List.append_assoc]
      rfl

/-- **The outline of a tree** is its lines, joined by line feeds. -/
theorem outline_eq (t : Tree) : t.outline = List.intercalate "\n" t.lines := by
  have hb : ∀ b ∈ t.groups.map Group.lines, b ≠ [] := by
    intro b hb
    obtain ⟨g, -, rfl⟩ := List.mem_map.1 hb
    exact List.cons_ne_nil _ _
  rw [lines, ← intercalate_blocks hb, outline, List.map_map]
  congr 1
  exact List.map_congr_left fun g _ => Group.outline_eq g

end Tree

end Sidebar
