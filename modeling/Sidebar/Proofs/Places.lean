import Mathlib.Data.List.Lex
import Mathlib.Data.List.Nodup
import Sidebar.Navigation
import Sidebar.Tree.Positions

/-!
# Sidebar.Proofs.Places: the items of a tree, each with its path and the categories around it

`Tree.places` lists every item of a tree with its path and the labels of the categories that lead
to it; `Tree.reach?` follows a single path.

* `Tree.mem_places`: what is listed is what a path leads to.
* `Tree.pairwise_places`: it is listed in document order, `NodePath.Before`.
* `Tree.positions_eq`, `Item.trailsAll_eq`: the positions of a tree and the trails of its documents
  are two views of this list.
-/

namespace Sidebar

/-- Induction over the items in an item. -/
@[induction_eliminator]
theorem Item.induction {motive : Item → Prop} (doc : ∀ d, motive (.doc d))
    (category : ∀ label items, (∀ x ∈ items, motive x) → motive (.category label items)) :
    ∀ x, motive x
  | .doc d => doc d
  | .category label items => category label items fun x _ => Item.induction doc category x

/-! ## Document order -/

/-- Of two steps from one place, the first leads to what is written first; `names` are the groups
in the order in which they are declared. -/
def PathStep.Before (names : List Text) : PathStep → PathStep → Prop
  | .name g, .name h => [g, h].Sublist names
  | .index i, .index j => i < j
  | _, _ => False

/-- Of two paths, the first leads to what is met first in reading a tree depth first: to something
around the other item, or into an earlier branch. -/
def NodePath.Before (names : List Text) (p q : NodePath) : Prop :=
  List.Lex (PathStep.Before names) p q

theorem NodePath.Before.append_left {names : List Text} {p q : NodePath}
    (h : NodePath.Before names p q) (path : NodePath) :
    NodePath.Before names (path ++ p) (path ++ q) :=
  List.Lex.append_left _ h path

theorem PathStep.Before.asymm {names : List Text} (hn : names.Nodup) {a b : PathStep}
    (h : PathStep.Before names a b) : ¬ PathStep.Before names b a := by
  -- of two names, the first has the lower number
  have hnames : names.Pairwise fun g g' => names.idxOf g < names.idxOf g' := by
    rw [List.pairwise_iff_getElem]
    intro i j hi hj hij
    rwa [hn.idxOf_getElem i hi, hn.idxOf_getElem j hj]
  rw [List.pairwise_iff_forall_sublist] at hnames
  cases a with
  | name g =>
    cases b with
    | name g' => exact fun h' => Nat.lt_asymm (hnames h) (hnames h')
    | index j => exact h.elim
  | index i =>
    cases b with
    | name g' => exact h.elim
    | index j => exact fun h' => Int.lt_asymm h h'

theorem NodePath.Before.asymm {names : List Text} (hn : names.Nodup) {p q : NodePath}
    (h : NodePath.Before names p q) : ¬ NodePath.Before names q p := by
  have : Std.Asymm (PathStep.Before names) := ⟨fun _ _ h => h.asymm hn⟩
  exact (List.Lex.asymm (PathStep.Before names)).asymm p q h

theorem NodePath.Before.irrefl {names : List Text} (hn : names.Nodup) (p : NodePath) :
    ¬ NodePath.Before names p p := fun h => h.asymm hn h

namespace Item

/-! ## Places in an item -/

/-- An item with the steps that lead to it and the labels of the categories on the way. -/
@[ext]
structure Place where
  steps : List PathStep
  labels : List Text
  item : Item

namespace Place

/-- The place with one more step before its steps. -/
def after (step : PathStep) (p : Place) : Place := { p with steps := step :: p.steps }

/-- The place with one more category around it. -/
def under (label : Text) (p : Place) : Place := { p with labels := label :: p.labels }

end Place

mutual

/-- The places in an item, itself first, in document order. -/
def places : Item → List Place
  | .doc d => [⟨[], [], .doc d⟩]
  | .category label items =>
    ⟨[], [], .category label items⟩ :: (placesFrom 0 items).map (Place.under label)

/-- The places in a list of items of which the first has number `i`. -/
def placesFrom (i : Nat) : List Item → List Place
  | [] => []
  | x :: xs => (places x).map (Place.after (.index i)) ++ placesFrom (i + 1) xs

end

/-- What steps lead to from an item, with the labels of the categories on the way. -/
def reach? : List PathStep → Item → Option (List Text × Item)
  | [], x => some ([], x)
  | .index (.ofNat i) :: steps, .category label items =>
    items[i]?.bind fun x => (reach? steps x).map fun r => (label :: r.1, r.2)
  | _ :: _, _ => none

/-- Only indices lead from an item to another. -/
theorem exists_indices_of_reach? {x : Item} {steps : List PathStep} {r : List Text × Item}
    (h : x.reach? steps = some r) : ∃ is : List Nat, steps = is.map fun i : Nat => .index i := by
  induction steps generalizing x r with
  | nil => exact ⟨[], rfl⟩
  | cons step steps ih =>
    match step, x, h with
    | .index (.ofNat i), .category label items, h =>
      obtain ⟨y, -, h⟩ := Option.bind_eq_some_iff.1 h
      obtain ⟨r', hr, -⟩ := Option.map_eq_some_iff.1 h
      obtain ⟨is, rfl⟩ := ih hr
      exact ⟨i :: is, rfl⟩

theorem mem_placesFrom {i : Nat} {xs : List Item} {p : Place} :
    p ∈ placesFrom i xs ↔
      ∃ j x q, xs[j]? = some x ∧ q ∈ places x ∧ p = q.after (.index (i + j : Nat)) := by
  induction xs generalizing i with
  | nil => simp [placesFrom]
  | cons x xs ih =>
    rw [placesFrom, List.mem_append, List.mem_map, ih]
    constructor
    · rintro (⟨q, hq, rfl⟩ | ⟨j, y, q, hy, hq, rfl⟩)
      · exact ⟨0, x, q, rfl, hq, rfl⟩
      · exact ⟨j + 1, y, q, hy, hq, by rw [Nat.add_right_comm]; rfl⟩
    · rintro ⟨_ | j, y, q, hy, hq, rfl⟩
      · exact .inl ⟨q, Option.some.inj hy ▸ hq, rfl⟩
      · exact .inr ⟨j, y, q, hy, hq, by rw [Nat.add_right_comm]; rfl⟩

/-- The places in an item are those that steps lead to. -/
theorem mem_places {x : Item} {p : Place} :
    p ∈ places x ↔ x.reach? p.steps = some (p.labels, p.item) := by
  obtain ⟨steps, labels, item⟩ := p
  induction x generalizing steps labels with
  | doc d =>
    cases steps with
    | nil => simp [places, reach?, eq_comm]
    | cons step steps => simp [places, reach?]
  | category label items ih =>
    rw [places, List.mem_cons, List.mem_map]
    constructor
    · rintro (h | ⟨q, hq, h⟩)
      · obtain ⟨rfl, rfl, rfl⟩ := Place.mk.inj h
        rfl
      · obtain ⟨j, x, ⟨s, l, y⟩, hx, hr, rfl⟩ := mem_placesFrom.1 hq
        obtain ⟨rfl, rfl, rfl⟩ := Place.mk.inj h
        have hy := (ih x (List.mem_of_getElem? hx) s l).1 hr
        rw [Nat.zero_add]
        show (items[j]?.bind fun x => (reach? s x).map _) = _
        rw [hx, Option.bind_some, hy]
        rfl
    · intro h
      match steps, h with
      | [], h =>
        obtain ⟨rfl, rfl⟩ := Prod.mk.inj (Option.some.inj h)
        exact .inl rfl
      | .index (.ofNat j) :: s, h =>
        obtain ⟨x, hx, h⟩ := Option.bind_eq_some_iff.1 h
        obtain ⟨⟨l, y⟩, hr, h⟩ := Option.map_eq_some_iff.1 h
        obtain ⟨rfl, rfl⟩ := Prod.mk.inj h
        have hy := (ih x (List.mem_of_getElem? hx) s l).2 hr
        refine .inr ⟨⟨.index j :: s, l, y⟩, ?_, rfl⟩
        exact mem_placesFrom.2 ⟨j, x, ⟨s, l, y⟩, hx, hy, by rw [Nat.zero_add]; rfl⟩
      | .index (.negSucc _) :: _, h => simp [reach?] at h
      | .name _ :: _, h => simp [reach?] at h

/-- The places in a list are in document order when those in each of its items are. -/
theorem pairwise_placesFrom (names : List Text) {xs : List Item}
    (h : ∀ x ∈ xs, (places x).Pairwise fun p q => NodePath.Before names p.steps q.steps) (i : Nat) :
    (placesFrom i xs).Pairwise fun p q => NodePath.Before names p.steps q.steps := by
  induction xs generalizing i with
  | nil => exact List.Pairwise.nil
  | cons x xs ih =>
    rw [placesFrom, List.pairwise_append, List.pairwise_map]
    refine ⟨(h x (by simp)).imp fun hp => hp.append_left [_],
      ih (fun y hy => h y (by simp [hy])) (i + 1), fun p hp q hq => ?_⟩
    obtain ⟨p', -, rfl⟩ := List.mem_map.1 hp
    obtain ⟨j, y, q', -, -, rfl⟩ := mem_placesFrom.1 hq
    refine List.Lex.rel ?_
    show (i : Int) < ((i + 1 + j : Nat) : Int)
    omega

theorem pairwise_places (names : List Text) (x : Item) :
    (places x).Pairwise fun p q => NodePath.Before names p.steps q.steps := by
  induction x with
  | doc d => exact List.pairwise_singleton _ _
  | category label items ih =>
    rw [places, List.pairwise_cons, List.pairwise_map]
    refine ⟨fun p hp => ?_, pairwise_placesFrom names ih 0⟩
    obtain ⟨p', hp', rfl⟩ := List.mem_map.1 hp
    obtain ⟨j, y, q, -, -, rfl⟩ := mem_placesFrom.1 hp'
    exact List.Lex.nil

/-! ## Two views -/

theorem positionsFrom_eq_of {xs : List Item} (h : ∀ x ∈ xs, ∀ path : NodePath,
    positions path x = (places x).map fun p => (path ++ p.steps, p.item)) (path : NodePath)
    (i : Nat) :
    positionsFrom path i xs = (placesFrom i xs).map fun p => (path ++ p.steps, p.item) := by
  induction xs generalizing i with
  | nil => rfl
  | cons x xs ih =>
    rw [positionsFrom, placesFrom, List.map_append, List.map_map, h x (by simp),
      ih (fun y hy => h y (by simp [hy]))]
    simp [Function.comp_def, NodePath.child, Place.after]

theorem positions_eq (path : NodePath) (x : Item) :
    positions path x = (places x).map fun p => (path ++ p.steps, p.item) := by
  induction x generalizing path with
  | doc d => simp [positions, places]
  | category label items ih =>
    rw [positions, places, positionsFrom_eq_of ih, List.map_cons, List.map_map, List.append_nil]
    rfl

/-- The document at a place with the labels around it, `above` being those around the whole. -/
def Place.trail? (above : List Text) (p : Place) : Option (Doc × List Text) :=
  p.item.doc?.map fun d => (d, above ++ p.labels)

theorem trailsAll_eq_of {xs : List Item} (h : ∀ x ∈ xs, ∀ above,
    trails above x = (places x).filterMap (Place.trail? above)) (above : List Text) (i : Nat) :
    trailsAll above xs = (placesFrom i xs).filterMap (Place.trail? above) := by
  induction xs generalizing i with
  | nil => rfl
  | cons x xs ih =>
    rw [trailsAll, placesFrom, List.filterMap_append, List.filterMap_map, h x (by simp),
      ih (fun y hy => h y (by simp [hy]))]
    rfl

theorem trails_eq (above : List Text) (x : Item) :
    trails above x = (places x).filterMap (Place.trail? above) := by
  induction x generalizing above with
  | doc d => simp [trails, places, Place.trail?, doc?]
  | category label items ih =>
    have hu : Place.trail? above ∘ Place.under label = Place.trail? (above ++ [label]) := by
      funext p
      simp [Place.trail?, Place.under]
    rw [trails, places, trailsAll_eq_of ih _ 0, List.filterMap_cons_none rfl, List.filterMap_map,
      hu]

/-- The trails of documents are the places that hold documents. -/
theorem trailsAll_eq (above : List Text) (xs : List Item) :
    trailsAll above xs = (placesFrom 0 xs).filterMap (Place.trail? above) :=
  trailsAll_eq_of (fun x _ above => trails_eq above x) above 0

theorem docs_eq (xs : List Item) : docs xs = (placesFrom 0 xs).filterMap fun p => p.item.doc? := by
  rw [docs, trailsAll_eq, List.map_filterMap]
  simp [Place.trail?, Function.comp_def]

end Item

/-! ## Places in a tree -/

namespace Tree

open Item

variable {t : Tree}

/-- The places in a tree, in document order. -/
def places (t : Tree) : List Place :=
  t.groups.flatMap fun g => (placesFrom 0 g.2).map (Place.after (.name g.1))

/-- What a path leads to, with the labels of the categories on the way. -/
def reach? (t : Tree) : NodePath → Option (List Text × Item)
  | .name name :: .index (.ofNat i) :: steps =>
    (t.items? name).bind fun items => items[i]?.bind (Item.reach? steps)
  | _ => none

theorem items?_eq_some_iff {name : Text} {items : List Item} :
    t.items? name = some items ↔ (name, items) ∈ t.groups :=
  Keyed.lookup_eq_some_iff t.distinct

/-- The places in a tree are those that paths lead to. -/
theorem mem_places {p : Place} : p ∈ t.places ↔ t.reach? p.steps = some (p.labels, p.item) := by
  rw [places, List.mem_flatMap]
  constructor
  · rintro ⟨⟨name, items⟩, hg, hp⟩
    obtain ⟨q, hq, rfl⟩ := List.mem_map.1 hp
    obtain ⟨j, x, r, hx, hr, rfl⟩ := mem_placesFrom.1 hq
    rw [Nat.zero_add]
    show ((t.items? name).bind fun items => items[j]?.bind (Item.reach? r.steps)) = _
    rw [items?_eq_some_iff.2 hg, Option.bind_some, hx, Option.bind_some]
    exact Item.mem_places.1 hr
  · obtain ⟨steps, labels, item⟩ := p
    intro h
    dsimp only at h
    unfold reach? at h
    split at h
    · next name j s =>
      obtain ⟨items, hg, h⟩ := Option.bind_eq_some_iff.1 h
      obtain ⟨x, hx, h⟩ := Option.bind_eq_some_iff.1 h
      refine ⟨(name, items), items?_eq_some_iff.1 hg, List.mem_map.2 ⟨⟨.index j :: s, labels, item⟩,
        mem_placesFrom.2 ⟨j, x, ⟨s, labels, item⟩, hx, Item.mem_places.2 h, ?_⟩, rfl⟩⟩
      rw [Nat.zero_add]
      rfl
    · cases h

/-- The places in a group are those that paths through the group lead to. -/
theorem mem_placesFrom_iff_reach? {name : Text} {items : List Item}
    (hg : (name, items) ∈ t.groups) {p : Place} :
    p ∈ placesFrom 0 items ↔ t.reach? (.name name :: p.steps) = some (p.labels, p.item) := by
  constructor
  · intro hp
    exact mem_places.1 (List.mem_flatMap.2 ⟨_, hg, List.mem_map.2 ⟨p, hp, rfl⟩⟩)
  · intro h
    obtain ⟨⟨name', items'⟩, hg', hm⟩ :=
      List.mem_flatMap.1 (mem_places (p := p.after (.name name)) |>.2 h)
    obtain ⟨q, hq, he⟩ := List.mem_map.1 hm
    obtain ⟨hs, hl, hx⟩ := Place.mk.inj he
    obtain ⟨hn, hs'⟩ := List.cons_eq_cons.1 hs
    obtain rfl := PathStep.name.inj hn
    obtain rfl := Option.some.inj ((items?_eq_some_iff.2 hg').symm.trans (items?_eq_some_iff.2 hg))
    exact Place.ext hs' hl hx ▸ hq

/-- The places in a tree are listed in document order. -/
theorem pairwise_places (t : Tree) :
    t.places.Pairwise fun p q => NodePath.Before t.names p.steps q.steps := by
  rw [places, List.pairwise_flatMap]
  refine ⟨fun g _ => ?_, List.pairwise_iff_forall_sublist.2 fun {g h} hs p hp q hq => ?_⟩
  · rw [List.pairwise_map]
    exact (pairwise_placesFrom t.names (fun x _ => Item.pairwise_places t.names x) 0).imp
      fun hp => hp.append_left [_]
  · obtain ⟨p', -, rfl⟩ := List.mem_map.1 hp
    obtain ⟨q', -, rfl⟩ := List.mem_map.1 hq
    exact List.Lex.rel (hs.map _)

theorem positions_eq (t : Tree) : t.positions = t.places.map fun p => (p.steps, p.item) := by
  rw [positions, places, List.map_flatMap]
  refine List.flatMap_congr fun g _ => ?_
  rw [positionsFrom_eq_of (fun x _ path => Item.positions_eq path x), List.map_map]
  rfl

/-- The documents of a tree are those of its groups, one group after the other. -/
theorem docs_eq (t : Tree) : t.docs = t.groups.flatMap fun g => Item.docs g.2 := by
  rw [docs, docsOf, positions_eq, List.filterMap_map, places, List.filterMap_flatMap]
  refine List.flatMap_congr fun g _ => ?_
  rw [Item.docs_eq, List.filterMap_map]
  rfl

end Tree

end Sidebar
