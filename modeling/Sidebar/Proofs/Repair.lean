import Sidebar.Proofs.Pagination

/-!
# Sidebar.Proofs.Repair: a report tells what to repair

A tree is repaired at some paths: a document there gets another id, an empty category a document.
Where only reported paths are repaired, and with ids that are new, what is wrong with the repaired
tree is what was wrong at the paths that have been left out.

* `Tree.faultyAt_iff`: where a check reports something, said without the walk of the check.
* `Item.positions_repair`: every item stays at its path, and each filled category has one more.
* `Tree.faultyAt_repair_iff`: repairing takes away the faults that are repaired and no others.  A
  document that is used again may stand behind a repaired one; the first use of its id decides.
* `Tree.repair_of_report`: one report is enough, and nothing in it is superfluous.
-/

namespace Sidebar

/-! ## Repairs -/

/-- Repairs of a tree: for each path that is repaired, the document with the new id. -/
abbrev Repairs := NodePath → Option Doc

/-- The document with the id of another one, if there is one. -/
def Doc.withIdOf (d : Doc) : Option Doc → Doc
  | none => d
  | some r => { d with id := r.id }

namespace Item

mutual

/-- The item with repairs: documents get their new ids, empty categories their new documents. -/
def repair (fix : Repairs) (path : NodePath) : Item → Item
  | .doc d => .doc (d.withIdOf (fix path))
  | .category label [] => .category label ((fix path).map .doc).toList
  | .category label (x :: xs) =>
    .category label (repair fix (path.child 0) x :: repairFrom fix path 1 xs)

/-- The items of a list of which the first has number `i`, with repairs. -/
def repairFrom (fix : Repairs) (path : NodePath) (i : Nat) : List Item → List Item
  | [] => []
  | x :: xs => repair fix (path.child i) x :: repairFrom fix path (i + 1) xs

end

/-- The document that repairs put into an empty category, with its path. -/
def added (fix : Repairs) : NodePath × Item → List (NodePath × Item)
  | (path, .category _ []) => ((fix path).map fun r => (path.child 0, .doc r)).toList
  | _ => []

variable {fix : Repairs} {xs : List Item}

theorem positionsFrom_repairFrom_of
    (h : ∀ x ∈ xs, ∀ path, positions path (repair fix path x) =
      (positions path x).flatMap fun p => (p.1, repair fix p.1 p.2) :: added fix p)
    (path : NodePath) (i : Nat) :
    positionsFrom path i (repairFrom fix path i xs) =
      (positionsFrom path i xs).flatMap fun p => (p.1, repair fix p.1 p.2) :: added fix p := by
  induction xs generalizing i with
  | nil => rfl
  | cons x xs ih =>
    rw [List.forall_mem_cons] at h
    rw [repairFrom, positionsFrom, positionsFrom, List.flatMap_append, h.1, ih h.2]

/-- **The positions of a repaired item** are those of the item, each with its repaired item, and one
more below each category that has been filled. -/
theorem positions_repair (fix : Repairs) (path : NodePath) (x : Item) :
    positions path (repair fix path x) =
      (positions path x).flatMap fun p => (p.1, repair fix p.1 p.2) :: added fix p := by
  induction x generalizing path with
  | doc d => rfl
  | category label items ih =>
    cases items with
    | nil =>
      rw [repair, positions, positions, positionsFrom, List.flatMap_singleton, repair, added]
      cases fix path <;> rfl
    | cons x xs =>
      have hitems := positionsFrom_repairFrom_of ih path 0
      rw [repairFrom] at hitems
      rw [repair, positions, hitems, positions, List.flatMap_cons, repair]
      rfl

end Item

namespace Tree

/-- The tree with repairs. -/
def repair (t : Tree) (fix : Repairs) : Tree where
  groups := t.groups.map fun g => (g.1, Item.repairFrom fix (.ofGroup g.1) 0 g.2)
  distinct := by
    have h := t.distinct
    rw [Keyed.keys] at h ⊢
    rwa [List.map_map]

variable {t : Tree} {fix : Repairs} {path : NodePath}

theorem names_repair (t : Tree) (fix : Repairs) : (t.repair fix).names = t.names := by
  rw [names, names, Keyed.keys, Keyed.keys, repair, List.map_map]
  rfl

theorem positions_repair (t : Tree) (fix : Repairs) :
    (t.repair fix).positions =
      t.positions.flatMap fun p => (p.1, p.2.repair fix p.1) :: Item.added fix p := by
  rw [positions, positions, repair, List.flatMap_map, List.flatMap_assoc]
  refine List.flatMap_congr fun g _ => ?_
  exact Item.positionsFrom_repairFrom_of (fun x _ path => Item.positions_repair fix path x) _ 0

/-- What is at a path of the tree is at this path of the repaired tree, repaired. -/
theorem item?_repair {x : Item} (h : t.item? path = some x) :
    (t.repair fix).item? path = some (x.repair fix path) := by
  rw [← mem_positions] at h ⊢
  rw [positions_repair, List.mem_flatMap]
  exact ⟨_, h, List.mem_cons_self⟩

theorem mem_added {p q : NodePath × Item} (h : q ∈ Item.added fix p) :
    ∃ label r, p.2 = .category label [] ∧ fix p.1 = some r ∧ q = (p.1.child 0, .doc r) := by
  obtain ⟨path, x⟩ := p
  match x, h with
  | .category label [], h =>
    obtain ⟨r, hr, rfl⟩ := Option.map_eq_some_iff.1 (Option.mem_toList.1 h)
    exact ⟨label, r, rfl, hr, rfl⟩

/-- What is at a path of the repaired tree was there before, or has been put into an empty
category. -/
theorem item?_of_repair {y : Item} (h : (t.repair fix).item? path = some y) :
    (∃ x, t.item? path = some x ∧ y = x.repair fix path) ∨
      ∃ q label r, t.item? q = some (.category label []) ∧ fix q = some r ∧ path = q.child 0 ∧
        y = .doc r := by
  rw [← mem_positions, positions_repair, List.mem_flatMap] at h
  obtain ⟨⟨q, x⟩, hx, h⟩ := h
  rcases List.mem_cons.1 h with h | h
  · obtain ⟨rfl, rfl⟩ := Prod.mk.inj h
    exact .inl ⟨x, mem_positions.1 hx, rfl⟩
  · obtain ⟨label, r, hl, hr, h⟩ := mem_added h
    obtain ⟨rfl, rfl⟩ := Prod.mk.inj h
    obtain rfl : x = .category label [] := hl
    exact .inr ⟨q, label, r, mem_positions.1 hx, hr, rfl, rfl⟩

end Tree

/-! ## Where something is wrong -/

/-- Something is wrong at a path: a category is empty, a document does not exist as far as that is
known, or a document before has its id. -/
inductive Tree.FaultyAt (known : Option (Text → Bool)) (t : Tree) (path : NodePath) : Prop
  | empty {label : Text} (h : t.item? path = some (.category label []))
  | missing {d : Doc} (h : t.item? path = some (.doc d)) (hk : known.all (· d.id) = false)
  | repeated {d e : Doc} {p : NodePath} (h : t.item? path = some (.doc d))
      (hp : t.item? p = some (.doc e)) (hid : e.id = d.id)
      (hb : NodePath.Before t.names p path)

namespace Tree

variable {t : Tree} {known : Option (Text → Bool)} {path : NodePath}

/-- What is listed in front of a position is what is before it. -/
theorem mem_take_positions_iff {i : Nat} {p q : NodePath × Item}
    (hi : t.positions[i]? = some p) :
    q ∈ t.positions.take i ↔ q ∈ t.positions ∧ NodePath.Before t.names q.1 p.1 := by
  obtain ⟨hil, rfl⟩ := List.getElem?_eq_some_iff.1 hi
  have hordered := List.pairwise_iff_getElem.1 t.pairwise_positions
  rw [mem_take_iff]
  constructor
  · rintro ⟨j, hj, hq⟩
    obtain ⟨hjl, rfl⟩ := List.getElem?_eq_some_iff.1 hq
    exact ⟨List.getElem_mem hjl, hordered j i hjl hil hj⟩
  · rintro ⟨hq, hb⟩
    obtain ⟨j, hjl, rfl⟩ := List.mem_iff_getElem.1 hq
    refine ⟨j, ?_, List.getElem?_eq_getElem hjl⟩
    by_contra hij
    rcases Nat.eq_or_lt_of_le (Nat.le_of_not_lt hij) with rfl | hlt
    · exact NodePath.Before.irrefl t.distinct _ hb
    · exact hb.asymm t.distinct (hordered i j hil hjl hlt)

/-- **Where a check reports something**, said without the walk of the check. -/
theorem faultyAt_iff : t.FaultyAt known path ↔ ∃ v ∈ t.faults known, v.path = path := by
  constructor
  · intro h
    rcases h with ⟨hx⟩ | ⟨hx, hk⟩ | ⟨hx, hp, hid, hb⟩
    · obtain ⟨i, hi⟩ := List.getElem?_of_mem (mem_positions.2 hx)
      exact ⟨_, mem_faults_iff.2 ⟨i, _, hi, mem_faultsAt_iff.2 (.inl ⟨_, rfl, rfl⟩)⟩, rfl⟩
    · obtain ⟨i, hi⟩ := List.getElem?_of_mem (mem_positions.2 hx)
      exact ⟨_, mem_faults_iff.2 ⟨i, _, hi, mem_faultsAt_iff.2 (.inr (.inr ⟨_, rfl, hk, rfl⟩))⟩,
        rfl⟩
    · obtain ⟨i, hi⟩ := List.getElem?_of_mem (mem_positions.2 hx)
      have hmem := (mem_take_positions_iff hi).2 ⟨mem_positions.2 hp, hb⟩
      obtain ⟨first, hf⟩ := Option.ne_none_iff_exists'.1 fun hn =>
        firstUse?_eq_none_iff.1 hn _ _ hmem hid
      exact ⟨_, mem_faults_iff.2 ⟨i, _, hi, mem_faultsAt_iff.2 (.inr (.inl ⟨_, _, rfl, hf, rfl⟩))⟩,
        rfl⟩
  · rintro ⟨v, hv, rfl⟩
    obtain ⟨i, ⟨path, x⟩, hi, hv⟩ := mem_faults_iff.1 hv
    have hx := mem_positions.1 (List.mem_of_getElem? hi)
    rcases mem_faultsAt_iff.1 hv with ⟨label, rfl, rfl⟩ | ⟨d, first, rfl, hf, rfl⟩ |
      ⟨d, rfl, hk, rfl⟩
    · exact .empty hx
    · obtain ⟨before, e, behind, hps, hid, -⟩ := firstUse?_eq_some_iff.1 hf
      have hmem : (first, .doc e) ∈ t.positions.take i := by simp [hps]
      obtain ⟨hp, hb⟩ := (mem_take_positions_iff hi).1 hmem
      exact .repeated hx (mem_positions.1 hp) hid hb
    · exact .missing hx hk

/-- The id of a document has a first use: there, or before; and there is none before that. -/
theorem exists_first_use {d : Doc} (h : t.item? path = some (.doc d)) :
    ∃ p e, t.item? p = some (.doc e) ∧ e.id = d.id ∧
      (p = path ∨ NodePath.Before t.names p path) ∧
      ∀ q f, t.item? q = some (.doc f) → f.id = e.id → ¬ NodePath.Before t.names q p := by
  have hd := mem_positions.2 h
  obtain ⟨p, hp⟩ := Option.ne_none_iff_exists'.1 fun hn => firstUse?_eq_none_iff.1 hn _ _ hd rfl
  obtain ⟨before, e, behind, hps, hid, hnone⟩ := firstUse?_eq_some_iff.1 hp
  refine ⟨p, e, mem_positions.1 (by simp [hps]), hid, ?_, fun q f hq hf hb => ?_⟩
  · have hordered := t.pairwise_positions
    rw [hps] at hd hordered
    rcases List.mem_append.1 hd with hd | hd
    · exact absurd rfl (firstUse?_eq_none_iff.1 hnone _ _ hd)
    · rcases List.mem_cons.1 hd with hd | hd
      · exact .inl (Prod.mk.inj hd).1.symm
      · exact .inr (List.rel_of_pairwise_cons (List.pairwise_append.1 hordered).2.1 hd)
  · have hi : t.positions[before.length]? = some (p, .doc e) := by simp [hps]
    have hmem := (mem_take_positions_iff hi).2 ⟨mem_positions.2 hq, hb⟩
    rw [hps, List.take_left] at hmem
    exact firstUse?_eq_none_iff.1 hnone _ _ hmem (hf.trans hid)

end Tree

/-! ## What repairs change -/

/-- The repairs are made at reported paths only, with ids that differ from each other and from all
ids in the tree, and that exist as far as this is known. -/
structure Repairs.Fit (fix : Repairs) (known : Option (Text → Bool)) (t : Tree)
    (reported : List Violation) : Prop where
  reported : ∀ p r, fix p = some r → ∃ v ∈ reported, v.path = p
  distinct : ∀ p q r s, fix p = some r → fix q = some s → r.id = s.id → p = q
  fresh : ∀ p r, fix p = some r → ∀ d ∈ t.docs, d.id ≠ r.id
  exist : ∀ p r, fix p = some r → known.all (· r.id) = true

/-- The path at which the repaired tree has the new id for a path: there, or in the category that is
filled there. -/
inductive Tree.TakesNewId (t : Tree) (p : NodePath) : NodePath → Prop
  | doc {d : Doc} (h : t.item? p = some (.doc d)) : TakesNewId t p p
  | category {label : Text} (h : t.item? p = some (.category label [])) :
      TakesNewId t p (p.child 0)

namespace Tree

variable {t : Tree} {known : Option (Text → Bool)} {fix : Repairs} {path : NodePath}

theorem TakesNewId.unique {p q r : NodePath} (hq : t.TakesNewId p q) (hr : t.TakesNewId p r) :
    q = r := by
  cases hq with
  | doc hd =>
    cases hr with
    | doc _ => rfl
    | category hc => cases hd.symm.trans hc
  | category hc =>
    cases hr with
    | doc hd => cases hd.symm.trans hc
    | category _ => rfl

/-- A document of the repaired tree is one that has been left alone, or it has a new id. -/
theorem doc_of_repair {e : Doc} (h : (t.repair fix).item? path = some (.doc e)) :
    (fix path = none ∧ t.item? path = some (.doc e)) ∨
      ∃ p r, fix p = some r ∧ e.id = r.id ∧ t.TakesNewId p path := by
  rcases item?_of_repair h with ⟨x, hx, he⟩ | ⟨p, label, r, hl, hr, rfl, he⟩
  · match x, hx, he with
    | .doc d, hx, he =>
      rw [Item.repair] at he
      cases hf : fix path with
      | none =>
        rw [hf] at he
        exact .inl ⟨rfl, he ▸ hx⟩
      | some r =>
        rw [hf] at he
        obtain rfl := Item.doc.inj he
        exact .inr ⟨path, r, hf, rfl, .doc hx⟩
    | .category label [], _, he => cases he
    | .category label (y :: ys), _, he => cases he
  · exact .inr ⟨p, r, hr, congrArg Doc.id (Item.doc.inj he), .category hl⟩

/-- An empty category of the repaired tree is one that has been left alone. -/
theorem empty_of_repair {label : Text}
    (h : (t.repair fix).item? path = some (.category label [])) :
    fix path = none ∧ t.item? path = some (.category label []) := by
  rcases item?_of_repair h with ⟨x, hx, he⟩ | ⟨p, label, r, -, -, -, he⟩
  · match x, hx, he with
    | .category label' [], hx, he =>
      rw [Item.repair] at he
      cases hf : fix path with
      | none =>
        rw [hf] at he
        exact ⟨rfl, he ▸ hx⟩
      | some r =>
        rw [hf] at he
        cases he
    | .category label' (y :: ys), _, he => cases he
    | .doc d, _, he => cases he
  · cases he

theorem doc_repair {d : Doc} (h : t.item? path = some (.doc d)) (hn : fix path = none) :
    (t.repair fix).item? path = some (.doc d) := by
  rw [item?_repair h, Item.repair, hn]
  rfl

theorem empty_repair {label : Text} (h : t.item? path = some (.category label []))
    (hn : fix path = none) : (t.repair fix).item? path = some (.category label []) := by
  rw [item?_repair h, Item.repair, hn]
  rfl

/-- What is not wrong with a tree is not repaired. -/
theorem fix_eq_none_of_not_faultyAt (hf : fix.Fit known t (t.faults known))
    (h : ¬ t.FaultyAt known path) : fix path = none := by
  cases hr : fix path with
  | none => rfl
  | some r => exact absurd (faultyAt_iff.2 (hf.reported path r hr)) h

/-- The first use of an id that exists is no fault. -/
theorem not_faultyAt_of_first_use {d : Doc} (h : t.item? path = some (.doc d))
    (hk : known.all (· d.id) = true)
    (hfirst : ∀ q f, t.item? q = some (.doc f) → f.id = d.id →
      ¬ NodePath.Before t.names q path) : ¬ t.FaultyAt known path := by
  rintro (⟨h'⟩ | ⟨h', hk'⟩ | ⟨h', hp, hid, hb⟩)
  · cases h.symm.trans h'
  · cases h.symm.trans h'
    rw [hk] at hk'
    cases hk'
  · cases h.symm.trans h'
    exact hfirst _ _ hp hid hb

/-- A document of a tree and one with a new id are told apart by their ids. -/
theorem id_ne_of_fix {d r : Doc} {p : NodePath} (hf : fix.Fit known t (t.faults known))
    (h : t.item? path = some (.doc d)) (hr : fix p = some r) : d.id ≠ r.id :=
  hf.fresh p r hr d (mem_docs_iff.2 ⟨path, h⟩)

/-- **Repairing takes away the faults that are repaired** and no others: it makes no new ones, and
what is left alone stays wrong. -/
theorem faultyAt_repair_iff (hf : fix.Fit known t (t.faults known)) :
    (t.repair fix).FaultyAt known path ↔ t.FaultyAt known path ∧ fix path = none := by
  constructor
  · rintro (⟨h⟩ | ⟨h, hk⟩ | ⟨h, hp, hid, hb⟩)
    · obtain ⟨hn, h⟩ := empty_of_repair h
      exact ⟨.empty h, hn⟩
    · rcases doc_of_repair h with ⟨hn, h⟩ | ⟨p, r, hr, he, -⟩
      · exact ⟨.missing h hk, hn⟩
      · rw [he, hf.exist p r hr] at hk
        cases hk
    · rw [names_repair] at hb
      rcases doc_of_repair h with ⟨hn, h⟩ | ⟨q, r, hr, he, htakes⟩
      · rcases doc_of_repair hp with ⟨-, hp⟩ | ⟨q, r, hr, he, -⟩
        · exact ⟨.repeated h hp hid hb, hn⟩
        · exact absurd (hid.symm.trans he) (id_ne_of_fix hf h hr)
      · rcases doc_of_repair hp with ⟨-, hp⟩ | ⟨q', r', hr', he', htakes'⟩
        · exact absurd (hid.trans he) (id_ne_of_fix hf hp hr)
        · obtain rfl := hf.distinct q' q r' r hr' hr (he'.symm.trans (hid.trans he))
          rw [htakes.unique htakes'] at hb
          exact absurd hb (NodePath.Before.irrefl t.distinct _)
  · rintro ⟨⟨h⟩ | ⟨h, hk⟩ | ⟨h, hp, hid, hb⟩, hn⟩
    · exact .empty (empty_repair h hn)
    · exact .missing (doc_repair h hn) hk
    · obtain ⟨q, f, hq, hqid, hqb, hfirst⟩ := exists_first_use h
      rcases hqb with rfl | hqb
      · exact absurd hb (hfirst _ _ hp (hid.trans hqid.symm))
      · by_cases hk : known.all (· f.id) = true
        · have hqn := fix_eq_none_of_not_faultyAt hf (not_faultyAt_of_first_use hq hk hfirst)
          exact .repeated (doc_repair h hn) (doc_repair hq hqn) hqid (names_repair t fix ▸ hqb)
        · -- the first use may have been repaired, but then none of its uses exists
          rw [hqid] at hk
          exact .missing (doc_repair h hn) (Bool.eq_false_iff.2 hk)

/-- **One report is enough, and nothing in it is superfluous.**  When a tree is refused, it is for
violations; with new ids at all the reported paths it is accepted.  As long as a reported path is
left alone it is refused again, and what is then reported is at the reported paths that have been
left alone, at each of them and nowhere else. -/
theorem repair_of_report (known : Option (Text → Bool)) {t : Tree} {e : ValidationFailure}
    (he : (t.validate (known.map .ofPred)).outcome = .error e) :
    ∃ vs, e = .violations vs ∧ ∀ fix : Repairs, fix.Fit known t vs →
      ((∀ v ∈ vs, fix v.path ≠ none) →
        ∃ w : ValidatedTree, w.tree = t.repair fix ∧
          ((t.repair fix).validate (known.map .ofPred)).outcome = .ok w) ∧
      ∀ v ∈ vs, fix v.path = none →
        ∃ ws, ((t.repair fix).validate (known.map .ofPred)).outcome = .error (.violations ws) ∧
          ∀ path, (∃ w ∈ ws, w.path = path) ↔ (∃ w ∈ vs, w.path = path) ∧ fix path = none := by
  obtain ⟨-, rfl⟩ := validate_eq_error_iff.1 he
  refine ⟨_, rfl, fun fix hf => ?_⟩
  have hleft : ∀ path, (∃ w ∈ (t.repair fix).faults known, w.path = path) ↔
      (∃ w ∈ t.faults known, w.path = path) ∧ fix path = none := by
    intro path
    rw [← faultyAt_iff, ← faultyAt_iff]
    exact faultyAt_repair_iff hf
  refine ⟨fun hall => ?_, fun v hv hn => ?_⟩
  · have hnone : (t.repair fix).faults known = [] := by
      refine List.eq_nil_iff_forall_not_mem.2 fun w hw => ?_
      obtain ⟨⟨v, hv, hp⟩, hn⟩ := (hleft w.path).1 ⟨w, hw, rfl⟩
      exact hall v hv (hp ▸ hn)
    obtain ⟨w, hw, hv⟩ := validate_of_faults_eq_nil hnone
    exact ⟨w, hw, by rw [hv]⟩
  · obtain ⟨w, hw, -⟩ := (hleft v.path).2 ⟨⟨v, hv, rfl⟩, hn⟩
    exact ⟨_, validate_eq_error_iff.2 ⟨List.ne_nil_of_mem hw, rfl⟩, hleft⟩

/-- An id that does not exist is used twice, the second time in a category; another category is
empty. -/
def faulty : Tree :=
  ⟨[("docs", [.doc ⟨"gone", "Gone"⟩,
      .category "Part" [.doc ⟨"intro", "Intro"⟩, .doc ⟨"gone", "Again"⟩]]),
    ("blog", [.category "Empty" []])], by decide⟩

/-- The ids of the documents that exist. -/
def existing (id : Text) : Bool := (["intro", "setup", "usage", "news"] : List Text).contains id

/-- A new id for each reported path. -/
def newIds : List (NodePath × Doc) :=
  [((NodePath.ofGroup "docs").child 0, ⟨"setup", ""⟩),
    (((NodePath.ofGroup "docs").child 1).child 1, ⟨"usage", ""⟩),
    ((NodePath.ofGroup "blog").child 0, ⟨"news", "News"⟩)]

/-- The new ids fit, also if some of them are left out. -/
theorem fit_newIds {es : List (NodePath × Doc)} (h : es ⊆ newIds) :
    Repairs.Fit (fun p => es.lookup p) (some existing) faulty (faulty.faults (some existing)) := by
  have hmem : ∀ p r, es.lookup p = some r → (p, r) ∈ newIds := by
    intro p r hr
    obtain ⟨before, behind, rfl, -⟩ := List.lookup_eq_some_iff.1 hr
    exact h (by simp)
  have hreported : ∀ e ∈ newIds, ∃ v ∈ faulty.faults (some existing), v.path = e.1 := by decide
  have hdistinct : ∀ e ∈ newIds, ∀ e' ∈ newIds, e.2.id = e'.2.id → e.1 = e'.1 := by decide
  have hfresh : ∀ e ∈ newIds, ∀ d ∈ faulty.docs, d.id ≠ e.2.id := by decide
  have hexist : ∀ e ∈ newIds, existing e.2.id = true := by decide
  exact ⟨fun p r hr => hreported _ (hmem p r hr),
    fun p q r s hr hs => hdistinct _ (hmem p r hr) _ (hmem q s hs),
    fun p r hr => hfresh _ (hmem p r hr), fun p r hr => hexist _ (hmem p r hr)⟩

/-- With all new ids the tree is accepted; with the first one left out it is refused for this one
alone, although the id is not used again any more. -/
theorem repair_of_faulty :
    (faulty.validate (some (.ofPred existing))).outcome =
        .error (.violations (faulty.faults (some existing))) ∧
      (∃ w, ((faulty.repair fun p => newIds.lookup p).validate
        (some (.ofPred existing))).outcome = .ok w) ∧
      ∃ ws, ((faulty.repair fun p => newIds.tail.lookup p).validate
        (some (.ofPred existing))).outcome = .error (.violations ws) ∧
        ws ≠ [] ∧ ∀ w ∈ ws, w.path = (NodePath.ofGroup "docs").child 0 := by
  have hne : faulty.faults (some existing) ≠ [] := by decide
  have he := validate_eq_error_iff.2 ⟨hne, rfl⟩
  obtain ⟨vs, hvs, hrepair⟩ := repair_of_report (some existing) he
  obtain rfl := ValidationFailure.violations.inj hvs
  have hall := (hrepair _ (fit_newIds (List.Subset.refl _))).1 (by decide)
  have hleft := (hrepair _ (fit_newIds fun _ => List.mem_of_mem_tail)).2
  refine ⟨he, ?_, ?_⟩
  · obtain ⟨w, -, hw⟩ := hall
    exact ⟨w, hw⟩
  · obtain ⟨v, hv, hn⟩ : ∃ v ∈ faulty.faults (some existing),
        newIds.tail.lookup v.path = none := by decide
    have honly : ∀ v ∈ faulty.faults (some existing), newIds.tail.lookup v.path = none →
        v.path = (NodePath.ofGroup "docs").child 0 := by decide
    obtain ⟨ws, hws, hpaths⟩ := hleft v hv hn
    obtain ⟨w, hw, -⟩ := (hpaths v.path).2 ⟨⟨v, hv, rfl⟩, hn⟩
    refine ⟨ws, hws, List.ne_nil_of_mem hw, fun w hw => ?_⟩
    obtain ⟨⟨v, hv, hp⟩, hn⟩ := (hpaths w.path).1 ⟨w, hw, rfl⟩
    rw [← hp] at hn ⊢
    exact honly v hv hn

end Tree

end Sidebar
