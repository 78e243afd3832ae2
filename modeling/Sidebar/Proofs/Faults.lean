import Mathlib.Data.List.Pairwise
import Sidebar.Proofs.Places
import Sidebar.Validation

/-!
# Sidebar.Proofs.Faults: which violations a check reports

`Tree.faults` says what is wrong with a tree position by position: an id is a duplicate where a
document before it has the same id, and the first such document is the one that is named.

* `firstUse?` is what the ids met so far stand for, and `checkItems_eq` carries it through a walk.
* `checkItem_agrees`, `checkItems_agrees`: each violation that is kept is logged, in the same order.
* `validate_reports_faults`: a check reports these faults, in document order, and nothing else; it
  succeeds exactly for trees with distinct ids, without empty categories, whose documents exist.
-/

namespace Sidebar

/-! ## Faults -/

/-- The item is a document with this id. -/
def Item.hasId (id : Text) : Item → Bool
  | .doc d => d.id = id
  | .category .. => false

/-- The path of the first document with an id. -/
def firstUse? (ps : List (NodePath × Item)) (id : Text) : Option NodePath :=
  (ps.find? fun p => p.2.hasId id).map (·.1)

/-- What is wrong with a document because of those before it. -/
def repeatedAt (before : List (NodePath × Item)) (path : NodePath) (d : Doc) : List Violation :=
  match firstUse? before d.id with
  | none => []
  | some first =>
    [{ kind := .duplicateId
       path := path
       docId := some d.id
       label := some d.label
       message := "doc id " ++ d.id.quoted ++ " already used at " ++ first.render
       firstPath := some first }]

/-- What is wrong with a document because of the documents that exist; `known` decides this, if it
is given. -/
def missingAt (known : Option (Text → Bool)) (path : NodePath) (d : Doc) : List Violation :=
  if known.all (· d.id) then []
  else
    [{ kind := .unknownDocReference
       path := path
       docId := some d.id
       label := some d.label
       message := "doc id " ++ d.id.quoted ++ " has no matching document"
       firstPath := none }]

/-- What is wrong at a position, `before` being the positions before it. -/
def faultsAt (known : Option (Text → Bool)) (before : List (NodePath × Item)) :
    NodePath × Item → List Violation
  | (path, .doc d) => repeatedAt before path d ++ missingAt known path d
  | (path, .category label []) =>
    [{ kind := .emptyCategory
       path := path
       docId := none
       label := some label
       message := "category " ++ label.quoted ++ " has no items"
       firstPath := none }]
  | (_, .category _ (_ :: _)) => []

/-- What is wrong with a tree, position by position. -/
def Tree.faults (known : Option (Text → Bool)) (t : Tree) : List Violation :=
  t.positions.zipIdx.flatMap fun e => faultsAt known (t.positions.take e.2) e.1

/-- What is reported at a position: an empty category, an id of which there is a first use before, a
document that does not exist. -/
theorem mem_faultsAt_iff {known : Option (Text → Bool)} {before : List (NodePath × Item)}
    {path : NodePath} {x : Item} {v : Violation} :
    v ∈ faultsAt known before (path, x) ↔
      (∃ label, x = .category label [] ∧ v = .emptyCategory path label) ∨
      (∃ d first, x = .doc d ∧ firstUse? before d.id = some first ∧
        v = .duplicateId path d first) ∨
      ∃ d, x = .doc d ∧ known.all (· d.id) = false ∧ v = .unknownDoc path d := by
  match x with
  | .category label [] => simp [faultsAt, Violation.emptyCategory]
  | .category label (y :: ys) => simp [faultsAt]
  | .doc d =>
    have hrepeated : v ∈ repeatedAt before path d ↔
        ∃ first, firstUse? before d.id = some first ∧ v = .duplicateId path d first := by
      unfold repeatedAt
      cases firstUse? before d.id <;> simp [Violation.duplicateId]
    have hmissing : v ∈ missingAt known path d ↔
        known.all (· d.id) = false ∧ v = .unknownDoc path d := by
      unfold missingAt
      cases known.all (· d.id) <;> simp [Violation.unknownDoc]
    rw [faultsAt, List.mem_append, hrepeated, hmissing]
    simp

theorem Tree.mem_faults_iff {known : Option (Text → Bool)} {t : Tree} {v : Violation} :
    v ∈ t.faults known ↔
      ∃ i p, t.positions[i]? = some p ∧ v ∈ faultsAt known (t.positions.take i) p := by
  rw [faults, List.mem_flatMap]
  constructor
  · rintro ⟨⟨p, i⟩, hp, hv⟩
    exact ⟨i, p, List.mk_mem_zipIdx_iff_getElem?.1 hp, hv⟩
  · rintro ⟨i, p, hp, hv⟩
    exact ⟨(p, i), List.mk_mem_zipIdx_iff_getElem?.2 hp, hv⟩

/-! ## The ids met so far -/

/-- The ids met in a walk are those of the positions behind it, each with its first path. -/
def Seen.Records (seen : Seen) (before : List (NodePath × Item)) : Prop :=
  ∀ id, seen.lookup id = firstUse? before id

theorem firstUse?_concat (before : List (NodePath × Item)) (p : NodePath × Item) (id : Text) :
    firstUse? (before ++ [p]) id =
      (firstUse? before id).or (if p.2.hasId id then some p.1 else none) := by
  rw [firstUse?, List.find?_append, Option.map_or, ← firstUse?]
  congr 1
  by_cases h : p.2.hasId id = true <;> simp [h]

theorem Seen.Records.category {seen : Seen} {before : List (NodePath × Item)}
    (h : seen.Records before) (path : NodePath) (label : Text) (items : List Item) :
    seen.Records (before ++ [(path, .category label items)]) := by
  intro id
  rw [firstUse?_concat, h id]
  simp [Item.hasId]

theorem visit_eq {seen : Seen} {before : List (NodePath × Item)} (h : seen.Records before)
    (path : NodePath) (d : Doc) :
    (seen.visit path d).1.violations = repeatedAt before path d ∧
      Seen.Records (seen.visit path d).2 (before ++ [(path, .doc d)]) := by
  have hd := h d.id
  unfold Seen.visit repeatedAt
  cases hf : firstUse? before d.id with
  | some first =>
    rw [hd, hf]
    refine ⟨rfl, fun id => ?_⟩
    rw [firstUse?_concat, h id]
    by_cases hid : d.id = id
    · rw [← hid, hf]
      rfl
    · simp [Item.hasId, hid]
  | none =>
    rw [hd, hf]
    refine ⟨rfl, fun id => ?_⟩
    rw [firstUse?_concat, List.lookup_cons]
    by_cases hid : id = d.id
    · subst hid
      simp [hf, Item.hasId]
    · have hb : (id == d.id) = false := beq_eq_false_iff_ne.2 hid
      rw [hb, h id]
      simp [Item.hasId, Ne.symm hid]

theorem lookupDoc_eq (known : Option (Text → Bool)) (path : NodePath) (d : Doc) :
    (lookupDoc (known.map .ofPred) path d).1.violations = missingAt known path d ∧
      (lookupDoc (known.map .ofPred) path d).2 = none := by
  cases known with
  | none => exact ⟨rfl, rfl⟩
  | some p =>
    cases h : p d.id <;>
      simp [lookupDoc, missingAt, Registry.ofPred, h, Violation.unknownDoc, Recorded.of,
        Recorded.nothing]

/-- **Step**: checking one item reports its faults, never fails and records the item. -/
theorem checkItem_eq (known : Option (Text → Bool)) {seen : Seen}
    {before : List (NodePath × Item)} (h : seen.Records before) (p : NodePath × Item) :
    (checkItem (known.map .ofPred) seen p).violations = faultsAt known before p ∧
      (checkItem (known.map .ofPred) seen p).failure = none ∧
      (checkItem (known.map .ofPred) seen p).seen.Records (before ++ [p]) := by
  obtain ⟨path, item⟩ := p
  cases item with
  | doc d =>
    obtain ⟨h1, h2⟩ := visit_eq h path d
    obtain ⟨h3, h4⟩ := lookupDoc_eq known path d
    refine ⟨?_, h4, h2⟩
    rw [checkItem, Recorded.violations_append, h1, h3, faultsAt]
  | category label items =>
    cases items with
    | nil => exact ⟨rfl, rfl, h.category path label []⟩
    | cons x xs => exact ⟨rfl, rfl, h.category path label (x :: xs)⟩

/-- **Run**: checking items one after the other reports the faults of each of them. -/
theorem checkItems_eq (known : Option (Text → Bool)) {seen : Seen}
    {before : List (NodePath × Item)} (h : seen.Records before) (ps : List (NodePath × Item)) :
    (checkItems (known.map .ofPred) seen ps).violations =
        ((ps.zipIdx before.length).flatMap fun e => faultsAt known ((before ++ ps).take e.2) e.1) ∧
      (checkItems (known.map .ofPred) seen ps).failure = none := by
  induction ps generalizing seen before with
  | nil => exact ⟨rfl, rfl⟩
  | cons p ps ih =>
    obtain ⟨hv, hf, hs⟩ := checkItem_eq known h p
    obtain ⟨ihv, ihf⟩ := ih hs
    rw [List.length_append, List.append_assoc] at ihv
    rw [checkItems]
    simp only [hf]
    refine ⟨?_, ihf⟩
    rw [Recorded.violations_append, hv, ihv, List.zipIdx_cons, List.flatMap_cons, List.take_left]
    rfl

/-! ## What is kept and what is logged -/

/-- The log has one record for each violation, in the same order. -/
def Recorded.Agrees (r : Recorded) : Prop := r.log = r.violations.map .ofViolation

theorem Recorded.agrees_nothing : nothing.Agrees := rfl

theorem Recorded.agrees_of (v : Violation) : (of v).Agrees := rfl

theorem Recorded.Agrees.append {r s : Recorded} (hr : r.Agrees) (hs : s.Agrees) :
    (r ++ s).Agrees := by
  rw [Agrees, log_append, violations_append, List.map_append, hr, hs]

section Agreement

variable (registry : Option Registry) (seen : Seen)

theorem visit_agrees (path : NodePath) (d : Doc) : (seen.visit path d).1.Agrees := by
  unfold Seen.visit
  split
  · exact Recorded.agrees_of _
  · exact Recorded.agrees_nothing

theorem lookupDoc_agrees (path : NodePath) (d : Doc) : (lookupDoc registry path d).1.Agrees := by
  unfold lookupDoc
  split
  · exact Recorded.agrees_nothing
  · split
    · exact Recorded.agrees_nothing
    · exact Recorded.agrees_of _
    · exact Recorded.agrees_nothing

/-- **Step**: at one item, each violation that is kept is logged. -/
theorem checkItem_agrees (p : NodePath × Item) : (checkItem registry seen p).Agrees := by
  match p with
  | (path, .doc d) => exact (visit_agrees seen path d).append (lookupDoc_agrees registry path d)
  | (path, .category label []) => exact Recorded.agrees_of _
  | (_, .category _ (_ :: _)) => exact Recorded.agrees_nothing

/-- **Run**: at items one after the other, too, also when a lookup ends the walk. -/
theorem checkItems_agrees (ps : List (NodePath × Item)) :
    (checkItems registry seen ps).Agrees := by
  induction ps generalizing seen with
  | nil => exact Recorded.agrees_nothing
  | cons p ps ih =>
    have hp := checkItem_agrees registry seen p
    rw [checkItems]
    dsimp only
    split
    · exact hp
    · exact hp.append (ih _)

end Agreement

/-! ## Whole trees -/

/-- The walk over a whole tree starts with nothing met. -/
theorem findings_eq (known : Option (Text → Bool)) (t : Tree) :
    (checkItems (known.map .ofPred) [] t.positions).violations = t.faults known ∧
      (checkItems (known.map .ofPred) [] t.positions).failure = none := by
  have h : Seen.Records [] [] := fun _ => rfl
  exact checkItems_eq known h t.positions

/-- A tree without faults is wrapped, and its groups and documents are logged. -/
theorem validate_of_faults_eq_nil {known : Option (Text → Bool)} {t : Tree}
    (h : t.faults known = []) :
    ∃ v : ValidatedTree, v.tree = t ∧ t.validate (known.map .ofPred) =
      ⟨[.validated t.names (checkItems (known.map .ofPred) [] t.positions).seen.length],
        .ok v⟩ := by
  obtain ⟨hv, hf⟩ := findings_eq known t
  rw [h] at hv
  have hlog := checkItems_agrees (known.map .ofPred) [] t.positions
  rw [Recorded.Agrees, hv] at hlog
  refine ⟨⟨t, (nodup_of_findings hv hf).1⟩, rfl, ?_⟩
  unfold Tree.validate
  dsimp only
  split
  · next hl => cases hf.symm.trans hl
  · rw [hlog]
    rfl
  · next hn => cases hv.symm.trans hn

/-- A tree with faults is refused with all of them, and each is logged. -/
theorem validate_of_faults_ne_nil {known : Option (Text → Bool)} {t : Tree}
    (h : t.faults known ≠ []) :
    t.validate (known.map .ofPred) =
      ⟨(t.faults known).map .ofViolation, .error (.violations (t.faults known))⟩ := by
  obtain ⟨hv, hf⟩ := findings_eq known t
  have hlog := checkItems_agrees (known.map .ofPred) [] t.positions
  rw [Recorded.Agrees, hv] at hlog
  unfold Tree.validate
  dsimp only
  split
  · next hl => cases hf.symm.trans hl
  · next hn => exact absurd (hv.symm.trans hn) h
  · next hn => rw [hlog, ← hv, hn]

theorem outcome_validate (known : Option (Text → Bool)) (t : Tree) :
    (t.validate (known.map .ofPred)).outcome.map ValidatedTree.tree =
      if t.faults known = [] then .ok t else .error (.violations (t.faults known)) := by
  by_cases h : t.faults known = []
  · obtain ⟨v, hv, he⟩ := validate_of_faults_eq_nil h
    rw [if_pos h, he]
    exact congrArg Except.ok hv
  · rw [if_neg h, validate_of_faults_ne_nil h]
    rfl

/-! ## Trees without faults -/

theorem firstUse?_eq_none_iff {ps : List (NodePath × Item)} {id : Text} :
    firstUse? ps id = none ↔ ∀ path d, (path, Item.doc d) ∈ ps → d.id ≠ id := by
  rw [firstUse?, Option.map_eq_none_iff, List.find?_eq_none]
  constructor
  · intro h path d hd he
    exact h _ hd (by simp [Item.hasId, he])
  · rintro h ⟨path, _ | _⟩ hp
    · simpa [Item.hasId] using h path _ hp
    · simp [Item.hasId]

theorem firstUse?_eq_some_iff {ps : List (NodePath × Item)} {id : Text} {first : NodePath} :
    firstUse? ps id = some first ↔ ∃ before d behind,
      ps = before ++ (first, Item.doc d) :: behind ∧ d.id = id ∧ firstUse? before id = none := by
  rw [firstUse?, Option.map_eq_some_iff]
  constructor
  · rintro ⟨⟨path, x⟩, hp, rfl⟩
    obtain ⟨hx, before, behind, rfl, hb⟩ := List.find?_eq_some_iff_append.1 hp
    cases x with
    | doc d =>
      refine ⟨before, d, behind, rfl, by simpa [Item.hasId] using hx, ?_⟩
      rw [firstUse?, Option.map_eq_none_iff, List.find?_eq_none]
      exact fun q hq => by simpa using hb q hq
    | category label items => cases hx
  · rintro ⟨before, d, behind, rfl, hid, hb⟩
    rw [firstUse?, Option.map_eq_none_iff, List.find?_eq_none] at hb
    refine ⟨(first, .doc d), List.find?_eq_some_iff_append.2 ⟨?_, before, behind, rfl, ?_⟩, rfl⟩
    · simp [Item.hasId, hid]
    · exact fun q hq => by simpa using hb q hq

theorem mem_take_iff {α : Type} {l : List α} {n : Nat} {a : α} :
    a ∈ l.take n ↔ ∃ i < n, l[i]? = some a := by
  rw [List.mem_iff_getElem?]
  constructor
  · rintro ⟨i, hi⟩
    rw [List.getElem?_take] at hi
    split at hi
    · next h => exact ⟨i, h, hi⟩
    · cases hi
  · rintro ⟨i, h, hi⟩
    exact ⟨i, by rw [List.getElem?_take, if_pos h, hi]⟩

namespace Tree

/-- The item that a path leads to. -/
def item? (t : Tree) (path : NodePath) : Option Item := (t.reach? path).map (·.2)

/-- The path of an item is the name of a group and indices. -/
theorem exists_indices_of_item? {t : Tree} {path : NodePath} {x : Item}
    (h : t.item? path = some x) :
    ∃ name ∈ t.names, ∃ is : List Nat, path = .name name :: is.map fun i : Nat => .index i := by
  obtain ⟨⟨labels, y⟩, hr, -⟩ := Option.map_eq_some_iff.1 h
  unfold reach? at hr
  split at hr
  · next name i steps =>
    obtain ⟨items, hg, hr⟩ := Option.bind_eq_some_iff.1 hr
    obtain ⟨z, -, hr⟩ := Option.bind_eq_some_iff.1 hr
    obtain ⟨is, rfl⟩ := Item.exists_indices_of_reach? hr
    exact ⟨name, List.mem_map.2 ⟨_, items?_eq_some_iff.1 hg, rfl⟩, i :: is, rfl⟩
  · cases hr

/-- The positions of a tree are the paths that lead to an item. -/
theorem mem_positions {t : Tree} {path : NodePath} {x : Item} :
    (path, x) ∈ t.positions ↔ t.item? path = some x := by
  rw [positions_eq, List.mem_map, item?, Option.map_eq_some_iff]
  constructor
  · rintro ⟨p, hp, he⟩
    obtain ⟨rfl, rfl⟩ := Prod.mk.inj he
    exact ⟨_, mem_places.1 hp, rfl⟩
  · rintro ⟨⟨labels, _⟩, hr, rfl⟩
    exact ⟨⟨path, labels, _⟩, mem_places.2 hr, rfl⟩

theorem pairwise_positions (t : Tree) :
    t.positions.Pairwise fun p q => NodePath.Before t.names p.1 q.1 := by
  rw [positions_eq, List.pairwise_map]
  exact t.pairwise_places

/-- No two documents of the tree have the same id. -/
def DistinctIds (t : Tree) : Prop :=
  ∀ p q d e, t.item? p = some (.doc d) → t.item? q = some (.doc e) → d.id = e.id → p = q

theorem distinctIds_of_nodup {t : Tree} (h : (t.docs.map (·.id)).Nodup) : t.DistinctIds := by
  intro p q d e hp hq hid
  rw [docs, docsOf, List.Nodup, List.pairwise_map, List.pairwise_filterMap] at h
  by_contra hne
  have : Std.Symm fun p q : NodePath × Item =>
      ∀ d, p.2.doc? = some d → ∀ e, q.2.doc? = some e → d.id ≠ e.id :=
    ⟨fun p q hpq d hd e he => (hpq e he d hd).symm⟩
  exact h.forall (mem_positions.2 hp) (mem_positions.2 hq) (fun he => hne (congrArg Prod.fst he))
    d rfl e rfl hid

/-- A document is used first exactly when no position before it has its id. -/
theorem repeatedAt_eq_nil_iff {t : Tree} :
    (∀ i path d, t.positions[i]? = some (path, .doc d) →
      repeatedAt (t.positions.take i) path d = []) ↔ t.DistinctIds := by
  have hnil : ∀ before path (d : Doc), repeatedAt before path d = [] ↔
      firstUse? before d.id = none := by
    intro before path d
    unfold repeatedAt
    split <;> simp_all
  simp only [hnil, firstUse?_eq_none_iff]
  constructor
  · intro h p q d e hp hq hid
    obtain ⟨i, hi⟩ := List.getElem?_of_mem (mem_positions.2 hp)
    obtain ⟨j, hj⟩ := List.getElem?_of_mem (mem_positions.2 hq)
    rcases Nat.lt_trichotomy i j with hij | rfl | hij
    · exact absurd hid (h j q e hj p d (mem_take_iff.2 ⟨i, hij, hi⟩))
    · rw [hi] at hj
      exact congrArg Prod.fst (Option.some.inj hj)
    · exact absurd hid.symm (h i p d hi q e (mem_take_iff.2 ⟨j, hij, hj⟩))
  · intro h i path d hi p e hp hid
    obtain ⟨j, hji, hj⟩ := mem_take_iff.1 hp
    have hpq := h p path e d (mem_positions.1 (List.mem_of_getElem? hj))
      (mem_positions.1 (List.mem_of_getElem? hi)) hid
    obtain ⟨hjl, hjv⟩ := List.getElem?_eq_some_iff.1 hj
    obtain ⟨hil, hiv⟩ := List.getElem?_eq_some_iff.1 hi
    have hb := List.pairwise_iff_getElem.1 t.pairwise_positions j i hjl hil hji
    rw [hjv, hiv, hpq] at hb
    exact NodePath.Before.irrefl t.distinct _ hb

theorem faults_eq_nil_iff_forall {known : Option (Text → Bool)} {t : Tree} :
    t.faults known = [] ↔
      ∀ i p, t.positions[i]? = some p → faultsAt known (t.positions.take i) p = [] := by
  rw [faults, List.flatMap_eq_nil_iff]
  constructor
  · exact fun h i p hp => h (p, i) (List.mk_mem_zipIdx_iff_getElem?.2 hp)
  · exact fun h e he => h e.2 e.1 (List.mk_mem_zipIdx_iff_getElem?.1 he)

/-- A tree has no faults exactly when it keeps the three rules. -/
theorem faults_eq_nil_iff {known : Option (Text → Bool)} {t : Tree} :
    t.faults known = [] ↔ t.DistinctIds ∧ (∀ p label, t.item? p ≠ some (.category label [])) ∧
      ∀ p d, t.item? p = some (.doc d) → known.all (· d.id) = true := by
  rw [faults_eq_nil_iff_forall, ← repeatedAt_eq_nil_iff]
  constructor
  · intro h
    refine ⟨fun i path d hd => (List.append_eq_nil_iff.1 (h i _ hd)).1, fun p label hp => ?_,
      fun p d hp => ?_⟩
    · obtain ⟨i, hi⟩ := List.getElem?_of_mem (mem_positions.2 hp)
      exact absurd (h i _ hi) (List.cons_ne_nil _ _)
    · obtain ⟨i, hi⟩ := List.getElem?_of_mem (mem_positions.2 hp)
      have hm := (List.append_eq_nil_iff.1 (h i _ hi)).2
      unfold missingAt at hm
      by_contra hk
      rw [if_neg hk] at hm
      exact List.cons_ne_nil _ _ hm
  · rintro ⟨hids, hempty, hknown⟩ i ⟨path, x⟩ hi
    have hx := mem_positions.1 (List.mem_of_getElem? hi)
    match x, hi, hx with
    | .doc d, hi, hx =>
      exact List.append_eq_nil_iff.2 ⟨hids i path d hi, if_pos (hknown path d hx)⟩
    | .category label [], _, hx => exact absurd hx (hempty path label)
    | .category _ (_ :: _), _, _ => rfl

theorem exists_validate_eq_ok_iff {known : Option (Text → Bool)} {t : Tree} :
    (∃ v, (t.validate (known.map .ofPred)).outcome = .ok v) ↔ t.faults known = [] := by
  by_cases h : t.faults known = []
  · obtain ⟨v, -, hv⟩ := validate_of_faults_eq_nil h
    exact iff_of_true ⟨v, by rw [hv]⟩ h
  · rw [validate_of_faults_ne_nil h]
    exact iff_of_false (by simp) h

theorem validate_eq_error_iff {known : Option (Text → Bool)} {t : Tree} {e : ValidationFailure} :
    (t.validate (known.map .ofPred)).outcome = .error e ↔
      t.faults known ≠ [] ∧ e = .violations (t.faults known) := by
  by_cases h : t.faults known = []
  · obtain ⟨v, hv⟩ := exists_validate_eq_ok_iff.2 h
    rw [hv]
    exact iff_of_false (by simp) fun hn => hn.1 h
  · rw [validate_of_faults_ne_nil h]
    simp [h, eq_comm]

/-- **What a check reports.**  The positions of a tree are all its items, in document order; the
check reports the faults of each of them in this order, or gives the tree back where there are
none.  So it succeeds exactly when ids are distinct across all groups and depths, no category is
empty at any depth, and every document exists as far as that is known. -/
theorem validate_reports_faults (known : Option (Text → Bool)) (t : Tree) :
    (∀ path x, (path, x) ∈ t.positions ↔ t.item? path = some x) ∧
      (t.positions.Pairwise fun p q => NodePath.Before t.names p.1 q.1) ∧
      (t.validate (known.map .ofPred)).outcome.map ValidatedTree.tree =
        (if t.faults known = [] then .ok t else .error (.violations (t.faults known))) ∧
      ((∃ v, (t.validate (known.map .ofPred)).outcome = .ok v) ↔
        t.DistinctIds ∧ (∀ p label, t.item? p ≠ some (.category label [])) ∧
          ∀ p d, t.item? p = some (.doc d) → known.all (· d.id) = true) := by
  refine ⟨fun _ _ => mem_positions, t.pairwise_positions, outcome_validate known t, ?_⟩
  rw [← faults_eq_nil_iff]
  constructor
  · rintro ⟨v, hv⟩
    by_contra h
    rw [validate_of_faults_ne_nil h] at hv
    cases hv
  · intro h
    obtain ⟨v, -, he⟩ := validate_of_faults_eq_nil h
    exact ⟨v, by rw [he]⟩

end Tree

end Sidebar
