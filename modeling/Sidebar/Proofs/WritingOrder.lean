import Mathlib.Data.List.Dedup
import Mathlib.Data.Finset.Card
import Sidebar.Proofs.Faults

/-!
# Sidebar.Proofs.WritingOrder: what a check reports whatever the order of writing

A tree can be written in another order: its groups, and the items of any list in it, at any depth
(`Tree.Reordered`).  Which of two documents with one id is the duplicate then changes, and with it
the path and the label that are reported; how often the id is reported does not.

* `Item.flatMap_within_perm`: what is collected item by item stays the same up to order.
* `Tree.repeatedIds_perm`: the ids reported as duplicates, with every id once, are all ids; the
  induction carries the ids of the positions before.
* `Tree.verdict_of_reordered`: both orders are accepted, or both are rejected with reports that
  agree in what does not depend on which document comes first.
-/

namespace Sidebar

/-! ## Writing in another order -/

/-- The second list is the first one in another order, with the items of categories in it, at
whatever depth, in another order too. -/
inductive Item.Reordered : List Item → List Item → Prop
  | nil : Reordered [] []
  | doc (d : Doc) {xs ys : List Item} (h : Reordered xs ys) :
      Reordered (.doc d :: xs) (.doc d :: ys)
  | category (label : Text) {items items' xs ys : List Item} (hi : Reordered items items')
      (h : Reordered xs ys) : Reordered (.category label items :: xs) (.category label items' :: ys)
  | swap (x y : Item) (xs : List Item) : Reordered (x :: y :: xs) (y :: x :: xs)
  | trans {xs ys zs : List Item} (h : Reordered xs ys) (h' : Reordered ys zs) : Reordered xs zs

/-- The second tree has the groups of the first one in another order, with their items in another
order. -/
def Tree.Reordered (t u : Tree) : Prop :=
  ∃ gs : List Group, t.groups.Perm gs ∧
    List.Forall₂ (fun g g' => g.1 = g'.1 ∧ Item.Reordered g.2 g'.2) gs u.groups

namespace Item

variable {xs ys : List Item}

theorem reordered_refl_of {items : List Item}
    (h : ∀ x ∈ items, ∀ xs ys, Reordered xs ys → Reordered (x :: xs) (x :: ys)) :
    Reordered items items := by
  induction items with
  | nil => exact .nil
  | cons x items ih =>
    exact h x List.mem_cons_self _ _ (ih fun y hy => h y (List.mem_cons_of_mem _ hy))

theorem Reordered.cons (x : Item) (h : Reordered xs ys) : Reordered (x :: xs) (x :: ys) := by
  induction x generalizing xs ys with
  | doc d => exact .doc d h
  | category label items ih =>
    exact .category label (reordered_refl_of fun x hx xs ys hxy => ih x hx hxy) h

/-- Changing the order of one list is writing in another order. -/
theorem Reordered.of_perm (h : xs.Perm ys) : Reordered xs ys := by
  induction h with
  | nil => exact .nil
  | cons x _ ih => exact ih.cons x
  | swap x y l => exact .swap y x l
  | trans _ _ ih ih' => exact ih.trans ih'

theorem Reordered.eq_nil_iff (h : Reordered xs ys) : xs = [] ↔ ys = [] := by
  induction h with
  | nil => exact Iff.rfl
  | doc | category | swap => simp
  | trans _ _ ih ih' => exact ih.trans ih'

/-! ## What is collected item by item -/

/-- The item and the items in it. -/
def within (x : Item) : List Item := (places x).map (·.item)

theorem map_item_placesFrom (i : Nat) (xs : List Item) :
    (placesFrom i xs).map (·.item) = xs.flatMap within := by
  induction xs generalizing i with
  | nil => rfl
  | cons x xs ih =>
    rw [placesFrom, List.map_append, List.map_map, ih, List.flatMap_cons]
    rfl

theorem within_category (label : Text) (items : List Item) :
    within (.category label items) = .category label items :: items.flatMap within := by
  rw [within, places, List.map_cons, List.map_map, ← map_item_placesFrom 0]
  rfl

/-- What is collected item by item is the same in another order, if of a category only the label
counts and whether it has items. -/
theorem flatMap_within_perm {α : Type} {f : Item → List α}
    (hf : ∀ label items items', (items = [] ↔ items' = []) →
      f (.category label items) = f (.category label items'))
    (h : Reordered xs ys) :
    ((xs.flatMap within).flatMap f).Perm ((ys.flatMap within).flatMap f) := by
  induction h with
  | nil => exact .refl _
  | doc d _ ih =>
    rw [List.flatMap_cons, List.flatMap_cons, List.flatMap_append, List.flatMap_append]
    exact ih.append_left _
  | category label hi _ ihi ih =>
    rw [List.flatMap_cons, List.flatMap_cons, within_category, within_category,
      List.flatMap_append, List.flatMap_append, List.flatMap_cons, List.flatMap_cons,
      hf label _ _ hi.eq_nil_iff]
    exact (ihi.append_left _).append ih
  | swap x y xs =>
    simp only [List.flatMap_cons, List.flatMap_append]
    exact List.perm_append_comm_assoc _ _ _
  | trans _ _ ih ih' => exact ih.trans ih'

end Item

namespace Tree

variable {t u : Tree} {known : Option (Text → Bool)}

/-- The items of a tree, in document order. -/
def items (t : Tree) : List Item := t.positions.map (·.2)

theorem items_eq (t : Tree) : t.items = t.groups.flatMap fun g => g.2.flatMap Item.within := by
  rw [items, positions_eq, List.map_map, places, List.map_flatMap]
  refine List.flatMap_congr fun g _ => ?_
  rw [List.map_map, ← Item.map_item_placesFrom 0]
  rfl

theorem flatMap_items_perm {α : Type} {f : Item → List α}
    (hf : ∀ label items items', (items = [] ↔ items' = []) →
      f (.category label items) = f (.category label items'))
    (h : t.Reordered u) : (t.items.flatMap f).Perm (u.items.flatMap f) := by
  obtain ⟨gs, hperm, hall⟩ := h
  rw [items_eq, items_eq, List.flatMap_assoc, List.flatMap_assoc]
  refine (hperm.flatMap_right _).trans ?_
  generalize u.groups = hs at hall
  clear hperm
  induction hall with
  | nil => exact .refl _
  | cons hg _ ih =>
    rw [List.flatMap_cons, List.flatMap_cons]
    exact (Item.flatMap_within_perm hf hg.2).append ih

/-- The ids of a tree, one for each document. -/
def ids (t : Tree) : List Text := t.docs.map (·.id)

theorem ids_perm (h : t.Reordered u) : t.ids.Perm u.ids := by
  have hids : ∀ s : Tree, s.ids = s.items.flatMap fun x => (x.doc?.map (·.id)).toList := by
    intro s
    rw [ids, docs, docsOf, items, List.map_filterMap, List.flatMap_map,
      List.filterMap_eq_flatMap_toList]
  rw [hids, hids]
  exact flatMap_items_perm (fun _ _ _ _ => rfl) h

end Tree

/-! ## Reports without paths -/

namespace Violation

/-- What a violation is about, wherever it is. -/
def subject (v : Violation) : ViolationKind × Option Text × Option Text :=
  (v.kind, v.docId, v.label)

/-- The violation is that an id is used again. -/
def isDuplicate (v : Violation) : Bool := v.kind = .duplicateId

end Violation

/-- What is wrong with an item whatever the other items are, without its place. -/
def Item.lacks (known : Option (Text → Bool)) :
    Item → List (ViolationKind × Option Text × Option Text)
  | .doc d =>
    if known.all (· d.id) then [] else [(.unknownDocReference, some d.id, some d.label)]
  | .category label [] => [(.emptyCategory, none, some label)]
  | .category _ (_ :: _) => []

/-- The ids of the documents among positions. -/
def idsOf (ps : List (NodePath × Item)) : List Text := (docsOf ps).map (·.id)

/-- The id of an item that a position before it has. -/
def repeatedId (before : List (NodePath × Item)) (p : NodePath × Item) : List Text :=
  match p.2 with
  | .doc d => if d.id ∈ idsOf before then [d.id] else []
  | .category .. => []

theorem firstUse?_eq_none_iff_ids {ps : List (NodePath × Item)} {id : Text} :
    firstUse? ps id = none ↔ id ∉ idsOf ps := by
  rw [firstUse?_eq_none_iff, idsOf, docsOf]
  constructor
  · intro h hm
    obtain ⟨d, hd, rfl⟩ := List.mem_map.1 hm
    obtain ⟨⟨path, x⟩, hp, hx⟩ := List.mem_filterMap.1 hd
    obtain rfl := Item.eq_doc_of_doc? hx
    exact h path d hp rfl
  · rintro h path d hp rfl
    exact h (List.mem_map.2 ⟨d, List.mem_filterMap.2 ⟨_, hp, rfl⟩, rfl⟩)

section Reports

variable (known : Option (Text → Bool)) (before : List (NodePath × Item)) (p : NodePath × Item)

/-- **One position**: beside an id that is used again, what is reported depends on the item only. -/
theorem subjects_faultsAt :
    ((faultsAt known before p).filter fun v => !v.isDuplicate).map Violation.subject =
      p.2.lacks known := by
  obtain ⟨path, x⟩ := p
  match x with
  | .category label [] => rfl
  | .category label (y :: ys) => rfl
  | .doc d =>
    have hrepeated : (repeatedAt before path d).filter (fun v => !v.isDuplicate) = [] := by
      unfold repeatedAt
      split <;> rfl
    rw [faultsAt, List.filter_append, hrepeated, List.nil_append, missingAt, Item.lacks]
    split <;> rfl

/-- **One position**: an id is reported as a duplicate where a position before has it. -/
theorem duplicates_faultsAt :
    ((faultsAt known before p).filter Violation.isDuplicate).map (·.docId) =
      (repeatedId before p).map some := by
  obtain ⟨path, x⟩ := p
  match x with
  | .category label [] => rfl
  | .category label (y :: ys) => rfl
  | .doc d =>
    have hmissing : (missingAt known path d).filter Violation.isDuplicate = [] := by
      unfold missingAt
      split <;> rfl
    rw [faultsAt, List.filter_append, hmissing, List.append_nil, repeatedAt, repeatedId]
    dsimp only
    split
    · next hf => rw [if_neg (firstUse?_eq_none_iff_ids.1 hf)]; rfl
    · next first hf =>
      have hm : d.id ∈ idsOf before := by
        by_contra hn
        rw [firstUse?_eq_none_iff_ids.2 hn] at hf
        cases hf
      rw [if_pos hm]
      rfl

end Reports

/-- The ids that are used again, one for each time. -/
def repeatedIds (before ps : List (NodePath × Item)) : List Text :=
  (ps.zipIdx before.length).flatMap fun e => repeatedId ((before ++ ps).take e.2) e.1

theorem repeatedIds_cons (before : List (NodePath × Item)) (p : NodePath × Item)
    (ps : List (NodePath × Item)) :
    repeatedIds before (p :: ps) = repeatedId before p ++ repeatedIds (before ++ [p]) ps := by
  rw [repeatedIds, repeatedIds, List.zipIdx_cons, List.flatMap_cons, List.take_left,
    List.length_append, List.append_assoc]
  rfl

theorem idsOf_append (ps qs : List (NodePath × Item)) :
    idsOf (ps ++ qs) = idsOf ps ++ idsOf qs := by
  rw [idsOf, docsOf, List.filterMap_append, List.map_append]
  rfl

/-- How often an id is used again: each time but the first. -/
theorem count_repeatedIds (before ps : List (NodePath × Item)) (id : Text) :
    (repeatedIds before ps).count id + (if id ∈ idsOf (before ++ ps) then 1 else 0) =
      (idsOf ps).count id + if id ∈ idsOf before then 1 else 0 := by
  induction ps generalizing before with
  | nil => rw [List.append_nil]; rfl
  | cons p ps ih =>
    have hstep := ih (before ++ [p])
    rw [List.append_assoc, List.singleton_append] at hstep
    rw [repeatedIds_cons, List.count_append]
    obtain ⟨path, x⟩ := p
    cases x with
    | category label items =>
      have hbefore : idsOf (before ++ [(path, .category label items)]) = idsOf before := by
        rw [idsOf_append]
        exact List.append_nil _
      rw [hbefore] at hstep
      have hnone : (repeatedId before (path, .category label items)).count id = 0 := rfl
      rw [hnone, Nat.zero_add]
      exact hstep
    | doc d =>
      have hbefore : idsOf (before ++ [(path, .doc d)]) = idsOf before ++ [d.id] := idsOf_append _ _
      have hhere : idsOf ((path, .doc d) :: ps) = d.id :: idsOf ps := rfl
      rw [hbefore] at hstep
      rw [hhere, List.count_cons, repeatedId]
      dsimp only
      by_cases hid : d.id = id
      · subst hid
        by_cases hm : d.id ∈ idsOf before
        · simp only [hm, List.mem_append, true_or, if_true, List.count_singleton_self,
            beq_self_eq_true] at hstep ⊢
          omega
        · simp only [hm, List.mem_append, List.mem_singleton, or_true, if_true, if_false,
            List.count_nil, beq_self_eq_true] at hstep ⊢
          omega
      · have hother : (if d.id ∈ idsOf before then [d.id] else []).count id = 0 := by
          split
          · exact List.count_eq_zero.2 fun hm => hid (List.mem_singleton.1 hm).symm
          · rfl
        have hne : ¬ id = d.id := fun he => hid he.symm
        simp only [List.mem_append, List.mem_singleton, hne, or_false] at hstep
        rw [hother, beq_false_of_ne hid]
        simpa using hstep

namespace Tree

variable {t u : Tree} {known : Option (Text → Bool)}

/-- The ids that a tree uses again, one for each time. -/
def repeatedIds (t : Tree) : List Text := Sidebar.repeatedIds [] t.positions

/-- The ids that are used again, with every id once, are all ids. -/
theorem repeatedIds_perm (t : Tree) : (t.repeatedIds ++ t.ids.dedup).Perm t.ids := by
  refine List.perm_iff_count.2 fun id => ?_
  have hcount := count_repeatedIds [] t.positions id
  have hdedup : t.ids.dedup.count id = if id ∈ t.ids then 1 else 0 := by
    rw [List.Nodup.count t.ids.nodup_dedup]
    simp only [List.mem_dedup]
  rw [List.count_append, hdedup]
  exact hcount

theorem repeatedIds_perm_of_reordered (h : t.Reordered u) : t.repeatedIds.Perm u.repeatedIds := by
  have hids := ids_perm h
  have hboth : (t.repeatedIds ++ t.ids.dedup).Perm (u.repeatedIds ++ t.ids.dedup) :=
    t.repeatedIds_perm.trans (hids.trans (u.repeatedIds_perm.symm.trans
      (hids.dedup.symm.append_left _)))
  exact (List.perm_append_right_iff _).1 hboth

/-! ## Reports of whole trees -/

theorem subjects_faults (known : Option (Text → Bool)) (t : Tree) :
    ((t.faults known).filter fun v => !v.isDuplicate).map Violation.subject =
      t.items.flatMap (Item.lacks known) := by
  rw [faults, List.filter_flatMap, List.map_flatMap]
  simp only [subjects_faultsAt]
  conv_rhs => rw [items, ← List.zipIdx_map_fst 0 t.positions, List.map_map, List.flatMap_map]
  rfl

theorem duplicates_faults (known : Option (Text → Bool)) (t : Tree) :
    ((t.faults known).filter Violation.isDuplicate).map (·.docId) = t.repeatedIds.map some := by
  rw [faults, List.filter_flatMap, List.map_flatMap, repeatedIds, Sidebar.repeatedIds,
    List.map_flatMap]
  simp only [duplicates_faultsAt]
  rfl

/-- Beside the ids that are used again, another order is reported alike. -/
theorem subjects_faults_perm (known : Option (Text → Bool)) (h : t.Reordered u) :
    (((t.faults known).filter fun v => !v.isDuplicate).map Violation.subject).Perm
      (((u.faults known).filter fun v => !v.isDuplicate).map Violation.subject) := by
  rw [subjects_faults, subjects_faults]
  refine flatMap_items_perm (fun label items items' hnil => ?_) h
  cases items with
  | nil => rw [hnil.1 rfl]
  | cons x items =>
    cases items' with
    | nil => exact absurd (hnil.2 rfl) (List.cons_ne_nil _ _)
    | cons y items' => rfl

/-- The ids that are used again are reported alike in another order. -/
theorem duplicates_faults_perm (known : Option (Text → Bool)) (h : t.Reordered u) :
    (((t.faults known).filter Violation.isDuplicate).map (·.docId)).Perm
      (((u.faults known).filter Violation.isDuplicate).map (·.docId)) := by
  rw [duplicates_faults, duplicates_faults]
  exact (repeatedIds_perm_of_reordered h).map _

/-- The kinds of what is reported, one for each violation, do not depend on the order. -/
theorem kinds_faults_perm (known : Option (Text → Bool)) (h : t.Reordered u) :
    ((t.faults known).map (·.kind)).Perm ((u.faults known).map (·.kind)) := by
  have hsplit : ∀ s : Tree, ((s.faults known).map (·.kind)).Perm
      ((((s.faults known).filter Violation.isDuplicate).map (·.docId)).map
          (fun _ => ViolationKind.duplicateId) ++
        (((s.faults known).filter fun v => !v.isDuplicate).map Violation.subject).map (·.1)) := by
    intro s
    refine ((List.filter_append_perm Violation.isDuplicate _).symm.map _).trans ?_
    rw [List.map_append, List.map_map, List.map_map]
    refine List.Perm.of_eq (congrArg₂ _ (List.map_congr_left fun v hv => ?_) rfl)
    exact of_decide_eq_true (List.mem_filter.1 hv).2
  refine (hsplit t).trans (List.Perm.trans ?_ (hsplit u).symm)
  exact ((duplicates_faults_perm known h).map _).append ((subjects_faults_perm known h).map _)

theorem faults_eq_nil_iff_of_reordered (h : t.Reordered u) :
    t.faults known = [] ↔ u.faults known = [] := by
  have hlength := (kinds_faults_perm known h).length_eq
  rw [List.length_map, List.length_map] at hlength
  rw [← List.length_eq_zero_iff, ← List.length_eq_zero_iff, hlength]

/-- What is used again and what there is at all make up the number of documents. -/
theorem countP_isDuplicate (known : Option (Text → Bool)) (t : Tree) :
    (t.faults known).countP Violation.isDuplicate + t.ids.toFinset.card = t.docs.length := by
  have hreported := congrArg List.length (duplicates_faults known t)
  have hall := t.repeatedIds_perm.length_eq
  rw [List.length_map, List.length_map] at hreported
  rw [List.length_append, ids, List.length_map, ← ids] at hall
  rw [List.countP_eq_length_filter, hreported, List.card_toFinset]
  exact hall

/-! ## The verdict -/

/-- **The verdict does not depend on the order of writing.**  When the groups of a tree, and the
items of lists in it at whatever depth, are written in another order, both trees are accepted or
both are rejected.  If they are rejected, the reports have the same number of violations of each
kind, the same empty categories and missing documents by kind, id and label, and the same ids that
are used again.  And whatever the order, the violations that say so are as many as there are
documents beyond the first of each id. -/
theorem verdict_of_reordered (known : Option (Text → Bool)) (h : t.Reordered u) :
    ((∃ v, (t.validate (known.map .ofPred)).outcome = .ok v) ↔
        ∃ v, (u.validate (known.map .ofPred)).outcome = .ok v) ∧
      (∀ e e', (t.validate (known.map .ofPred)).outcome = .error e →
        (u.validate (known.map .ofPred)).outcome = .error e' →
          ∃ vs ws, e = .violations vs ∧ e' = .violations ws ∧
            (∀ kind, vs.countP (·.kind = kind) = ws.countP (·.kind = kind)) ∧
            ((vs.filter fun v => v.kind ≠ .duplicateId).map Violation.subject).Perm
              ((ws.filter fun v => v.kind ≠ .duplicateId).map Violation.subject) ∧
            ((vs.filter fun v => v.kind = .duplicateId).map (·.docId)).Perm
              ((ws.filter fun v => v.kind = .duplicateId).map (·.docId))) ∧
      (∀ vs, (t.validate (known.map .ofPred)).outcome = .error (.violations vs) →
        vs.countP (·.kind = .duplicateId) + t.ids.toFinset.card = t.docs.length) ∧
      ((∃ v, (t.validate (known.map .ofPred)).outcome = .ok v) →
        t.ids.toFinset.card = t.docs.length) := by
  have hcount := countP_isDuplicate known t
  refine ⟨?_, fun e e' he he' => ?_, fun vs he => ?_, fun hok => ?_⟩
  · rw [exists_validate_eq_ok_iff, exists_validate_eq_ok_iff, faults_eq_nil_iff_of_reordered h]
  · obtain ⟨-, rfl⟩ := validate_eq_error_iff.1 he
    obtain ⟨-, rfl⟩ := validate_eq_error_iff.1 he'
    refine ⟨_, _, rfl, rfl, fun kind => ?_, ?_, duplicates_faults_perm known h⟩
    · have hkinds := (kinds_faults_perm known h).countP_eq (· = kind)
      rw [List.countP_map, List.countP_map] at hkinds
      exact hkinds
    · simpa [Violation.isDuplicate] using subjects_faults_perm known h
  · obtain ⟨-, hvs⟩ := validate_eq_error_iff.1 he
    obtain rfl := ValidationFailure.violations.inj hvs
    exact hcount
  · rw [exists_validate_eq_ok_iff.1 hok, List.countP_nil, Nat.zero_add] at hcount
    exact hcount

/-- A document that stands in three places, once in a category, beside one that does not exist and
an empty category. -/
def repeating : Tree :=
  ⟨[("docs", [.doc ⟨"intro", "Intro"⟩, .category "Empty" [],
      .category "Part" [.doc ⟨"gone", "Gone"⟩, .doc ⟨"intro", "Again"⟩]]),
    ("blog", [.doc ⟨"intro", "News"⟩])], by decide⟩

/-- The same in another order of groups, of items and of items in the category. -/
def repeatingTurned : Tree :=
  ⟨[("blog", [.doc ⟨"intro", "News"⟩]),
    ("docs", [.category "Part" [.doc ⟨"intro", "Again"⟩, .doc ⟨"gone", "Gone"⟩],
      .category "Empty" [], .doc ⟨"intro", "Intro"⟩])], by decide⟩

theorem reordered_repeating : repeating.Reordered repeatingTurned := by
  refine ⟨repeating.groups.reverse, (List.reverse_perm _).symm, ?_⟩
  refine .cons ⟨rfl, .of_perm (.refl _)⟩ (.cons ⟨rfl, ?_⟩ .nil)
  -- first the items in the category, then those of the group
  have hin : Item.Reordered
      [.category "Part" [.doc ⟨"gone", "Gone"⟩, .doc ⟨"intro", "Again"⟩], .category "Empty" [],
        .doc ⟨"intro", "Intro"⟩]
      [.category "Part" [.doc ⟨"intro", "Again"⟩, .doc ⟨"gone", "Gone"⟩], .category "Empty" [],
        .doc ⟨"intro", "Intro"⟩] :=
    .category _ (.swap _ _ _) (.of_perm (.refl _))
  exact (Item.Reordered.of_perm (List.reverse_perm _).symm).trans hin

/-- In both orders the id of three documents is reported twice. -/
theorem verdict_of_repeating :
    repeating.Reordered repeatingTurned ∧
      ∃ vs ws,
        (repeating.validate (some (.ofPred (· = "intro")))).outcome = .error (.violations vs) ∧
        (repeatingTurned.validate (some (.ofPred (· = "intro")))).outcome =
          .error (.violations ws) ∧
        vs.countP (·.kind = .duplicateId) = 2 ∧ ws.countP (·.kind = .duplicateId) = 2 := by
  have hvs : repeating.faults (some (· = "intro")) ≠ [] := by decide
  have hws : repeatingTurned.faults (some (· = "intro")) ≠ [] := by decide
  have hv := validate_eq_error_iff.2 ⟨hvs, rfl⟩
  have hw := validate_eq_error_iff.2 ⟨hws, rfl⟩
  obtain ⟨-, hreports, hnumber, -⟩ := verdict_of_reordered _ reordered_repeating
  obtain ⟨vs, ws, hvs', hws', hkinds, -⟩ := hreports _ _ hv hw
  have hcount := hnumber _ hv
  have hids : repeating.ids.toFinset.card = 2 := by decide
  have hdocs : repeating.docs.length = 4 := by decide
  obtain rfl := ValidationFailure.violations.inj hvs'
  obtain rfl := ValidationFailure.violations.inj hws'
  have hsame := hkinds .duplicateId
  exact ⟨reordered_repeating, _, _, hv, hw, by omega, by omega⟩

end Tree

end Sidebar
