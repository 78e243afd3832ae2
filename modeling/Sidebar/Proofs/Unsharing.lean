import Sidebar.Proofs.Unfolding

/-!
# Sidebar.Proofs.Unsharing: the copy of a configuration without shared objects

`Heap.unshare` writes the unfolding of a configuration behind its heap, with an object of its own
for every list and every category at every place where it stands.

* `rewrites_of_fits`: an unfolding is written and met again, by lists and categories of its own.
* `unfolding_of_unshare`: the copy has the same unfolding, and no list or category of it stands at
  two places.
-/

namespace Sidebar.Raw.Heap

variable {h s t : Heap} {v : Value}

/-! ## Writing an unfolding -/

mutual

/-- Adds the objects of an unfolding. -/
def addUnfolding (s : Heap) : Unfolding → Heap × Value
  | .leaf v => (s, v)
  | .again => (s, .null)
  | .sequence tuple us =>
    let added := addUnfoldings s us
    added.1.alloc (if tuple then .tuple added.2 else .list added.2)
  | .category others none => s.alloc (.mapping others)
  | .category others (some u) =>
    let added := addUnfolding s u
    added.1.alloc (.mapping (withItems added.2 others))

/-- Adds the objects of several unfoldings. -/
def addUnfoldings (s : Heap) : List Unfolding → Heap × List Value
  | [] => (s, [])
  | u :: us =>
    let first := addUnfolding s u
    let rest := addUnfoldings first.1 us
    (rest.1, first.2 :: rest.2)

end

/-- Adds the objects of groups. -/
def addGroups (s : Heap) : List (Value × Unfolding) → Heap × List (Value × Value)
  | [] => (s, [])
  | (key, u) :: groups =>
    let first := s.addUnfolding u
    let rest := addGroups first.1 groups
    (rest.1, (key, first.2) :: rest.2)

/-- The copy of a configuration in which no list and no category is shared. -/
def unshare (h : Heap) (config : Value) : Heap × Value :=
  match h.view config with
  | .mapping _ entries =>
    let added := h.addGroups (h.unfoldGroups entries)
    added.1.alloc (.mapping added.2)
  | _ => (h, config)

/-! ## Heaps that grow -/

theorem Extends.refl (h : Heap) : h.Extends h := fun _ _ ho => ho

theorem Extends.trans (ht : t.Extends s) (hs : s.Extends h) : t.Extends h :=
  fun a o ho => ht a o (hs a o ho)

theorem Extends.size_le (ht : t.Extends h) : h.objects.size ≤ t.objects.size := by
  by_contra! hlt
  have ho : h.object? t.objects.size = some h.objects[t.objects.size] :=
    Array.getElem?_eq_getElem hlt
  exact Nat.lt_irrefl _ (Array.getElem?_eq_some_iff.1 (ht _ _ ho)).1

theorem extends_alloc (s : Heap) (o : Object) : (s.alloc o).1.Extends s := by
  intro a p hp
  have hlt : a < s.objects.size := (Array.getElem?_eq_some_iff.1 hp).1
  exact (Array.getElem?_push_lt hlt).trans ((Array.getElem?_eq_getElem hlt).symm.trans hp)

theorem size_alloc (s : Heap) (o : Object) : (s.alloc o).1.objects.size = s.objects.size + 1 :=
  Array.size_push o

theorem object?_alloc (s : Heap) (o : Object) : (s.alloc o).1.object? s.objects.size = some o :=
  Array.getElem?_push_size

/-! ## Addresses of its own -/

/-- No address occurs twice, and all lie between the bounds. -/
def Between (low high : Nat) (as : List Nat) : Prop :=
  as.Nodup ∧ ∀ a ∈ as, low ≤ a ∧ a < high

theorem between_nil (low high : Nat) : Between low high [] :=
  ⟨List.nodup_nil, fun _ ha => absurd ha List.not_mem_nil⟩

theorem Between.append {low mid high : Nat} {as bs : List Nat} (ha : Between low mid as)
    (hb : Between mid high bs) (hle : low ≤ mid) (hle' : mid ≤ high) :
    Between low high (as ++ bs) := by
  refine ⟨List.nodup_append.2 ⟨ha.1, hb.1, fun a hm b hm' he => ?_⟩, fun a hm => ?_⟩
  · have h1 := (ha.2 a hm).2
    have h2 := (hb.2 b hm').1
    omega
  · rcases List.mem_append.1 hm with hm | hm
    · have := ha.2 a hm
      omega
    · have := hb.2 a hm
      omega

/-- The address behind all of them can be put before them. -/
theorem Between.cons_top {low high : Nat} {as : List Nat} (ha : Between low high as)
    (hle : low ≤ high) : Between low (high + 1) (high :: as) := by
  refine ⟨List.nodup_cons.2 ⟨fun hm => Nat.lt_irrefl _ (ha.2 _ hm).2, ha.1⟩, fun a hm => ?_⟩
  rcases List.mem_cons.1 hm with rfl | hm
  · omega
  · have := ha.2 a hm
    omega

/-! ## What is entered -/

/-- The address of the list or category that is entered at a place. -/
def container? (h : Heap) (p : Position) : Option Address :=
  match p.role with
  | .items _ => (h.sequence? p.value).map (·.1)
  | .node _ =>
    match h.view p.value with
    | .mapping a entries => if h.HasType "category" entries then some a else none
    | _ => none
  | _ => none

/-- The addresses of the lists and categories of a configuration, one for each place. -/
def containers (h : Heap) (config : Value) : List Address :=
  (h.positions config).filterMap h.container?

/-- What a value is met for. -/
inductive Place
  | items
  | node

/-- What is met at a place. -/
def unfoldAt (h : Heap) (ancestors : List Address) (v : Value) : Place → Unfolding
  | .items => h.unfoldItems ancestors v
  | .node => h.unfoldNode ancestors v

/-- The addresses of the lists and categories from a place on. -/
def containersAt (h : Heap) (path : NodePath) (ancestors : List Address) (v : Value) :
    Place → List Address
  | .items => (h.itemsPositions path ancestors v).filterMap h.container?
  | .node => (h.nodePositions path ancestors v).filterMap h.container?

section Containers

variable {path : NodePath} {ancestors : List Address} {a : Address}
  {entries : List (Value × Value)}

theorem containersAt_of_other (hs : h.sequence? v = none) :
    h.containersAt path ancestors v .items = [] := by
  have hp : h.itemsPositions path ancestors v = [⟨path, .items ancestors, v⟩] := by
    rw [itemsPositions]
    split
    · rfl
    · next hs' => cases hs.symm.trans hs'
  rw [containersAt, hp, List.filterMap_cons_none]
  · rfl
  · rw [container?, hs]
    rfl

theorem containersAt_of_sequence? {nodes : List Value} (hs : h.sequence? v = some (a, nodes))
    (ha : a ∉ ancestors) :
    h.containersAt path ancestors v .items =
      a :: (nodes.zipIdx.flatMap fun n =>
        h.nodePositions (path.child n.2) (a :: ancestors) n.1).filterMap h.container? := by
  have hp : h.itemsPositions path ancestors v = ⟨path, .items ancestors, v⟩ ::
      nodes.zipIdx.flatMap fun n => h.nodePositions (path.child n.2) (a :: ancestors) n.1 := by
    rw [itemsPositions]
    split
    · next hs' => cases hs.symm.trans hs'
    · next hs' =>
      obtain ⟨rfl, rfl⟩ := Prod.mk.inj (Option.some.inj (hs.symm.trans hs'))
      rw [dif_neg ha]
  rw [containersAt, hp, List.filterMap_cons_some]
  rw [container?, hs]
  rfl

theorem containersAt_of_leaf
    (hn : ∀ a entries, h.view v = .mapping a entries → ¬ h.HasType "category" entries) :
    h.containersAt path ancestors v .node = [] := by
  have hp : h.nodePositions path ancestors v = [⟨path, .node ancestors, v⟩] := by
    rw [nodePositions]
    split
    · next hv =>
      split
      · rfl
      · rw [if_neg (hn _ _ hv)]
    · rfl
  rw [containersAt, hp, List.filterMap_cons_none]
  · rfl
  · rw [container?]
    dsimp only
    split
    · next hv => rw [if_neg (hn _ _ hv)]
    · rfl

theorem containersAt_of_category (hv : h.view v = .mapping a entries) (ha : a ∉ ancestors)
    (hc : h.HasType "category" entries) :
    h.containersAt path ancestors v .node =
      a :: ((field? "items" entries).map fun w =>
        h.containersAt path (a :: ancestors) w .items).getD [] := by
  rw [containersAt, nodePositions, List.filterMap_cons_some (b := a)]
  · split
    · next hv' =>
      obtain ⟨rfl, rfl⟩ := View.mapping.inj (hv.symm.trans hv')
      rw [dif_neg ha, if_pos hc]
      cases field? "items" entries <;> rfl
    · next hm => exact absurd hv (hm a entries)
  · rw [container?]
    dsimp only
    rw [hv]
    exact if_pos hc

end Containers

/-- Unfoldings of what is in the heap and nowhere inside itself. -/
inductive Fits (h : Heap) : Place → Unfolding → Prop
  | otherItems {v : Value} (hv : h.IsIn v) (hs : h.sequence? v = none) : Fits h .items (.leaf v)
  | otherNode {v : Value} (hv : h.IsIn v)
      (hn : ∀ a entries, h.view v = .mapping a entries → ¬ h.HasType "category" entries) :
      Fits h .node (.leaf v)
  | sequence {tuple : Bool} {us : List Unfolding} (hus : ∀ u ∈ us, Fits h .node u) :
      Fits h .items (.sequence tuple us)
  | category {entries : List (Value × Value)} {items : Option Unfolding}
      (hc : h.HasType "category" entries) (hi : (field? "items" entries).isSome = items.isSome)
      (hu : ∀ u ∈ items, Fits h .items u) : Fits h .node (.category (withItems .null entries) items)

/-- Behind the objects of `h` the unfolding can be written, and is then met at the place where it
was written, with lists and categories of its own.  Only objects behind it may be ancestors. -/
def Rewrites (h : Heap) (place : Place) (u : Unfolding) : Prop :=
  ∀ s : Heap, s.Extends h → (s.addUnfolding u).1.Extends s ∧
    ∀ t : Heap, t.Extends (s.addUnfolding u).1 → ∀ path ancestors,
      (∀ b ∈ ancestors, (s.addUnfolding u).1.objects.size ≤ b) →
        t.unfoldAt ancestors (s.addUnfolding u).2 place = u ∧
          Between s.objects.size (s.addUnfolding u).1.objects.size
            (t.containersAt path ancestors (s.addUnfolding u).2 place)

theorem rewrites_all {us : List Unfolding} (hus : ∀ u ∈ us, h.Rewrites .node u)
    (hs : s.Extends h) :
    (s.addUnfoldings us).1.Extends s ∧
      ∀ t : Heap, t.Extends (s.addUnfoldings us).1 → ∀ (path : NodePath) ancestors i,
        (∀ b ∈ ancestors, (s.addUnfoldings us).1.objects.size ≤ b) →
          (s.addUnfoldings us).2.map (t.unfoldNode ancestors) = us ∧
            Between s.objects.size (s.addUnfoldings us).1.objects.size
              ((((s.addUnfoldings us).2.zipIdx i).flatMap fun n =>
                t.nodePositions (path.child n.2) ancestors n.1).filterMap t.container?) := by
  induction us generalizing s with
  | nil => exact ⟨.refl s, fun t _ path ancestors i _ => ⟨rfl, between_nil _ _⟩⟩
  | cons u us ih =>
    obtain ⟨hfirst, hu⟩ := hus u List.mem_cons_self s hs
    obtain ⟨hrest, hus⟩ := ih (fun u hu => hus u (List.mem_cons_of_mem _ hu)) (hfirst.trans hs)
    refine ⟨hrest.trans hfirst, fun t ht path ancestors i hanc => ?_⟩
    rw [addUnfoldings] at ht hanc ⊢
    dsimp only at ht hanc ⊢
    obtain ⟨hmet, hbetween⟩ := hu t (ht.trans hrest) (path.child i) ancestors
      fun b hb => hrest.size_le.trans (hanc b hb)
    obtain ⟨hmets, hbetweens⟩ := hus t ht path ancestors (i + 1) hanc
    refine ⟨?_, ?_⟩
    · rw [List.map_cons, hmets]
      exact congrArg (· :: us) hmet
    · rw [List.zipIdx_cons, List.flatMap_cons, List.filterMap_append]
      exact hbetween.append hbetweens hfirst.size_le hrest.size_le

theorem hasType_iff {type : Text} {entries : List (Value × Value)} :
    h.HasType type entries ↔ field? "type" entries = some (.text type) := by
  rw [HasType, Option.map_eq_some_iff]
  constructor
  · rintro ⟨w, hw, hv⟩
    rw [hw, view_eq_text hv]
  · exact fun hf => ⟨_, hf, rfl⟩

theorem sequence?_of_extends (ht : t.Extends h) (hv : h.IsIn v) :
    t.sequence? v = h.sequence? v := by
  rw [sequence?, sequence?, view_of_extends ht hv]

theorem rewrites_otherItems (hv : h.IsIn v) (hs : h.sequence? v = none) :
    h.Rewrites .items (.leaf v) := by
  refine fun s hext => ⟨.refl s, fun t ht path ancestors _ => ?_⟩
  have hs' := (sequence?_of_extends (ht.trans hext) hv).trans hs
  rw [addUnfolding, unfoldAt, unfoldItems_of_other hs', containersAt_of_other hs']
  exact ⟨rfl, between_nil _ _⟩

theorem rewrites_otherNode (hv : h.IsIn v)
    (hn : ∀ a entries, h.view v = .mapping a entries → ¬ h.HasType "category" entries) :
    h.Rewrites .node (.leaf v) := by
  refine fun s hext => ⟨.refl s, fun t ht path ancestors hanc => ?_⟩
  have hview := view_of_extends (ht.trans hext) hv
  have hn' : ∀ a entries, t.view v = .mapping a entries → ¬ t.HasType "category" entries := by
    intro a entries hm
    have := hn a entries (hview.symm.trans hm)
    rwa [hasType_iff] at this ⊢
  rw [addUnfolding] at hanc ⊢
  rw [unfoldAt, containersAt_of_leaf hn']
  refine ⟨?_, between_nil _ _⟩
  by_cases hm : ∃ a entries, t.view v = .mapping a entries
  · obtain ⟨a, entries, hm⟩ := hm
    have ha : a ∉ ancestors := by
      intro ha
      have hlt : a < h.objects.size := lt_size_of_mapping (hview.symm.trans hm)
      exact absurd (hext.size_le.trans (hanc a ha)) (Nat.not_le.2 hlt)
    exact unfoldNode_of_not_category hm ha (hn' a entries hm)
  · push Not at hm
    exact unfoldNode_of_other hm

theorem sequence?_of_object? {tuple : Bool} {a : Address} {vs : List Value}
    (ho : t.object? a = some (if tuple then .tuple vs else .list vs)) :
    t.sequence? (.ref a) = some (a, vs) ∧ t.isTuple (.ref a) = tuple := by
  rw [sequence?, isTuple, view, ho]
  cases tuple <;> exact ⟨rfl, rfl⟩

theorem rewrites_sequence {tuple : Bool} {us : List Unfolding}
    (hus : ∀ u ∈ us, h.Rewrites .node u) : h.Rewrites .items (.sequence tuple us) := by
  intro s hext
  obtain ⟨hadded, hall⟩ := rewrites_all hus hext
  rw [addUnfolding]
  generalize hadd : s.addUnfoldings us = added at hadded hall
  have halloc := extends_alloc added.1 (if tuple then .tuple added.2 else .list added.2)
  refine ⟨halloc.trans hadded, fun t ht path ancestors hanc => ?_⟩
  rw [size_alloc] at hanc
  -- the list is behind its nodes and before its ancestors
  have hnot : added.1.objects.size ∉ ancestors := fun hm => Nat.lt_irrefl _ (hanc _ hm)
  obtain ⟨hs, htuple⟩ := sequence?_of_object? (ht _ _ (object?_alloc added.1 _))
  obtain ⟨hmet, hbetween⟩ := hall t (ht.trans halloc) path (added.1.objects.size :: ancestors) 0
    (List.forall_mem_cons.2 ⟨Nat.le_refl _, fun b hb => Nat.le_of_lt (hanc b hb)⟩)
  refine ⟨?_, ?_⟩
  · rw [alloc, unfoldAt, unfoldItems_of_sequence? hs hnot, htuple, hmet]
  · rw [size_alloc, alloc, containersAt_of_sequence? hs hnot]
    exact hbetween.cons_top hadded.size_le

theorem view_of_object? {a : Address} {entries : List (Value × Value)}
    (ho : t.object? a = some (.mapping entries)) : t.view (.ref a) = .mapping a entries := by
  rw [view, ho]

theorem withItems_withItems (v w : Value) (entries : List (Value × Value)) :
    withItems v (withItems w entries) = withItems v entries := by
  rw [withItems, withItems, withItems, List.map_map]
  refine List.map_congr_left fun e _ => ?_
  by_cases he : e.1 = .text "items" <;> simp [he]

theorem hasType_withItems {type : Text} {entries : List (Value × Value)} :
    t.HasType type (withItems v entries) ↔ h.HasType type entries := by
  rw [hasType_iff, hasType_iff, field?_withItems, if_neg (by decide)]

/-- A category that has just been written is met at an address that is no ancestor. -/
theorem meets_category {entries : List (Value × Value)} {ancestors : List Address}
    (ht : t.Extends (s.alloc (.mapping entries)).1)
    (hanc : ∀ b ∈ ancestors, (s.alloc (.mapping entries)).1.objects.size ≤ b)
    (hc : t.HasType "category" entries) (path : NodePath) :
    t.unfoldAt ancestors (s.alloc (.mapping entries)).2 .node =
        .category (withItems .null entries)
          ((field? "items" entries).map (t.unfoldItems (s.objects.size :: ancestors))) ∧
      t.containersAt path ancestors (s.alloc (.mapping entries)).2 .node =
        s.objects.size :: ((field? "items" entries).map fun w =>
          t.containersAt path (s.objects.size :: ancestors) w .items).getD [] := by
  rw [size_alloc] at hanc
  have hnot : s.objects.size ∉ ancestors := fun hm => Nat.lt_irrefl _ (hanc _ hm)
  have hv := view_of_object? (ht _ _ (object?_alloc s _))
  exact ⟨unfoldNode_of_category hv hnot hc, containersAt_of_category hv hnot hc⟩

theorem rewrites_category {entries : List (Value × Value)} {items : Option Unfolding}
    (hc : h.HasType "category" entries) (hi : (field? "items" entries).isSome = items.isSome)
    (hu : ∀ u ∈ items, h.Rewrites .items u) :
    h.Rewrites .node (.category (withItems .null entries) items) := by
  intro s hext
  cases items with
  | none =>
    have hfield : field? "items" (withItems .null entries) = none := by
      rw [field?_withItems, if_pos rfl]
      simpa using hi
    rw [addUnfolding]
    have halloc := extends_alloc s (.mapping (withItems .null entries))
    refine ⟨halloc, fun t ht path ancestors hanc => ?_⟩
    obtain ⟨hunfold, hcontainers⟩ := meets_category ht hanc (hasType_withItems.2 hc) path
    rw [hunfold, hcontainers, hfield, withItems_withItems, size_alloc]
    exact ⟨rfl, (between_nil _ _).cons_top (Nat.le_refl _)⟩
  | some u =>
    obtain ⟨hadded, hmet⟩ := hu u rfl s hext
    rw [addUnfolding]
    generalize s.addUnfolding u = added at hadded hmet
    have hfield : field? "items" (withItems added.2 entries) = some added.2 := by
      obtain ⟨w, hw⟩ := Option.isSome_iff_exists.1 hi
      rw [field?_withItems, if_pos rfl, hw, Option.map_some]
    rw [withItems_withItems]
    have halloc := extends_alloc added.1 (.mapping (withItems added.2 entries))
    refine ⟨halloc.trans hadded, fun t ht path ancestors hanc => ?_⟩
    obtain ⟨hunfold, hcontainers⟩ := meets_category ht hanc (hasType_withItems.2 hc) path
    rw [size_alloc] at hanc
    -- the items lie before the category, which is the first of their ancestors
    obtain ⟨hitems, hbetween⟩ := hmet t (ht.trans halloc) path (added.1.objects.size :: ancestors)
      (List.forall_mem_cons.2 ⟨Nat.le_refl _, fun b hb => Nat.le_of_lt (hanc b hb)⟩)
    rw [hunfold, hcontainers, hfield, withItems_withItems, size_alloc]
    refine ⟨?_, hbetween.cons_top hadded.size_le⟩
    exact congrArg (fun items => Unfolding.category _ (some items)) hitems

/-- **An unfolding is written and met again**, by lists and categories of its own. -/
theorem rewrites_of_fits {place : Place} {u : Unfolding} (hu : h.Fits place u) :
    h.Rewrites place u := by
  induction hu with
  | otherItems hv hs => exact rewrites_otherItems hv hs
  | otherNode hv hn => exact rewrites_otherNode hv hn
  | sequence _ ih => exact rewrites_sequence ih
  | category hc hi _ ih => exact rewrites_category hc hi ih

/-! ## The copy of a configuration -/

theorem between_groupPositions {low high : Nat} {e : Value × Value}
    (hb : ∀ path, Between low high (t.containersAt path [] e.2 .items)) :
    Between low high ((t.groupPositions e).filterMap t.container?) := by
  rw [groupPositions, List.filterMap_cons_none rfl]
  split
  · exact hb _
  · exact between_nil _ _

theorem rewrites_groups {groups : List (Value × Unfolding)}
    (hfits : ∀ g ∈ groups, h.IsIn g.1 ∧ h.Fits .items g.2) (hs : s.Extends h) :
    (s.addGroups groups).1.Extends s ∧
      ∀ t : Heap, t.Extends (s.addGroups groups).1 →
        t.unfoldGroups (s.addGroups groups).2 = groups ∧
          Between s.objects.size (s.addGroups groups).1.objects.size
            (((s.addGroups groups).2.flatMap t.groupPositions).filterMap t.container?) := by
  induction groups generalizing s with
  | nil => exact ⟨.refl s, fun t _ => ⟨rfl, between_nil _ _⟩⟩
  | cons g groups ih =>
    obtain ⟨key, u⟩ := g
    obtain ⟨hkey, hu⟩ := hfits _ List.mem_cons_self
    obtain ⟨hfirst, hmet⟩ := rewrites_of_fits hu s hs
    obtain ⟨hrest, hmets⟩ :=
      ih (fun g hg => hfits g (List.mem_cons_of_mem _ hg)) (hfirst.trans hs)
    refine ⟨hrest.trans hfirst, fun t ht => ?_⟩
    rw [addGroups] at ht ⊢
    dsimp only at ht ⊢
    have hhead := fun path => hmet t (ht.trans hrest) path [] (by simp)
    obtain ⟨hgroups, hbetween⟩ := hmets t ht
    refine ⟨?_, ?_⟩
    · rw [unfoldGroups, List.map_cons, ← unfoldGroups, hgroups]
      exact congrArg (fun u => (key, u) :: groups) (hhead []).1
    · rw [List.flatMap_cons, List.filterMap_append]
      exact (between_groupPositions fun path => (hhead path).2).append hbetween
        hfirst.size_le hrest.size_le

section Config

variable {config : Value}

theorem containers_of_mapping {a : Address} {entries : List (Value × Value)}
    (hv : h.view config = .mapping a entries) :
    h.containers config = (entries.flatMap h.groupPositions).filterMap h.container? := by
  rw [containers, positions, List.filterMap_cons_none rfl, hv]

theorem unshare_of_mapping {a : Address} {entries : List (Value × Value)}
    (hv : h.view config = .mapping a entries) :
    h.unshare config = (h.addGroups (h.unfoldGroups entries)).1.alloc
      (.mapping (h.addGroups (h.unfoldGroups entries)).2) := by
  rw [unshare, hv]

/-- What is no mapping is its own copy. -/
theorem unshare_of_other (hn : ∀ a entries, h.view config ≠ .mapping a entries) :
    h.unshare config = (h, config) ∧ h.containers config = [] := by
  rw [unshare, containers, positions, List.filterMap_cons_none rfl]
  constructor
  · split
    · next hv => exact absurd hv (hn _ _)
    · rfl
  · split
    · next hv => exact absurd hv (hn _ _)
    · rfl

/-- **The copy of a configuration** has the same unfolding, no list or category in it stands at two
places, and none of them is one that was there before. -/
theorem unfolding_of_unshare
    (hfits : ∀ groups, h.unfoldConfig? config = some groups →
      ∀ g ∈ groups, h.IsIn g.1 ∧ h.Fits .items g.2) :
    (h.unshare config).1.Extends h ∧
      (h.unshare config).1.unfoldConfig? (h.unshare config).2 = h.unfoldConfig? config ∧
      ((h.unshare config).1.containers (h.unshare config).2).Nodup ∧
      ∀ b ∈ (h.unshare config).1.containers (h.unshare config).2, h.objects.size ≤ b := by
  by_cases hm : ∃ a entries, h.view config = .mapping a entries
  · obtain ⟨a, entries, hv⟩ := hm
    rw [unfoldConfig?_of_mapping hv] at hfits ⊢
    obtain ⟨hadded, hmet⟩ := rewrites_groups (hfits _ rfl) (.refl h)
    rw [unshare_of_mapping hv]
    generalize h.addGroups (h.unfoldGroups entries) = added at hadded hmet ⊢
    have halloc := extends_alloc added.1 (.mapping added.2)
    have hview : (added.1.alloc (.mapping added.2)).1.view (added.1.alloc (.mapping added.2)).2 =
        .mapping added.1.objects.size added.2 :=
      view_of_object? (object?_alloc added.1 (.mapping added.2))
    obtain ⟨hgroups, hbetween⟩ := hmet _ halloc
    rw [containers_of_mapping hview, unfoldConfig?_of_mapping hview, hgroups]
    exact ⟨halloc.trans hadded, rfl, hbetween.1, fun b hb => (hbetween.2 b hb).1⟩
  · push Not at hm
    obtain ⟨hcopy, hnone⟩ := unshare_of_other hm
    rw [hcopy, hnone]
    exact ⟨.refl h, rfl, List.nodup_nil, fun b hb => absurd hb List.not_mem_nil⟩

end Config

end Sidebar.Raw.Heap
