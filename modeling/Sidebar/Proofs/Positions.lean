import Mathlib.Logic.Relation
import Sidebar.Tree.OfRaw

/-!
# Sidebar.Proofs.Positions: the places of a configuration

`Heap.positions` lists the places of a configuration in document order: the configuration, and for
each of its entries the key, the value and the nodes in it, each node before its items.  A value is
looked into only where it is not one of its own ancestors, so the list is finite.

* `ancestors_induction`: what a walk that enters nothing twice needs.
* `Position.Step`, `mem_positions_iff`: the list holds what can be reached in single steps.
* `areAncestors_of_mem`: only lists and categories are entered.
-/

namespace Sidebar

namespace Raw

/-- What a value has to be.  `ancestors` are the lists and the categories that it stands in. -/
inductive Role
  | config
  | groupName
  | items (ancestors : List Address)
  | node (ancestors : List Address)

/-- The lists and the categories that a value stands in. -/
def Role.ancestors : Role → List Address
  | .config => []
  | .groupName => []
  | .items ancestors => ancestors
  | .node ancestors => ancestors

/-- A place of a configuration, with the value that stands there. -/
structure Position where
  path : NodePath
  role : Role
  value : Value

namespace Heap

variable {h : Heap} {config : Value} {path : NodePath} {ancestors : List Address} {v : Value}
  {entries : List (Value × Value)}

/-- What holds of all ancestors once it holds where no object is left to enter, and of fewer
ancestors if it holds of more. -/
theorem ancestors_induction {motive : List Address → Prop}
    (step : ∀ ancestors, (∀ a < h.objects.size, a ∉ ancestors → motive (a :: ancestors)) →
      motive ancestors)
    (ancestors : List Address) : motive ancestors := by
  induction hn : h.unvisited ancestors using Nat.strongRecOn generalizing ancestors with
  | ind n ih =>
    exact step ancestors fun a ha hp => ih _ (hn ▸ h.unvisited_cons_lt ha hp) _ rfl

theorem lt_size_of_mapping {a : Address} (hv : h.view v = .mapping a entries) :
    a < h.objects.size :=
  lt_size_of_view (h := h) (v := v) (a := a) (by rw [hv]; rfl)

/-- The entries say that they are of this type. -/
def HasType (h : Heap) (type : Text) (entries : List (Value × Value)) : Prop :=
  (field? "type" entries).map h.view = some (.text type)

instance (h : Heap) (type : Text) (entries : List (Value × Value)) :
    Decidable (h.HasType type entries) :=
  inferInstanceAs (Decidable ((field? "type" entries).map h.view = some (.text type)))

theorem HasType.unique {s t : Text} (hs : h.HasType s entries) (ht : h.HasType t entries) : s = t :=
  View.text.inj (Option.some.inj (hs.symm.trans ht))

theorem HasType.not_category (hd : h.HasType "doc" entries) : ¬ h.HasType "category" entries :=
  fun hc => absurd (hd.unique hc) (by decide)

theorem HasType.not_doc (hc : h.HasType "category" entries) : ¬ h.HasType "doc" entries :=
  fun hd => hd.not_category hc

/-! ## Document order -/

mutual

/-- The places from a value that should be a list of nodes. -/
def itemsPositions (h : Heap) (path : NodePath) (ancestors : List Address) (v : Value) :
    List Position :=
  ⟨path, .items ancestors, v⟩ ::
    match hs : h.sequence? v with
    | none => []
    | some (a, nodes) =>
      if ha : a ∈ ancestors then []
      else
        have := unvisited_cons_lt (lt_size_of_sequence? hs) ha
        nodes.zipIdx.flatMap fun n => nodePositions h (path.child n.2) (a :: ancestors) n.1
termination_by h.unvisited ancestors

/-- The places from a node. -/
def nodePositions (h : Heap) (path : NodePath) (ancestors : List Address) (v : Value) :
    List Position :=
  ⟨path, .node ancestors, v⟩ ::
    match hv : h.view v with
    | .mapping a entries =>
      if ha : a ∈ ancestors then []
      else
        have := unvisited_cons_lt (lt_size_of_view (h := h) (v := v) (a := a) (by rw [hv]; rfl)) ha
        if h.HasType "category" entries then
          match field? "items" entries with
          | none => []
          | some items => itemsPositions h path (a :: ancestors) items
        else []
    | _ => []
termination_by h.unvisited ancestors

end

/-- The places from an entry of a configuration. -/
def groupPositions (h : Heap) (e : Value × Value) : List Position :=
  ⟨[], .groupName, e.1⟩ ::
    match h.view e.1 with
    | .text name => h.itemsPositions (.ofGroup name) [] e.2
    | _ => []

/-- The places of a configuration in document order: the configuration itself; for each of its
entries the key, the value and the nodes in it; each node before its items. -/
def positions (h : Heap) (config : Value) : List Position :=
  ⟨[], .config, config⟩ ::
    match h.view config with
    | .mapping _ entries => entries.flatMap h.groupPositions
    | _ => []

end Heap

/-! ## What a place leads to -/

/-- The second place is met right inside what stands at the first. -/
inductive Position.Step (h : Heap) : Position → Position → Prop
  | groupName {path : NodePath} {config : Value} {a : Address} {entries : List (Value × Value)}
      {e : Value × Value} (hv : h.view config = .mapping a entries) (he : e ∈ entries) :
      Step h ⟨path, .config, config⟩ ⟨[], .groupName, e.1⟩
  | group {path : NodePath} {config : Value} {a : Address} {entries : List (Value × Value)}
      {e : Value × Value} {name : Text} (hv : h.view config = .mapping a entries)
      (he : e ∈ entries) (hk : h.view e.1 = .text name) :
      Step h ⟨path, .config, config⟩ ⟨.ofGroup name, .items [], e.2⟩
  | node {path : NodePath} {ancestors : List Address} {v w : Value} {a : Address}
      {nodes : List Value} {i : Nat} (hs : h.sequence? v = some (a, nodes)) (ha : a ∉ ancestors)
      (hw : nodes[i]? = some w) :
      Step h ⟨path, .items ancestors, v⟩ ⟨path.child i, .node (a :: ancestors), w⟩
  | items {path : NodePath} {ancestors : List Address} {v w : Value} {a : Address}
      {entries : List (Value × Value)} (hv : h.view v = .mapping a entries) (ha : a ∉ ancestors)
      (hc : h.HasType "category" entries) (hw : field? "items" entries = some w) :
      Step h ⟨path, .node ancestors, v⟩ ⟨path, .items (a :: ancestors), w⟩

namespace Heap

open Relation

variable {h : Heap} {config : Value} {path : NodePath} {ancestors : List Address} {v : Value}
  {p q : Position}

theorem mem_itemsPositions_of_nodes
    (ih : ∀ a < h.objects.size, a ∉ ancestors → ∀ path v,
      p ∈ h.nodePositions path (a :: ancestors) v ↔
        ReflTransGen (Position.Step h) ⟨path, .node (a :: ancestors), v⟩ p) :
    p ∈ h.itemsPositions path ancestors v ↔
      ReflTransGen (Position.Step h) ⟨path, .items ancestors, v⟩ p := by
  rw [itemsPositions, List.mem_cons, ReflTransGen.cases_head_iff, eq_comm]
  refine or_congr_right ?_
  split
  · next hs =>
    refine iff_of_false (by simp) ?_
    rintro ⟨q, hstep, -⟩
    cases hstep with
    | node hs' =>
      rw [hs] at hs'
      cases hs'
  · next a nodes hs =>
    have hlt := lt_size_of_sequence? hs
    split
    · next ha =>
      refine iff_of_false (by simp) ?_
      rintro ⟨q, hstep, -⟩
      cases hstep with
      | node hs' ha' =>
        obtain ⟨rfl, -⟩ := Prod.mk.inj (Option.some.inj (hs.symm.trans hs'))
        exact ha' ha
    · next ha =>
      rw [List.mem_flatMap]
      constructor
      · rintro ⟨⟨w, i⟩, hw, hp⟩
        exact ⟨_, .node hs ha (List.mk_mem_zipIdx_iff_getElem?.1 hw), (ih a hlt ha _ _).1 hp⟩
      · rintro ⟨q, hstep, hp⟩
        cases hstep with
        | node hs' ha' hw =>
          obtain ⟨rfl, rfl⟩ := Prod.mk.inj (Option.some.inj (hs.symm.trans hs'))
          exact ⟨_, List.mk_mem_zipIdx_iff_getElem?.2 hw, (ih _ hlt ha _ _).2 hp⟩

theorem mem_nodePositions_of_items
    (ih : ∀ a < h.objects.size, a ∉ ancestors → ∀ path v,
      p ∈ h.itemsPositions path (a :: ancestors) v ↔
        ReflTransGen (Position.Step h) ⟨path, .items (a :: ancestors), v⟩ p) :
    p ∈ h.nodePositions path ancestors v ↔
      ReflTransGen (Position.Step h) ⟨path, .node ancestors, v⟩ p := by
  rw [nodePositions, List.mem_cons, ReflTransGen.cases_head_iff, eq_comm]
  refine or_congr_right ?_
  split
  · next a entries hv =>
    have hlt := lt_size_of_mapping hv
    -- the only step there can be
    have hsteps : ∀ {q}, Position.Step h ⟨path, .node ancestors, v⟩ q ↔
        a ∉ ancestors ∧ h.HasType "category" entries ∧
          ∃ w, field? "items" entries = some w ∧ q = ⟨path, .items (a :: ancestors), w⟩ := by
      intro q
      constructor
      · intro hstep
        cases hstep with
        | items hv' ha hc hw =>
          obtain ⟨rfl, rfl⟩ := View.mapping.inj (hv.symm.trans hv')
          exact ⟨ha, hc, _, hw, rfl⟩
      · rintro ⟨ha, hc, w, hw, rfl⟩
        exact .items hv ha hc hw
    simp only [hsteps]
    split
    · next ha => simp [ha]
    · next ha =>
      split
      · next hc =>
        cases hw : field? "items" entries with
        | none => simp
        | some w => simp [ha, hc, ih a hlt ha]
      · next hc => simp [hc]
  · next hm =>
    refine iff_of_false (by simp) ?_
    rintro ⟨q, hstep, -⟩
    cases hstep with
    | items hv => exact hm _ _ hv

theorem mem_positions_of_ancestors (ancestors : List Address) :
    (∀ path v, p ∈ h.itemsPositions path ancestors v ↔
        ReflTransGen (Position.Step h) ⟨path, .items ancestors, v⟩ p) ∧
      ∀ path v, p ∈ h.nodePositions path ancestors v ↔
        ReflTransGen (Position.Step h) ⟨path, .node ancestors, v⟩ p := by
  induction ancestors using ancestors_induction (h := h) with
  | step ancestors ih =>
    exact ⟨fun _ _ => mem_itemsPositions_of_nodes fun a hlt ha => (ih a hlt ha).2,
      fun _ _ => mem_nodePositions_of_items fun a hlt ha => (ih a hlt ha).1⟩

theorem mem_groupPositions_iff {e : Value × Value} :
    p ∈ h.groupPositions e ↔ p = ⟨[], .groupName, e.1⟩ ∨
      ∃ name, h.view e.1 = .text name ∧
        ReflTransGen (Position.Step h) ⟨.ofGroup name, .items [], e.2⟩ p := by
  rw [groupPositions, List.mem_cons]
  refine or_congr_right ?_
  split
  · next name hk =>
    rw [(mem_positions_of_ancestors []).1]
    simp [hk]
  · next hk =>
    refine iff_of_false (by simp) ?_
    rintro ⟨name, hn, -⟩
    exact hk name hn

/-- **The places of a configuration** are those that steps lead to. -/
theorem mem_positions_iff :
    p ∈ h.positions config ↔ ReflTransGen (Position.Step h) ⟨[], .config, config⟩ p := by
  rw [positions, List.mem_cons, ReflTransGen.cases_head_iff, eq_comm]
  refine or_congr_right ?_
  split
  · next a entries hv =>
    simp only [List.mem_flatMap, mem_groupPositions_iff]
    constructor
    · rintro ⟨e, he, rfl | ⟨name, hk, hp⟩⟩
      · exact ⟨_, .groupName hv he, .refl⟩
      · exact ⟨_, .group hv he hk, hp⟩
    · rintro ⟨q, hstep, hp⟩
      cases hstep with
      | groupName hv' he =>
        obtain ⟨rfl, rfl⟩ := View.mapping.inj (hv.symm.trans hv')
        refine ⟨_, he, .inl ?_⟩
        rcases hp.cases_head with hq | ⟨r, hstep, -⟩
        · exact hq.symm
        · cases hstep
      | group hv' he hk =>
        obtain ⟨rfl, rfl⟩ := View.mapping.inj (hv.symm.trans hv')
        exact ⟨_, he, .inr ⟨_, hk, hp⟩⟩
  · next hm =>
    refine iff_of_false (by simp) ?_
    rintro ⟨q, hstep, -⟩
    cases hstep with
    | groupName hv _ => exact hm _ _ hv
    | group hv _ _ => exact hm _ _ hv

/-- What a value can stand in: a mapping among the ancestors is a category. -/
def AreAncestors (h : Heap) (ancestors : List Address) : Prop :=
  ∀ a ∈ ancestors, ∀ v entries, h.view v = .mapping a entries → h.HasType "category" entries

theorem object?_of_view {a : Address} {entries : List (Value × Value)}
    (hv : h.view v = .mapping a entries) : h.object? a = some (.mapping entries) := by
  cases v with
  | ref b =>
    rw [view] at hv
    split at hv
    all_goals cases hv
    assumption
  | _ => cases hv

theorem eq_ref_of_address? {a : Address} (ha : (h.view v).address? = some a) : v = .ref a := by
  cases v with
  | ref b =>
    rw [view] at ha
    split at ha <;> simp_all [View.address?]
  | _ => simp [view, View.address?] at ha

theorem eq_ref_of_mapping {a : Address} {entries : List (Value × Value)}
    (hv : h.view v = .mapping a entries) : v = .ref a :=
  eq_ref_of_address? (h := h) (by rw [hv]; rfl)

theorem object?_of_sequence? {a : Address} {nodes : List Value}
    (hs : h.sequence? v = some (a, nodes)) :
    v = .ref a ∧ (h.object? a = some (.list nodes) ∨ h.object? a = some (.tuple nodes)) := by
  unfold sequence? at hs
  cases v with
  | ref b =>
    rw [view] at hs
    cases ho : h.object? b with
    | none => simp [ho] at hs
    | some o => cases o <;> simp_all
  | _ => simp [view] at hs

/-- A step leads into a list or a category. -/
theorem areAncestors_of_step (hstep : Position.Step h p q)
    (hp : h.AreAncestors p.role.ancestors) : h.AreAncestors q.role.ancestors := by
  cases hstep with
  | groupName => exact fun a ha => absurd ha List.not_mem_nil
  | group => exact fun a ha => absurd ha List.not_mem_nil
  | @node path ancestors v w a nodes i hs ha hw =>
    intro b hb u entries hu
    rcases List.mem_cons.1 hb with rfl | hb
    · have hu := object?_of_view hu
      rcases (object?_of_sequence? hs).2 with ho | ho <;> rw [ho] at hu <;> cases hu
    · exact hp b hb u entries hu
  | @items path ancestors v w a entries hv ha hc hw =>
    intro b hb u entries' hu
    rcases List.mem_cons.1 hb with rfl | hb
    · have hu := object?_of_view hu
      rw [object?_of_view hv] at hu
      cases hu
      exact hc
    · exact hp b hb u entries' hu

theorem areAncestors_of_mem (hp : p ∈ h.positions config) :
    h.AreAncestors p.role.ancestors := by
  rw [mem_positions_iff] at hp
  induction hp with
  | refl => exact fun a ha => absurd ha List.not_mem_nil
  | tail _ hstep ih => exact areAncestors_of_step hstep ih

end Heap

end Raw

end Sidebar
