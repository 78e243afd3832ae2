import Sidebar.Proofs.Calls
import Sidebar.Proofs.Rejection
import Sidebar.Proofs.Unsharing

/-!
# Sidebar.Proofs.Sharing: shared objects and cycles

Lists and categories can be shared between places.  `Heap.Contains` is the containment that reading
follows: from a list to the categories in it, and from a category to its items.

* `fits_of_noCycle`: where containment has no cycle, a walk never meets a list or a category inside
  itself, so the configuration has a copy in which nothing is shared.
* `enteredBefore_of_mem`: the ancestors of a place are met on the way to it.
* `sharing_is_transparent`: without a cycle the configuration is read as its copy is; and an error
  that speaks of a cycle stands where the object has been met before.
-/

namespace Sidebar

/-- The error speaks of a cycle. -/
def ConfigError.IsCycle : ConfigError → Prop
  | .schema ⟨_, .itemsInItself⟩ => True
  | .schema ⟨_, .nodeInItself⟩ => True
  | _ => False

namespace Raw.Heap

open Relation

variable {h : Heap} {config v w : Value} {path : NodePath} {ancestors : List Address}

/-! ## Containment -/

/-- The second value is met inside the first: a category in a list, or the items of a category. -/
inductive Contains (h : Heap) : Value → Value → Prop
  | element {v w : Value} {a b : Address} {nodes : List Value} {entries : List (Value × Value)}
      (hs : h.sequence? v = some (a, nodes)) (hw : w ∈ nodes) (hm : h.view w = .mapping b entries)
      (hc : h.HasType "category" entries) : Contains h v w
  | items {v w : Value} {a : Address} {entries : List (Value × Value)}
      (hv : h.view v = .mapping a entries) (hc : h.HasType "category" entries)
      (hw : field? "items" entries = some w) : Contains h v w

/-- No value that can be reached lies inside itself. -/
def NoCycleFrom (h : Heap) (v : Value) : Prop :=
  ∀ w, ReflTransGen h.Contains v w → ¬ TransGen h.Contains w w

/-- There is no cycle of containment from the values of the groups. -/
def Acyclic (h : Heap) (config : Value) : Prop :=
  ∀ a entries, h.view config = .mapping a entries → ∀ e ∈ entries, h.NoCycleFrom e.2

theorem NoCycleFrom.of_contains (hv : h.NoCycleFrom v) (hw : h.Contains v w) : h.NoCycleFrom w :=
  fun u hu => hv u (.head hw hu)

/-- There is no cycle where something grows along containment. -/
theorem noCycleFrom_of_rank (rank : Value → Nat)
    (hr : ∀ v w, h.Contains v w → rank v < rank w) (v : Value) : h.NoCycleFrom v := by
  intro w _ hcycle
  have hgrows : TransGen (fun m n : Nat => m < n) (rank w) (rank w) := hcycle.lift rank hr
  rw [transGen_eq_self] at hgrows
  exact Nat.lt_irrefl _ hgrows

/-! ## Without a cycle nothing is met inside itself -/

theorem sequence?_of_mapping {a : Address} {entries : List (Value × Value)}
    (hv : h.view v = .mapping a entries) : h.sequence? v = none := by
  rw [sequence?, hv]

theorem fits_items
    (ih : ∀ a < h.objects.size, a ∉ ancestors → ∀ p b nodes w, h.sequence? p = some (b, nodes) →
      w ∈ nodes → (∀ b ∈ a :: ancestors, ReflTransGen h.Contains (.ref b) p) → h.NoCycleFrom p →
        h.Fits .node (h.unfoldNode (a :: ancestors) w))
    (hv : h.IsIn v) (hanc : ∀ b ∈ ancestors, TransGen h.Contains (.ref b) v)
    (hno : h.NoCycleFrom v) : h.Fits .items (h.unfoldItems ancestors v) := by
  have hmet := h.itemsMet ancestors v
  generalize h.unfoldItems ancestors v = u at hmet ⊢
  cases hmet with
  | other hs => exact .otherItems hv hs
  | again hs ha =>
    -- as an ancestor the list would contain itself
    obtain rfl := (object?_of_sequence? hs).1
    exact absurd (hanc _ ha) (hno _ .refl)
  | @sequence a nodes tuple us hs ha ht hus =>
    refine .sequence fun u hu => ?_
    rw [← hus] at hu
    obtain ⟨w, hw, rfl⟩ := List.mem_map.1 hu
    refine ih a (lt_size_of_sequence? hs) ha v a nodes w hs hw (fun b hb => ?_) hno
    rcases List.mem_cons.1 hb with rfl | hb
    · rw [(object?_of_sequence? hs).1]
    · exact (hanc b hb).to_reflTransGen

theorem fits_node (hc : h.Closed)
    (ih : ∀ a < h.objects.size, a ∉ ancestors → ∀ v, h.IsIn v →
      (∀ b ∈ a :: ancestors, TransGen h.Contains (.ref b) v) → h.NoCycleFrom v →
        h.Fits .items (h.unfoldItems (a :: ancestors) v))
    {p : Value} {b : Address} {nodes : List Value} (hs : h.sequence? p = some (b, nodes))
    (hw : w ∈ nodes) (hanc : ∀ b ∈ ancestors, ReflTransGen h.Contains (.ref b) p)
    (hno : h.NoCycleFrom p) : h.Fits .node (h.unfoldNode ancestors w) := by
  have hin : h.IsIn w := .of_part hc (hasPart_of_sequence? hs hw)
  have hmet := h.nodeMet ancestors w
  generalize h.unfoldNode ancestors w = u at hmet ⊢
  cases hmet with
  | other hm => exact .otherNode hin fun a entries hv => absurd hv (hm a entries)
  | @again a entries hv ha =>
    obtain rfl := eq_ref_of_mapping hv
    have hnone := sequence?_of_mapping hv
    by_cases hcat : h.HasType "category" entries
    · have hcontains : h.Contains p (.ref a) := .element hs hw hv hcat
      exact absurd (.tail' (hanc a ha) hcontains) (hno _ (.single hcontains))
    · -- nothing is met inside the mapping, so it is no ancestor
      rcases (hanc a ha).cases_head with rfl | ⟨x, hx, -⟩
      · cases hnone.symm.trans hs
      · cases hx with
        | element hs' => cases hnone.symm.trans hs'
        | items hv' hcat' =>
          obtain ⟨rfl, rfl⟩ := View.mapping.inj (hv.symm.trans hv')
          exact absurd hcat' hcat
  | @mapping a entries hv ha hn =>
    refine .otherNode hin fun a' entries' hv' => ?_
    obtain ⟨rfl, rfl⟩ := View.mapping.inj (hv.symm.trans hv')
    exact hn
  | @category a entries others items hv ha hcat ho hi =>
    subst ho
    have hcontains : h.Contains p w := .element hs hw hv hcat
    refine .category hcat (by rw [← hi, Option.isSome_map]) fun u hu => ?_
    rw [← hi] at hu
    obtain ⟨v, hv', rfl⟩ := Option.map_eq_some_iff.1 hu
    have hitems : h.Contains w v := .items hv hcat hv'
    refine ih a (lt_size_of_mapping hv) ha v (.of_part hc (hasPart_of_field? hv hv'))
      (fun b hb => ?_) ((hno.of_contains hcontains).of_contains hitems)
    rcases List.mem_cons.1 hb with rfl | hb
    · rw [← eq_ref_of_mapping hv]
      exact .single hitems
    · exact .tail' ((hanc b hb).tail hcontains) hitems

theorem fits_of_noCycle (hc : h.Closed) (ancestors : List Address) :
    (∀ v, h.IsIn v → (∀ b ∈ ancestors, TransGen h.Contains (.ref b) v) → h.NoCycleFrom v →
        h.Fits .items (h.unfoldItems ancestors v)) ∧
      ∀ p b nodes w, h.sequence? p = some (b, nodes) → w ∈ nodes →
        (∀ b ∈ ancestors, ReflTransGen h.Contains (.ref b) p) → h.NoCycleFrom p →
          h.Fits .node (h.unfoldNode ancestors w) := by
  induction ancestors using ancestors_induction (h := h) with
  | step ancestors ih =>
    exact ⟨fun v hv => fits_items (fun a hlt ha => (ih a hlt ha).2) hv,
      fun p b nodes w hs hw => fits_node hc (fun a hlt ha => (ih a hlt ha).1) hs hw⟩

/-- Without a cycle the groups of a configuration can be copied. -/
theorem fits_of_acyclic (hc : h.Closed) (hac : h.Acyclic config)
    {groups : List (Value × Unfolding)} (hg : h.unfoldConfig? config = some groups) :
    ∀ g ∈ groups, h.IsIn g.1 ∧ h.Fits .items g.2 := by
  unfold unfoldConfig? at hg
  split at hg
  · next a entries hv =>
    obtain rfl := Option.some.inj hg
    intro g hg
    obtain ⟨e, he, rfl⟩ := List.mem_map.1 hg
    have hparts := hasPart_of_entry hv he
    exact ⟨.of_part hc hparts.1, (fits_of_noCycle hc []).1 e.2 (.of_part hc hparts.2)
      (fun b hb => absurd hb List.not_mem_nil) (hac a entries hv e he)⟩
  · cases hg

/-! ## Ancestors have been met -/

/-- The list or category is entered on the way to the place. -/
def EnteredBefore (h : Heap) (config : Value) (a : Address) (p : Position) : Prop :=
  ∃ q ∈ h.positions config, h.container? q = some a ∧ TransGen (Position.Step h) q p

variable {p q : Position} {a : Address}

theorem EnteredBefore.step (hq : h.EnteredBefore config a q) (hstep : Position.Step h q p) :
    h.EnteredBefore config a p := by
  obtain ⟨r, hr, hcontainer, hrq⟩ := hq
  exact ⟨r, hr, hcontainer, hrq.tail hstep⟩

/-- What is among the ancestors of a place was entered on the way there. -/
theorem enteredBefore_of_mem (hp : p ∈ h.positions config) (ha : a ∈ p.role.ancestors) :
    h.EnteredBefore config a p := by
  rw [mem_positions_iff] at hp
  induction hp with
  | refl => exact absurd ha List.not_mem_nil
  | @tail q p hq hstep ih =>
    have hlast : h.container? q = some a → h.EnteredBefore config a p :=
      fun hcontainer => ⟨q, mem_positions_iff.2 hq, hcontainer, .single hstep⟩
    cases hstep with
    | groupName => exact absurd ha List.not_mem_nil
    | group => exact absurd ha List.not_mem_nil
    | node hs hn hw =>
      rcases List.mem_cons.1 ha with rfl | ha
      · exact hlast (by rw [container?, hs]; rfl)
      · exact (ih ha).step (.node hs hn hw)
    | items hv hn hc hw =>
      rcases List.mem_cons.1 ha with rfl | ha
      · refine hlast ?_
        rw [container?]
        dsimp only
        rw [hv]
        exact if_pos hc
      · exact (ih ha).step (.items hv hn hc hw)

/-- What is entered at a place is a list where items stand, and a category where a node stands. -/
theorem container?_cases (hq : h.container? q = some a) :
    (∃ ancestors nodes, q.role = .items ancestors ∧ h.sequence? q.value = some (a, nodes)) ∨
      ∃ ancestors entries, q.role = .node ancestors ∧ h.view q.value = .mapping a entries := by
  obtain ⟨path, role, v⟩ := q
  unfold container? at hq
  cases role with
  | config => cases hq
  | groupName => cases hq
  | items ancestors =>
    obtain ⟨s, hs, rfl⟩ := Option.map_eq_some_iff.1 hq
    exact .inl ⟨ancestors, s.2, rfl, hs⟩
  | node ancestors =>
    dsimp only at hq
    split at hq
    · next b entries hv =>
      split at hq
      · obtain rfl := Option.some.inj hq
        exact .inr ⟨ancestors, entries, rfl, hv⟩
      · cases hq
    · cases hq

/-- How far a place is from the start: a node stands right behind the list that it is in, and its
items right behind the node. -/
def depth (p : Position) : Nat :=
  match p.role with
  | .items _ => 2 * p.path.length + 1
  | .node _ => 2 * p.path.length
  | _ => 0

theorem prefix_of_step (hstep : Position.Step h q p) (hq : q.role ≠ .config) :
    q.path <+: p.path ∧ depth q < depth p := by
  cases hstep with
  | groupName => exact absurd rfl hq
  | group => exact absurd rfl hq
  | node =>
    refine ⟨List.prefix_append _ _, ?_⟩
    simp only [depth, NodePath.child, List.length_append, List.length_singleton]
    omega
  | items => exact ⟨List.prefix_refl _, Nat.lt_succ_self _⟩

theorem role_ne_config_of_step (hstep : Position.Step h q p) : p.role ≠ .config := by
  cases hstep <;> simp

theorem prefix_of_steps (hsteps : TransGen (Position.Step h) q p) (hq : q.role ≠ .config) :
    q.path <+: p.path ∧ depth q < depth p := by
  induction hsteps with
  | single hstep => exact prefix_of_step hstep hq
  | @tail b p hsteps hstep ih =>
    have hb : b.role ≠ .config := by
      obtain ⟨c, -, hcb⟩ := TransGen.tail'_iff.1 hsteps
      exact role_ne_config_of_step hcb
    obtain ⟨hbelow, hlt⟩ := prefix_of_step hstep hb
    exact ⟨ih.1.trans hbelow, ih.2.trans hlt⟩

/-! ## Errors that speak of a cycle -/

theorem not_isCycle_showing {fault : Text → SchemaFault}
    (hf : ∀ shown, ¬ (ConfigError.schema ⟨path, fault shown⟩).IsCycle) :
    ¬ (h.showing path fault v).IsCycle := by
  unfold showing
  split
  · exact hf _
  · exact id

theorem not_isCycle_of_docOfEntries {entries : List (Value × Value)} {e : ConfigError}
    (he : Doc.ofEntries h path entries = .error e) : ¬ e.IsCycle := by
  have hr := h.docReading path entries
  rw [he] at hr
  cases hr with
  | badId => exact not_isCycle_showing fun _ => id
  | noId | badLabel | refused => exact id

theorem not_isCycle_of_categoryHead {entries : List (Value × Value)} {e : ConfigError}
    (he : categoryHead h path entries = .error e) : ¬ e.IsCycle := by
  have hr := h.headReading path entries
  rw [he] at hr
  cases hr <;> exact id

/-- An error that speaks of a cycle is that of a place that stands in itself. -/
theorem stands_in_itself (hp : h.AreAncestors p.role.ancestors) {e : ConfigError}
    (he : h.error? p = some e) (hcycle : e.IsCycle) :
    (∃ ancestors entries, ∃ a ∈ ancestors, p.role = .node ancestors ∧
        h.view p.value = .mapping a entries ∧ e = .schema ⟨p.path, .nodeInItself⟩) ∨
      ∃ ancestors nodes, ∃ a ∈ ancestors, p.role = .items ancestors ∧
        h.sequence? p.value = some (a, nodes) ∧ e = .schema ⟨p.path, .itemsInItself⟩ := by
  obtain ⟨path, role, v⟩ := p
  cases role with
  | config =>
    rw [error?] at he
    dsimp only at he
    split at he <;> cases he
    exact absurd hcycle id
  | groupName =>
    obtain ⟨-, rfl⟩ := error?_groupName_iff.1 he
    exact absurd hcycle (not_isCycle_showing fun _ => id)
  | items ancestors =>
    rw [error?] at he
    dsimp only at he
    split at he
    · cases he
      exact absurd hcycle id
    · next a nodes hs =>
      split at he
      · next ha =>
        cases he
        exact .inr ⟨ancestors, nodes, a, ha, rfl, hs, rfl⟩
      · cases he
  | node ancestors =>
    cases hv : h.view v with
    | text id =>
      rw [error?_text hv] at he
      exact absurd hcycle (not_isCycle_of_docOfEntries (errorOf_eq_some_iff.1 he))
    | mapping a entries =>
      have hr : h.MappingReading path ancestors a entries _ := mappingReading hv hp
      rw [he] at hr
      generalize hfound : some e = r at hr
      cases hr with
      | inItself ha =>
        exact .inl ⟨ancestors, entries, a, ha, rfl, rfl, Option.some.inj hfound⟩
      | noType =>
        obtain rfl := Option.some.inj hfound
        exact absurd hcycle id
      | unknownType =>
        obtain rfl := Option.some.inj hfound
        exact absurd hcycle (not_isCycle_showing fun _ => id)
      | doc => exact absurd hcycle (not_isCycle_of_docOfEntries (errorOf_eq_some_iff.1 hfound.symm))
      | category =>
        exact absurd hcycle (not_isCycle_of_categoryHead (errorOf_eq_some_iff.1 hfound.symm))
    | _ =>
      simp only [error?, hv, Option.some.injEq] at he
      subst he
      exact absurd hcycle id

theorem role_ne_config_of_container? (hq : h.container? q = some a) : q.role ≠ .config := by
  rcases container?_cases hq with ⟨_, _, hrole, -⟩ | ⟨_, _, hrole, -⟩ <;> simp [hrole]

theorem not_sequence?_of_mapping {entries : List (Value × Value)} {nodes : List Value}
    (hv : h.view v = .mapping a entries) : h.sequence? w ≠ some (a, nodes) := by
  intro hs
  rw [(object?_of_sequence? hs).1, ← eq_ref_of_mapping hv, sequence?_of_mapping hv] at hs
  cases hs

/-- At the path stands what is wrong first, a value that has been met for the same purpose on the
way there, at a proper prefix of the path. -/
def StandsAgain (h : Heap) (config : Value) (role : List Address → Role) (path : NodePath)
    (v : Value) : Prop :=
  ∃ ancestors q ancestors', h.FirstIllFormed config ⟨path, role ancestors, v⟩ ∧
    ⟨q, role ancestors', v⟩ ∈ h.positions config ∧
    TransGen (Position.Step h) ⟨q, role ancestors', v⟩ ⟨path, role ancestors, v⟩ ∧
    q <+: path ∧ q ≠ path

theorem standsAgain_of_container? {role : List Address → Role} {q : NodePath}
    {ancestors' : List Address} (hrole : role = .node ∨ role = .items)
    (hp : h.FirstIllFormed config ⟨path, role ancestors, v⟩)
    (hq : ⟨q, role ancestors', v⟩ ∈ h.positions config)
    (hcontainer : h.container? ⟨q, role ancestors', v⟩ = some a)
    (hsteps : TransGen (Position.Step h) ⟨q, role ancestors', v⟩ ⟨path, role ancestors, v⟩) :
    h.StandsAgain config role path v := by
  obtain ⟨hbelow, hlt⟩ := prefix_of_steps hsteps (role_ne_config_of_container? hcontainer)
  refine ⟨ancestors, q, ancestors', hp, hq, hsteps, hbelow, ?_⟩
  rintro rfl
  rcases hrole with rfl | rfl <;> exact Nat.lt_irrefl _ hlt

/-- Where an error speaks of a node in itself, the mapping has been a node further up. -/
theorem standsAgain_of_nodeInItself
    (hr : Tree.ofRaw h config = .error (.schema ⟨path, .nodeInItself⟩)) :
    ∃ v a entries, h.view v = .mapping a entries ∧ h.StandsAgain config .node path v := by
  obtain ⟨⟨path', role, v⟩, hp, he⟩ := ofRaw_eq_error_iff.1 hr
  have hm := mem_of_firstIllFormed hp
  rcases stands_in_itself (areAncestors_of_mem hm) he trivial with
    ⟨ancestors, entries, a, ha, rfl, hv, hpath⟩ | ⟨_, _, _, _, _, _, hfault⟩
  · obtain rfl : path = path' := (SchemaError.mk.inj (ConfigError.schema.inj hpath)).1
    obtain ⟨⟨q, role, w⟩, hq, hcontainer, hsteps⟩ := enteredBefore_of_mem hm ha
    rcases container?_cases hcontainer with ⟨_, nodes, -, hs⟩ | ⟨ancestors', entries', rfl, hw⟩
    · exact absurd hs (not_sequence?_of_mapping hv)
    · obtain rfl : w = v := (eq_ref_of_mapping hw).trans (eq_ref_of_mapping hv).symm
      exact ⟨w, a, entries, hv, standsAgain_of_container? (.inl rfl) hp hq hcontainer hsteps⟩
  · cases hfault

/-- Where an error speaks of a list in itself, the list has been one of items further up. -/
theorem standsAgain_of_itemsInItself
    (hr : Tree.ofRaw h config = .error (.schema ⟨path, .itemsInItself⟩)) :
    ∃ v a nodes, h.sequence? v = some (a, nodes) ∧ h.StandsAgain config .items path v := by
  obtain ⟨⟨path', role, v⟩, hp, he⟩ := ofRaw_eq_error_iff.1 hr
  have hm := mem_of_firstIllFormed hp
  rcases stands_in_itself (areAncestors_of_mem hm) he trivial with
    ⟨_, _, _, _, _, _, hfault⟩ | ⟨ancestors, nodes, a, ha, rfl, hs, hpath⟩
  · cases hfault
  · obtain rfl : path = path' := (SchemaError.mk.inj (ConfigError.schema.inj hpath)).1
    obtain ⟨⟨q, role, w⟩, hq, hcontainer, hsteps⟩ := enteredBefore_of_mem hm ha
    rcases container?_cases hcontainer with ⟨ancestors', nodes', rfl, hw⟩ | ⟨_, entries, -, hw⟩
    · obtain rfl : w = v := (object?_of_sequence? hw).1.trans (object?_of_sequence? hs).1.symm
      exact ⟨w, a, nodes, hs, standsAgain_of_container? (.inr rfl) hp hq hcontainer hsteps⟩
    · exact absurd hs (not_sequence?_of_mapping hw)

/-! ## Sharing is transparent -/

/-- Without a cycle a configuration is read as its copy is. -/
theorem ofRaw_unshare (hc : h.Closed) (hac : h.Acyclic config) :
    Tree.ofRaw (h.unshare config).1 (h.unshare config).2 = Tree.ofRaw h config := by
  obtain ⟨hext, hunfold, -⟩ := unfolding_of_unshare fun _ => fits_of_acyclic hc hac
  cases hg : h.unfoldConfig? config with
  | some groups => exact ofRaw_eq_of_unfoldConfig?_eq hc hext hg (hunfold.trans hg)
  | none =>
    have hn : ∀ a entries, h.view config ≠ .mapping a entries := fun a entries hv => by
      rw [unfoldConfig?_of_mapping hv] at hg
      cases hg
    rw [(unshare_of_other hn).1]

/-- **Sharing does not change what is read, and there are no false cycles.**  When every address has
an object and nothing lies inside itself, a configuration is read as the copy is in which every list
and every category is an object of its own at every place where it stands.  And whatever the
objects are, an error that speaks of a node in itself stands where a mapping has been a node before,
on the way, at a proper prefix of the path; and one that speaks of a list in itself, where a list of
items has been met in the same way. -/
theorem sharing_is_transparent (h : Heap) (config : Value) :
    (h.Closed → h.Acyclic config →
      Tree.ofRaw (h.unshare config).1 (h.unshare config).2 = Tree.ofRaw h config ∧
        (h.unshare config).1.unfoldConfig? (h.unshare config).2 = h.unfoldConfig? config ∧
        ((h.unshare config).1.containers (h.unshare config).2).Nodup ∧
        ∀ a ∈ (h.unshare config).1.containers (h.unshare config).2, h.objects.size ≤ a) ∧
      (∀ path, Tree.ofRaw h config = .error (.schema ⟨path, .nodeInItself⟩) →
        ∃ v a entries, h.view v = .mapping a entries ∧ h.StandsAgain config .node path v) ∧
      ∀ path, Tree.ofRaw h config = .error (.schema ⟨path, .itemsInItself⟩) →
        ∃ v a nodes, h.sequence? v = some (a, nodes) ∧ h.StandsAgain config .items path v := by
  refine ⟨fun hc hac => ?_, fun _ => standsAgain_of_nodeInItself,
    fun _ => standsAgain_of_itemsInItself⟩
  obtain ⟨-, hunfold, hnodup, hfresh⟩ := unfolding_of_unshare fun _ => fits_of_acyclic hc hac
  exact ⟨ofRaw_unshare hc hac, hunfold, hnodup, hfresh⟩

/-- Two groups share a list in which the same category stands twice; `items` are its items, and
`node` is what a further list holds. -/
def sharedHeap (items node : Value) : Heap := ⟨#[
  .mapping [(.text "guides", .ref 1), (.text "more", .ref 1)],
  .list [.ref 2, .ref 2],
  .mapping
    [(.text "type", .text "category"), (.text "label", .text "Part"), (.text "items", items)],
  .list [node]]⟩

theorem contains_sharedHeap
    (hvw : (sharedHeap (.ref 3) (.text "intro")).Contains v w) :
    v = .ref 1 ∧ w = .ref 2 ∨ v = .ref 2 ∧ w = .ref 3 := by
  cases hvw with
  | @element a b nodes entries hs hw hm =>
    obtain ⟨rfl, ho⟩ := object?_of_sequence? hs
    rcases a with _ | _ | _ | _ | a <;> simp [sharedHeap, object?] at ho <;> subst ho
    · exact .inl ⟨rfl, by simpa using hw⟩
    · obtain rfl := List.mem_singleton.1 hw
      cases hm
  | @items a entries hv _ hw =>
    obtain rfl := eq_ref_of_mapping hv
    have ho := object?_of_view hv
    rcases a with _ | _ | _ | _ | a <;> simp [sharedHeap, object?] at ho <;> subst ho <;> cases hw
    exact .inr ⟨rfl, rfl⟩

/-- What is shared is read at each place, and it is an error where it stands in itself. -/
theorem sharing_in_sharedHeap :
    (sharedHeap (.ref 3) (.text "intro")).Closed ∧
      (sharedHeap (.ref 3) (.text "intro")).Acyclic (.ref 0) ∧
      Tree.ofRaw ((sharedHeap (.ref 3) (.text "intro")).unshare (.ref 0)).1
        ((sharedHeap (.ref 3) (.text "intro")).unshare (.ref 0)).2 =
          Tree.ofRaw (sharedHeap (.ref 3) (.text "intro")) (.ref 0) ∧
      (∃ v, (sharedHeap (.ref 3) (.ref 2)).StandsAgain (.ref 0) .node
        [.name "guides", .index 0, .index 0] v) ∧
      ∃ v, (sharedHeap (.ref 1) .null).StandsAgain (.ref 0) .items
        [.name "guides", .index 0] v := by
  have hclosed : (sharedHeap (.ref 3) (.text "intro")).Closed := by
    simp [Closed, sharedHeap, Object.values, IsIn]
  have hacyclic : (sharedHeap (.ref 3) (.text "intro")).Acyclic (.ref 0) := by
    refine fun _ _ _ e _ => noCycleFrom_of_rank (fun v => if v = .ref 1 then 0 else
      if v = .ref 2 then 1 else 2) (fun v w hvw => ?_) e.2
    rcases contains_sharedHeap hvw with ⟨rfl, rfl⟩ | ⟨rfl, rfl⟩ <;> decide
  have hnode : Tree.ofRaw (sharedHeap (.ref 3) (.ref 2)) (.ref 0) =
      .error (.schema ⟨[.name "guides", .index 0, .index 0], .nodeInItself⟩) :=
    Tree.ofRaw_of_run rfl
  have hitems : Tree.ofRaw (sharedHeap (.ref 1) .null) (.ref 0) =
      .error (.schema ⟨[.name "guides", .index 0], .itemsInItself⟩) :=
    Tree.ofRaw_of_run rfl
  obtain ⟨v, _, _, _, hagain⟩ := (sharing_is_transparent _ _).2.1 _ hnode
  obtain ⟨w, _, _, _, hagain'⟩ := (sharing_is_transparent _ _).2.2 _ hitems
  exact ⟨hclosed, hacyclic, ((sharing_is_transparent _ _).1 hclosed hacyclic).1, ⟨v, hagain⟩,
    w, hagain'⟩

end Raw.Heap

end Sidebar
