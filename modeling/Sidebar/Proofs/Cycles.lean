import Sidebar.Proofs.Sharing
import Sidebar.Proofs.UnreadFields

/-!
# Sidebar.Proofs.Cycles: configurations that contain themselves

* `exists_error_of_cycle`: a cycle of lists and categories that can be reached from a group is an
  error; without one, no error speaks of a cycle.
* `toOption_ofRaw`: what stands in the fields that are not read of a node, cycles or not, does not
  change which tree is read.
* `reading_comes_to_an_end`: reading ends on every configuration.
-/

namespace Sidebar.Raw

open Relation

/-- The place is one for a list of nodes or for a node. -/
def Role.Inside : Role → Prop
  | .config => False
  | .groupName => False
  | .items _ => True
  | .node _ => True

namespace Heap

variable {h t : Heap} {config v w : Value} {path : NodePath} {ancestors : List Address}
  {p q : Position} {a : Address}

/-! ## A cycle is an error -/

theorem inside_of_step (hstep : Position.Step h p q) (hp : p.role.Inside) : q.role.Inside := by
  cases hstep with
  | groupName => exact hp.elim
  | group => exact hp.elim
  | node => trivial
  | items => trivial

/-- From a well-formed place, whatever is contained there is met in a single step, and what is left
behind is a new ancestor. -/
theorem step_of_contains (hp : h.WellFormed p) (hin : p.role.Inside)
    (hc : h.Contains p.value w) :
    ∃ a q, p.value = .ref a ∧ a ∉ p.role.ancestors ∧ Position.Step h p q ∧ q.value = w ∧
      q.role.ancestors = a :: p.role.ancestors := by
  obtain ⟨path, role, v⟩ := p
  cases role with
  | config => exact hin.elim
  | groupName => exact hin.elim
  | items ancestors =>
    obtain ⟨a, nodes, hs, ha⟩ := hp
    cases hc with
    | element hs' hw =>
      obtain ⟨rfl, rfl⟩ := Prod.mk.inj (Option.some.inj (hs.symm.trans hs'))
      obtain ⟨i, hi⟩ := List.mem_iff_getElem?.1 hw
      exact ⟨a, _, (object?_of_sequence? hs).1, ha, .node hs ha hi, rfl, rfl⟩
    | items hv => cases (sequence?_of_mapping hv).symm.trans hs
  | node ancestors =>
    cases hc with
    | element hs =>
      rcases hp with ⟨id, hv, -⟩ | ⟨a, entries, hv, -⟩
      · cases (view_eq_text hv).symm.trans (object?_of_sequence? hs).1
      · cases (sequence?_of_mapping hv).symm.trans hs
    | items hv hcat hw =>
      rcases hp with ⟨id, hv', -⟩ | ⟨b, entries', hv', hd | hwell⟩
      · cases hv.symm.trans hv'
      · obtain ⟨rfl, rfl⟩ := View.mapping.inj (hv.symm.trans hv')
        exact absurd hcat hd.1.not_category
      · obtain ⟨rfl, rfl⟩ := View.mapping.inj (hv.symm.trans hv')
        exact ⟨_, _, eq_ref_of_mapping hv, hwell.2.1, .items hv hwell.2.1 hcat hw, rfl, rfl⟩

/-- Where every place is well-formed, containment leads from one place to another. -/
theorem mem_of_contains (hwell : ∀ q ∈ h.positions config, h.WellFormed q)
    (hp : p ∈ h.positions config) (hin : p.role.Inside) (hc : ReflTransGen h.Contains p.value w) :
    ∃ q ∈ h.positions config, q.role.Inside ∧ q.value = w ∧
      p.role.ancestors ⊆ q.role.ancestors := by
  induction hc with
  | refl => exact ⟨p, hp, hin, rfl, List.Subset.refl _⟩
  | tail _ hstep ih =>
    obtain ⟨q, hq, hqin, rfl, hsub⟩ := ih
    obtain ⟨a, r, -, -, hqr, rfl, hr⟩ := step_of_contains (hwell q hq) hqin hstep
    have hrmem := mem_positions_iff.2 ((mem_positions_iff.1 hq).tail hqr)
    refine ⟨r, hrmem, inside_of_step hqr hqin, rfl, fun b hb => ?_⟩
    rw [hr]
    exact List.mem_cons_of_mem _ (hsub hb)

/-- Where every place is well-formed, nothing that is met contains itself. -/
theorem not_cycle_of_wellFormed (hwell : ∀ q ∈ h.positions config, h.WellFormed q)
    (hp : p ∈ h.positions config) (hin : p.role.Inside) :
    ¬ TransGen h.Contains p.value p.value := by
  intro hcycle
  obtain ⟨w, hw, hback⟩ := TransGen.head'_iff.1 hcycle
  obtain ⟨a, q, ha, -, hpq, rfl, hq⟩ := step_of_contains (hwell p hp) hin hw
  have hqmem : q ∈ h.positions config :=
    mem_positions_iff.2 ((mem_positions_iff.1 hp).tail hpq)
  -- once around the cycle, the value is met again inside itself
  obtain ⟨r, hr, hrin, hrp, hsub⟩ := mem_of_contains hwell hqmem (inside_of_step hpq hin) hback
  rw [← hrp] at hw ha
  obtain ⟨b, _, hb, hnew, -⟩ := step_of_contains (hwell r hr) hrin hw
  obtain rfl : a = b := Value.ref.inj (ha.symm.trans hb)
  exact hnew (hsub (hq ▸ List.mem_cons_self))

/-- **A cycle is an error.** -/
theorem exists_error_of_cycle (hc : ¬ h.Acyclic config) : ∃ e, Tree.ofRaw h config = .error e := by
  cases hr : Tree.ofRaw h config with
  | error e => exact ⟨e, rfl⟩
  | ok tree =>
    have hwell := ofRaw_eq_ok_iff.1 ⟨tree, hr⟩
    refine absurd (fun a entries hv e he w hw hcycle => ?_) hc
    have hkey : h.WellFormed ⟨[], .groupName, e.1⟩ :=
      hwell _ (mem_positions_iff.2 (.single (.groupName hv he)))
    obtain ⟨name, hname, -⟩ := hkey
    have hgroup : ⟨.ofGroup name, .items [], e.2⟩ ∈ h.positions config :=
      mem_positions_iff.2 (.single (.group hv he hname))
    obtain ⟨q, hq, hin, rfl, -⟩ := mem_of_contains hwell hgroup trivial hw
    exact not_cycle_of_wellFormed hwell hq hin hcycle

/-! ## Without a cycle no error speaks of one -/

/-- A step to a list or a category, from inside, follows containment. -/
theorem contains_of_step (hstep : Position.Step h p q) (hp : p.role.Inside)
    (hq : h.container? q = some a) : h.Contains p.value q.value := by
  cases hstep with
  | groupName => exact hp.elim
  | group => exact hp.elim
  | node hs _ hw =>
    rw [container?] at hq
    dsimp only at hq
    split at hq
    · next b entries hv =>
      split at hq
      · next hcat => exact .element hs (List.mem_of_getElem? hw) hv hcat
      · cases hq
    · cases hq
  | items hv _ hcat hw => exact .items hv hcat hw

theorem container?_items {nodes : List Value} (hs : h.sequence? v = some (a, nodes)) :
    h.container? ⟨path, .items ancestors, v⟩ = some a := by
  rw [container?, hs]
  rfl

theorem container?_node {entries : List (Value × Value)} (hv : h.view v = .mapping a entries)
    (hc : h.HasType "category" entries) : h.container? ⟨path, .node ancestors, v⟩ = some a := by
  rw [container?]
  dsimp only
  rw [hv]
  exact if_pos hc

/-- What is stepped into is a list or a category. -/
theorem container?_of_step (hstep : Position.Step h p q) (hp : p.role.Inside) :
    ∃ a, h.container? p = some a := by
  cases hstep with
  | groupName => exact hp.elim
  | group => exact hp.elim
  | node hs => exact ⟨_, container?_items hs⟩
  | items hv _ hcat => exact ⟨_, container?_node hv hcat⟩

theorem contains_of_steps (hsteps : TransGen (Position.Step h) p q) (hp : p.role.Inside)
    (hq : h.container? q = some a) : TransGen h.Contains p.value q.value := by
  induction hsteps using TransGen.head_induction_on with
  | single hstep => exact .single (contains_of_step hstep hp hq)
  | head hstep hsteps ih =>
    have hr := inside_of_step hstep hp
    obtain ⟨s, hs, -⟩ := TransGen.head'_iff.1 hsteps
    obtain ⟨b, hb⟩ := container?_of_step hs hr
    exact .head (contains_of_step hstep hp hb) (ih hr)

/-- Every place inside is reached from the value of a group. -/
theorem exists_group_of_mem (hp : p ∈ h.positions config) (hin : p.role.Inside)
    (hcontainer : h.container? p = some a) :
    ∃ b entries, h.view config = .mapping b entries ∧
      ∃ e ∈ entries, ReflTransGen h.Contains e.2 p.value := by
  rw [mem_positions_iff] at hp
  rcases hp.cases_head with rfl | ⟨q, hstep, hsteps⟩
  · exact hin.elim
  · cases hstep with
    | groupName hv he =>
      rcases hsteps.cases_head with rfl | ⟨r, hr, -⟩
      · exact hin.elim
      · cases hr
    | group hv he hk =>
      refine ⟨_, _, hv, _, he, ?_⟩
      rcases reflTransGen_iff_eq_or_transGen.1 hsteps with rfl | hsteps
      · exact .refl
      · exact (contains_of_steps hsteps trivial hcontainer).to_reflTransGen

/-- A list or a category that stands in itself is on a cycle. -/
theorem not_acyclic_of_entered (hp : p ∈ h.positions config) (hcontainer : h.container? p = some a)
    (ha : a ∈ p.role.ancestors) : ¬ h.Acyclic config := by
  intro hac
  obtain ⟨q, hq, hqcontainer, hsteps⟩ := enteredBefore_of_mem hp ha
  have hin : ∀ {r : Position}, h.container? r = some a → r.role.Inside ∧ r.value = .ref a := by
    intro r hr
    rcases container?_cases hr with ⟨_, _, hrole, hs⟩ | ⟨_, _, hrole, hv⟩
    · exact ⟨hrole ▸ trivial, (object?_of_sequence? hs).1⟩
    · exact ⟨hrole ▸ trivial, eq_ref_of_mapping hv⟩
  have hcycle := contains_of_steps hsteps (hin hqcontainer).1 hcontainer
  obtain ⟨b, entries, hv, e, he, hreach⟩ := exists_group_of_mem hp (hin hcontainer).1 hcontainer
  rw [(hin hqcontainer).2, ← (hin hcontainer).2] at hcycle
  exact hac b entries hv e he _ hreach hcycle

/-- **Without a cycle no error speaks of one.** -/
theorem not_isCycle_of_acyclic (hac : h.Acyclic config) {e : ConfigError}
    (he : Tree.ofRaw h config = .error e) : ¬ e.IsCycle := by
  intro hcycle
  obtain ⟨p, hfirst, hp⟩ := ofRaw_eq_error_iff.1 he
  have hm := mem_of_firstIllFormed hfirst
  have hanc := areAncestors_of_mem hm
  obtain ⟨path, role, v⟩ := p
  rcases stands_in_itself hanc hp hcycle with
    ⟨ancestors, entries, a, ha, rfl, hv, -⟩ | ⟨ancestors, nodes, a, ha, rfl, hs, -⟩
  · exact not_acyclic_of_entered hm (container?_node hv (hanc a ha v entries hv)) ha hac
  · exact not_acyclic_of_entered hm (container?_items hs) ha hac

/-! ## Reading comes to an end -/

/-- **Reading comes to an end**, whatever is shared and whatever lies inside itself.  With two calls
open for each object, and one more, it is never broken off, and every call carries different objects
as its ancestors.  A cycle of containment that is reached from a group is an error; without one, no
error speaks of a cycle; and what stands in the fields that are not read of a node, such as a cycle,
does not change which tree is read, or whether one is. -/
theorem reading_comes_to_an_end (h : Heap) (config : Value) :
    (∀ n, 2 * h.objects.size + 1 ≤ n →
        (Tree.run h n config).outcome? = some (Tree.ofRaw h config)) ∧
      (∀ n, ∀ c ∈ (Tree.run h n config).calls,
        c.ancestors.Nodup ∧ ∀ a ∈ c.ancestors, ∃ o, h.object? a = some o) ∧
      (¬ h.Acyclic config → ∃ e, Tree.ofRaw h config = .error e) ∧
      (h.Acyclic config → ∀ e, Tree.ofRaw h config = .error e → ¬ e.IsCycle) ∧
      ∀ t, h.AgreeWhereRead t config →
        (Tree.ofRaw t config).toOption = (Tree.ofRaw h config).toOption :=
  ⟨fun _ hn => treeRun_goes hn, fun _ => treeRun_keeps, exists_error_of_cycle,
    fun hac _ he => not_isCycle_of_acyclic hac he, fun _ => toOption_ofRaw⟩

/-- A document with two fields that are not read. -/
def fieldHeap (id next : Value) : Heap := ⟨#[
  .mapping [(.text "guides", .ref 1)],
  .list [.ref 2],
  .mapping
    [(.text "type", .text "doc"), (.text "id", id), (.text "items", next), (.text "next", next)]]⟩

theorem not_category_fieldHeap {id next : Value} {entries : List (Value × Value)}
    (hv : (fieldHeap id next).view v = .mapping a entries) :
    ¬ (fieldHeap id next).HasType "category" entries := by
  intro hc
  have ho := object?_of_view hv
  rcases a with _ | _ | _ | a <;> simp [fieldHeap, object?] at ho <;> subst ho
  · cases hc
  · exact absurd hc (HasType.not_category rfl)

/-- Nothing in it is followed but the way to the document. -/
theorem acyclic_fieldHeap {id next : Value} : (fieldHeap id next).Acyclic config := by
  refine fun _ _ _ e _ => noCycleFrom_of_rank (fun _ => 0) (fun v w hvw => ?_) e.2
  cases hvw with
  | element _ _ hm hc => exact absurd hc (not_category_fieldHeap hm)
  | items hv hc => exact absurd hc (not_category_fieldHeap hv)

theorem agreeWhereRead_fieldHeap {id next other : Value} :
    (fieldHeap id next).AgreeWhereRead (fieldHeap id other) (.ref 0) := by
  refine ⟨rfl, fun a => ?_⟩
  rcases a with _ | _ | _ | a
  · exact .inl rfl
  · exact .inl rfl
  · refine .inr ⟨_, _, rfl, rfl, rfl, fun type ht key hkey => ?_⟩
    cases type with
    | category => exact absurd ht (HasType.not_category rfl)
    | doc =>
      simp only [NodeType.fields, List.mem_cons, List.not_mem_nil, or_false] at hkey
      rcases hkey with rfl | rfl <;> rfl
  · exact .inl rfl

/-- The category in the shared list holds itself. -/
def cycleHeap : Heap := sharedHeap (.ref 3) (.ref 2)

theorem not_acyclic_cycleHeap : ¬ cycleHeap.Acyclic (.ref 0) := by
  intro hac
  have h12 : cycleHeap.Contains (.ref 1) (.ref 2) := .element rfl List.mem_cons_self rfl rfl
  have h23 : cycleHeap.Contains (.ref 2) (.ref 3) := .items rfl rfl rfl
  have h32 : cycleHeap.Contains (.ref 3) (.ref 2) := .element rfl List.mem_cons_self rfl rfl
  exact hac _ _ rfl _ List.mem_cons_self _ (.single h12) (.tail (.single h23) h32)

/-- The category that holds itself is refused in a call inside four others; where only fields that
are not read lead back, the same is read as without them. -/
theorem reading_of_cycleHeap_and_fieldHeap :
    (¬ cycleHeap.Acyclic (.ref 0) ∧ ∃ e, Tree.ofRaw cycleHeap (.ref 0) = .error e) ∧
      (2 * cycleHeap.objects.size + 1 ≤ 9 ∧
        (Tree.run cycleHeap 9 (.ref 0)).outcome? = some (Tree.ofRaw cycleHeap (.ref 0))) ∧
      (⟨.node, [.name "guides", .index 0, .index 0], [3, 2, 1]⟩ ∈
          (Tree.run cycleHeap 9 (.ref 0)).calls ∧
        [3, 2, 1].Nodup ∧ ∀ a ∈ [3, 2, 1], ∃ o, cycleHeap.object? a = some o) ∧
      ((fieldHeap .null (.ref 1)).Acyclic (.ref 0) ∧
        ∃ e, Tree.ofRaw (fieldHeap .null (.ref 1)) (.ref 0) = .error e ∧ ¬ e.IsCycle) ∧
      (fieldHeap (.text "intro") .null).AgreeWhereRead (fieldHeap (.text "intro") (.ref 1))
          (.ref 0) ∧
        (Tree.ofRaw (fieldHeap (.text "intro") (.ref 1)) (.ref 0)).toOption =
          (Tree.ofRaw (fieldHeap (.text "intro") .null) (.ref 0)).toOption := by
  obtain ⟨hgoes, hcalls, hcycle, -⟩ := reading_comes_to_an_end cycleHeap (.ref 0)
  have hcall : (⟨.node, [.name "guides", .index 0, .index 0], [3, 2, 1]⟩ : Call) ∈
      (Tree.run cycleHeap 9 (.ref 0)).calls := by decide
  have hfault : Tree.ofRaw (fieldHeap .null (.ref 1)) (.ref 0) =
      .error (.schema ⟨[.name "guides", .index 0], .noId⟩) := Tree.ofRaw_of_run rfl
  exact ⟨⟨not_acyclic_cycleHeap, hcycle not_acyclic_cycleHeap⟩, ⟨by decide, hgoes 9 (by decide)⟩,
    ⟨hcall, hcalls 9 _ hcall⟩,
    ⟨acyclic_fieldHeap, _, hfault,
      (reading_comes_to_an_end _ _).2.2.2.1 acyclic_fieldHeap _ hfault⟩,
    agreeWhereRead_fieldHeap, (reading_comes_to_an_end _ _).2.2.2.2 _ agreeWhereRead_fieldHeap⟩

end Heap

end Sidebar.Raw
