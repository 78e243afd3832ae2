import Sidebar.Proofs.Unfolding

/-!
# Sidebar.Proofs.Calls: the calls that reading a configuration makes

Reading a list calls the reading of its nodes, reading a node that is a category calls the reading
of the category, and that calls the reading of its items.  `Tree.run` reads so with no more than a
given number of calls open inside each other: it is broken off where one more would be needed, and
it tells the calls it made.  Nothing in it says why the calls should come to an end.

* `Run.Goes.bind`, `Run.Keeps.bind`: what holds of a run that goes on with another one.
* `run_goes`: a run is not broken off when twice as many calls can be open as there are objects, and
  one more; each call that is left to be made has an object less to enter.
* `run_keeps`: the ancestors of every call are different objects.
* `Tree.ofRaw_of_run`: what a configuration is read as can be had by evaluating a run.
-/

namespace Sidebar

open Raw Raw.Heap

/-- A function that reads a part of a configuration by calls to the others. -/
inductive Reader
  | list
  | node
  | category
deriving DecidableEq

/-- A call: of which reader, for which place, and inside which lists and categories. -/
structure Call where
  reader : Reader
  path : NodePath
  ancestors : List Address
deriving DecidableEq

/-- The calls that a run made, in order, and what came of it unless it was broken off. -/
structure Run (α : Type) where
  calls : List Call
  outcome? : Option (Except ConfigError α)

namespace Run

variable {α β : Type}

/-- The run that makes no call. -/
def of (r : Except ConfigError α) : Run α := ⟨[], some r⟩

/-- The run that would need a call too many. -/
def brokenOff : Run α := ⟨[], none⟩

/-- The run behind a call. -/
def after (c : Call) (r : Run α) : Run α := ⟨c :: r.calls, r.outcome?⟩

/-- The run with a part of what it gives made into something else. -/
def map (f : α → β) (r : Run α) : Run β := ⟨r.calls, r.outcome?.map (Except.map f)⟩

/-- Goes on with what a run gives, if it is not broken off and gives no error. -/
def bind (r : Run α) (f : α → Run β) : Run β :=
  match r.outcome? with
  | none => ⟨r.calls, none⟩
  | some (.error e) => ⟨r.calls, some (.error e)⟩
  | some (.ok a) => ⟨r.calls ++ (f a).calls, (f a).outcome?⟩

/-- The run gets to the end, with this outcome. -/
def Goes (r : Run α) (outcome : Except ConfigError α) : Prop := r.outcome? = some outcome

variable {r : Run α} {x : Except ConfigError α}

theorem Goes.map (hr : r.Goes x) (f : α → β) : (r.map f).Goes (x.map f) :=
  congrArg (Option.map (Except.map f)) hr

theorem Goes.bind {f : α → Run β} {g : α → Except ConfigError β} (hr : r.Goes x)
    (hf : ∀ a, (f a).Goes (g a)) : (r.bind f).Goes (x.bind g) := by
  rw [Goes] at hr
  rw [Goes, Run.bind, hr]
  cases x with
  | error e => rfl
  | ok a => exact hf a

/-- All calls of the run have the property. -/
def Keeps (P : Call → Prop) (r : Run α) : Prop := ∀ c ∈ r.calls, P c

variable {P : Call → Prop}

theorem keeps_of (r : Except ConfigError α) : (of r).Keeps P :=
  fun _ hc => absurd hc List.not_mem_nil

theorem Keeps.after {c : Call} (hc : P c) (hr : r.Keeps P) : (after c r).Keeps P :=
  List.forall_mem_cons.2 ⟨hc, hr⟩

theorem Keeps.map (hr : r.Keeps P) (f : α → β) : (r.map f).Keeps P := hr

theorem Keeps.bind {f : α → Run β} (hr : r.Keeps P) (hf : ∀ a, (f a).Keeps P) :
    (r.bind f).Keeps P := by
  rw [Run.bind]
  split
  · exact hr
  · exact hr
  · exact List.forall_mem_append.2 ⟨hr, hf _⟩

end Run

/-! ## Reading with a bounded number of open calls -/

namespace Item

/-- Reads nodes, of which the first has number `i`, one after the other. -/
def runNodes (node : NodePath → Value → Run Item) (path : NodePath) :
    Nat → List Value → Run (List Item)
  | _, [] => .of (.ok [])
  | i, v :: nodes =>
    (node (path.child i) v).bind fun item =>
      (runNodes node path (i + 1) nodes).map (item :: ·)

mutual

/-- Reads the value that should be a list of nodes, with at most `n` open calls. -/
def runList (h : Heap) : Nat → NodePath → List Address → Value → Run (List Item)
  | 0, _, _, _ => .brokenOff
  | n + 1, path, ancestors, v =>
    .after ⟨.list, path, ancestors⟩ <|
      match h.sequence? v with
      | none => .of (.error (.schema ⟨path, .itemsNotList (h.view v).typeName⟩))
      | some (a, nodes) =>
        if a ∈ ancestors then .of (.error (.schema ⟨path, .itemsInItself⟩))
        else runNodes (fun path w => runNode h n path (a :: ancestors) w) path 0 nodes

/-- Reads a node, with at most `n` open calls. -/
def runNode (h : Heap) : Nat → NodePath → List Address → Value → Run Item
  | 0, _, _, _ => .brokenOff
  | n + 1, path, ancestors, v =>
    .after ⟨.node, path, ancestors⟩ <|
      match h.view v with
      | .text id => .of ((Doc.ofId h path id).map .doc)
      | .mapping a entries =>
        if a ∈ ancestors then .of (.error (.schema ⟨path, .nodeInItself⟩))
        else
          match NodeType.ofEntries h path entries with
          | .error e => .of (.error e)
          | .ok .doc => .of ((Doc.ofEntries h path entries).map .doc)
          | .ok .category => runCategory h n path (a :: ancestors) entries
      | found => .of (.error (.schema ⟨path, .nodeNotMapping found.typeName⟩))

/-- Reads the entries of a category, with at most `n` open calls. -/
def runCategory (h : Heap) : Nat → NodePath → List Address → List (Value × Value) → Run Item
  | 0, _, _, _ => .brokenOff
  | n + 1, path, ancestors, entries =>
    .after ⟨.category, path, ancestors⟩ <|
      (Run.of (categoryHead h path entries)).bind fun head =>
        (runList h n path ancestors head.2).map (.category head.1)

end

end Item

/-- Reads the entries of a configuration, with at most `n` open calls. -/
def Group.run (h : Heap) (n : Nat) : List (Value × Value) → Run (List Group)
  | [] => .of (.ok [])
  | (key, v) :: entries =>
    match h.view key with
    | .text name =>
      if name = [] then .of (.error (h.showing [] .groupName key))
      else
        (Item.runList h n (.ofGroup name) [] v).bind fun items =>
          (run h n entries).map ((name, items) :: ·)
    | _ => .of (.error (h.showing [] .groupName key))

/-- Reads a configuration, with at most `n` open calls. -/
def Tree.run (h : Heap) (n : Nat) (v : Value) : Run Tree :=
  match h.view v with
  | .mapping _ entries => (Group.run h n entries).map Tree.ofGroups
  | found => .of (.error (.schema ⟨[], .rootNotMapping found.typeName⟩))

/-! ## Runs that are not broken off -/

section Goes

variable {h : Heap} {n : Nat} {path : NodePath} {ancestors : List Address} {v : Value}
  {entries : List (Value × Value)}

theorem nodesFrom_cons (i : Nat) (w : Value) (nodes : List Value) :
    Item.nodesFrom h path ancestors i (w :: nodes) =
      (Item.nodeAt h (path.child i) ancestors w).bind fun item =>
        (Item.nodesFrom h path ancestors (i + 1) nodes).map (item :: ·) := by
  rw [Item.nodesFrom]
  cases Item.nodeAt h (path.child i) ancestors w with
  | error e => rfl
  | ok item => cases Item.nodesFrom h path ancestors (i + 1) nodes <;> rfl

theorem listOf_cons {key : Value} {name : Text} (hk : h.view key = .text name) (hn : name ≠ []) :
    Group.listOf h ((key, v) :: entries) =
      (Item.listAt h (.ofGroup name) [] v).bind fun items =>
        (Group.listOf h entries).map ((name, items) :: ·) := by
  rw [Group.listOf, hk]
  dsimp only
  rw [if_neg hn]
  cases Item.listAt h (.ofGroup name) [] v with
  | error e => rfl
  | ok items => cases Group.listOf h entries <;> rfl

theorem listOf_of_no_name {key : Value} (hk : ¬ ∃ name, key = .text name ∧ name ≠ []) :
    Group.listOf h ((key, v) :: entries) = .error (h.showing [] .groupName key) := by
  rw [Group.listOf]
  split
  · next name hname =>
    refine if_pos ?_
    by_contra hn
    exact hk ⟨name, view_eq_text hname, hn⟩
  · rfl

theorem runNodes_goes {node : NodePath → Value → Run Item}
    (hnode : ∀ path w, (node path w).Goes (Item.nodeAt h path ancestors w)) (i : Nat)
    (nodes : List Value) :
    (Item.runNodes node path i nodes).Goes (Item.nodesFrom h path ancestors i nodes) := by
  induction nodes generalizing i with
  | nil =>
    rw [Item.nodesFrom]
    exact rfl
  | cons w nodes ih =>
    rw [nodesFrom_cons]
    exact (hnode _ w).bind fun item => (ih (i + 1)).map (item :: ·)

/-- A list is read if the nodes in it are, with one call less. -/
theorem runList_goes
    (ih : ∀ a < h.objects.size, a ∉ ancestors → ∀ path w,
      (Item.runNode h n path (a :: ancestors) w).Goes (Item.nodeAt h path (a :: ancestors) w)) :
    (Item.runList h (n + 1) path ancestors v).Goes (Item.listAt h path ancestors v) := by
  rw [Item.runList]
  cases hs : h.sequence? v with
  | none =>
    rw [listAt_of_other hs]
    exact rfl
  | some s =>
    obtain ⟨a, nodes⟩ := s
    rw [listAt_of_sequence? hs]
    dsimp only
    by_cases ha : a ∈ ancestors
    · rw [if_pos ha, if_pos ha]
      exact rfl
    · rw [if_neg ha, if_neg ha]
      exact runNodes_goes (ih a (lt_size_of_sequence? hs) ha) 0 nodes

/-- Reads the entries of a category. -/
def Item.categoryAt (h : Heap) (path : NodePath) (ancestors : List Address)
    (entries : List (Value × Value)) : Except ConfigError Item :=
  (categoryHead h path entries).bind fun head =>
    (Item.listAt h path ancestors head.2).map (.category head.1)

/-- A node is read if the category that it may be is, with one call less. -/
theorem runNode_goes
    (ih : ∀ a < h.objects.size, a ∉ ancestors → ∀ path entries,
      (Item.runCategory h n path (a :: ancestors) entries).Goes
        (Item.categoryAt h path (a :: ancestors) entries)) :
    (Item.runNode h (n + 1) path ancestors v).Goes (Item.nodeAt h path ancestors v) := by
  rw [Item.runNode]
  by_cases hm : ∃ a entries, h.view v = .mapping a entries
  · obtain ⟨a, entries, hv⟩ := hm
    rw [hv]
    dsimp only
    by_cases ha : a ∈ ancestors
    · rw [if_pos ha, nodeAt_of_mem hv ha]
      exact rfl
    · rw [if_neg ha]
      cases ht : NodeType.ofEntries h path entries with
      | error e =>
        have hc : ¬ h.HasType "category" entries := fun hc => by
          have hok : NodeType.ofEntries h path entries = .ok .category :=
            typeOfEntries_eq_ok_iff.2 hc
          cases ht.symm.trans hok
        rw [nodeAt_of_not_category hv ha hc, ht]
        exact rfl
      | ok type =>
        have htype := typeOfEntries_eq_ok_iff.1 ht
        cases type with
        | doc =>
          rw [nodeAt_of_not_category hv ha htype.not_category, ht]
          exact rfl
        | category =>
          rw [nodeAt_of_category hv ha htype]
          exact ih a (lt_size_of_mapping hv) ha path entries
  · push Not at hm
    rw [nodeAt_of_other hm]
    generalize h.view v = found at hm ⊢
    cases found with
    | mapping a entries => exact absurd rfl (hm a entries)
    | _ => exact rfl

/-- A category is read if its items are, with one call less. -/
theorem runCategory_goes
    (ih : ∀ path v, (Item.runList h n path ancestors v).Goes (Item.listAt h path ancestors v)) :
    (Item.runCategory h (n + 1) path ancestors entries).Goes
      (Item.categoryAt h path ancestors entries) := by
  have hhead : (Run.of (categoryHead h path entries)).Goes (categoryHead h path entries) := rfl
  rw [Item.runCategory]
  exact hhead.bind fun head => (ih path head.2).map (Item.category head.1)

/-- **Where runs get to the end**: with two calls for each object that can still be entered, and one
more. -/
theorem run_goes (h : Heap) (n : Nat) :
    (∀ ancestors, 2 * h.unvisited ancestors + 1 ≤ n → ∀ path v,
      (Item.runList h n path ancestors v).Goes (Item.listAt h path ancestors v)) ∧
    (∀ ancestors, 2 * h.unvisited ancestors + 1 ≤ n → ∀ path v,
      (Item.runNode h n path ancestors v).Goes (Item.nodeAt h path ancestors v)) ∧
    ∀ ancestors, 2 * h.unvisited ancestors + 2 ≤ n → ∀ path entries,
      (Item.runCategory h n path ancestors entries).Goes
        (Item.categoryAt h path ancestors entries) := by
  induction n with
  | zero => exact ⟨fun _ hn => by omega, fun _ hn => by omega, fun _ hn => by omega⟩
  | succ n ih =>
    obtain ⟨ihlist, ihnode, ihcategory⟩ := ih
    refine ⟨fun ancestors hn path v => runList_goes fun a hlt ha => ihnode _ ?_,
      fun ancestors hn path v => runNode_goes fun a hlt ha => ihcategory _ ?_,
      fun ancestors hn path entries => runCategory_goes (ihlist ancestors (by omega))⟩
    -- what has been entered is one object less to enter, and two calls more
    all_goals
      have hless := h.unvisited_cons_lt hlt ha
      omega

theorem unvisited_nil (h : Heap) : h.unvisited [] = h.objects.size := by
  rw [unvisited, unseen, List.countP_eq_length.2 fun a _ => by simp, List.length_range]

theorem groupRun_goes (hn : 2 * h.objects.size + 1 ≤ n) :
    (Group.run h n entries).Goes (Group.listOf h entries) := by
  induction entries with
  | nil => exact rfl
  | cons e entries ih =>
    obtain ⟨key, v⟩ := e
    rw [Group.run]
    split
    · next name hk =>
      split
      · next hname =>
        rw [listOf_of_no_name (by simp [view_eq_text hk, hname])]
        exact rfl
      · next hname =>
        rw [listOf_cons hk hname]
        have hlist := (run_goes h n).1 [] (by rwa [unvisited_nil]) (.ofGroup name) v
        exact hlist.bind fun items => ih.map ((name, items) :: ·)
    · next hk =>
      have hno : ¬ ∃ name, key = .text name ∧ name ≠ [] :=
        fun ⟨name, hkey, _⟩ => hk name (hkey ▸ rfl)
      rw [listOf_of_no_name hno]
      exact rfl

/-- A configuration is read with no more calls open than this. -/
theorem treeRun_goes (hn : 2 * h.objects.size + 1 ≤ n) :
    (Tree.run h n v).Goes (Tree.ofRaw h v) := by
  rw [Tree.run, Tree.ofRaw]
  generalize h.view v = found
  cases found with
  | mapping a entries => exact (groupRun_goes hn).map Tree.ofGroups
  | _ => exact rfl

/-- What a configuration is read as, by evaluating the run with as many calls. -/
theorem Tree.ofRaw_of_run {r : Except ConfigError Tree}
    (hr : (Tree.run h (2 * h.objects.size + 1) v).outcome? = some r) : Tree.ofRaw h v = r :=
  Option.some.inj ((treeRun_goes (Nat.le_refl _)).symm.trans hr)

end Goes

/-! ## What each call carries -/

namespace Raw.Heap

/-- The addresses are those of different objects. -/
def AreDistinct (h : Heap) (ancestors : List Address) : Prop :=
  ancestors.Nodup ∧ ∀ a ∈ ancestors, ∃ o, h.object? a = some o

variable {h : Heap} {ancestors : List Address}

theorem areDistinct_nil : h.AreDistinct [] :=
  ⟨List.nodup_nil, fun _ ha => absurd ha List.not_mem_nil⟩

theorem AreDistinct.cons {a : Address} (hd : h.AreDistinct ancestors) (hlt : a < h.objects.size)
    (ha : a ∉ ancestors) : h.AreDistinct (a :: ancestors) :=
  ⟨List.nodup_cons.2 ⟨ha, hd.1⟩,
    List.forall_mem_cons.2 ⟨⟨_, Array.getElem?_eq_getElem hlt⟩, hd.2⟩⟩

end Raw.Heap

section Keeps

variable {h : Heap} {P : Call → Prop} {n : Nat} {path : NodePath} {ancestors : List Address}
  {v : Value} {entries : List (Value × Value)}

theorem runNodes_keeps {node : NodePath → Value → Run Item}
    (hnode : ∀ path w, (node path w).Keeps P) (i : Nat) (nodes : List Value) :
    (Item.runNodes node path i nodes).Keeps P := by
  induction nodes generalizing i with
  | nil => exact Run.keeps_of _
  | cons w nodes ih => exact (hnode _ w).bind fun item => (ih (i + 1)).map (item :: ·)

/-- **The ancestors of every call** are different objects if those of the first call are: a list or
a category is entered only where it is not among them. -/
theorem run_keeps (h : Heap) (n : Nat) :
    (∀ ancestors, h.AreDistinct ancestors → ∀ path v,
      (Item.runList h n path ancestors v).Keeps fun c => h.AreDistinct c.ancestors) ∧
    (∀ ancestors, h.AreDistinct ancestors → ∀ path v,
      (Item.runNode h n path ancestors v).Keeps fun c => h.AreDistinct c.ancestors) ∧
    ∀ ancestors, h.AreDistinct ancestors → ∀ path entries,
      (Item.runCategory h n path ancestors entries).Keeps fun c => h.AreDistinct c.ancestors := by
  induction n with
  | zero =>
    refine ⟨fun _ _ _ _ => ?_, fun _ _ _ _ => ?_, fun _ _ _ _ => ?_⟩ <;>
      exact fun c hc => absurd hc List.not_mem_nil
  | succ n ih =>
    obtain ⟨ihlist, ihnode, ihcategory⟩ := ih
    refine ⟨fun ancestors hd path v => .after hd ?_, fun ancestors hd path v => .after hd ?_,
      fun ancestors hd path entries => .after hd ?_⟩
    · split
      · exact Run.keeps_of _
      · next a nodes hs =>
        split
        · exact Run.keeps_of _
        · next ha =>
          exact runNodes_keeps (ihnode _ (hd.cons (lt_size_of_sequence? hs) ha)) 0 nodes
    · split
      · exact Run.keeps_of _
      · next a entries hv =>
        split
        · exact Run.keeps_of _
        · next ha =>
          split
          · exact Run.keeps_of _
          · exact Run.keeps_of _
          · exact ihcategory _ (hd.cons (lt_size_of_mapping hv) ha) path entries
      · exact Run.keeps_of _
    · exact (Run.keeps_of _).bind fun head =>
        (ihlist ancestors hd path head.2).map (Item.category head.1)

theorem groupRun_keeps :
    (Group.run h n entries).Keeps fun c => h.AreDistinct c.ancestors := by
  induction entries with
  | nil => exact Run.keeps_of _
  | cons e entries ih =>
    obtain ⟨key, v⟩ := e
    rw [Group.run]
    split
    · next name hk =>
      split
      · exact Run.keeps_of _
      · exact ((run_keeps h n).1 [] areDistinct_nil (.ofGroup name) v).bind fun items =>
          ih.map ((name, items) :: ·)
    · exact Run.keeps_of _

theorem treeRun_keeps : (Tree.run h n v).Keeps fun c => h.AreDistinct c.ancestors := by
  rw [Tree.run]
  split
  · exact groupRun_keeps.map Tree.ofGroups
  · exact Run.keeps_of _

end Keeps

end Sidebar
