import Sidebar.Proofs.Calls
import Sidebar.Proofs.Grammar
import Sidebar.Proofs.Interruption
import Sidebar.Report

/-!
# Sidebar.Proofs.PathNotation: what the notation of a path tells

The notation of a path is the name of the group and the indices in brackets.  The name is not
quoted, so the notation can be cut off at any bracket of it; but no more than that can be mistaken.

* `bracket_inj`: the last bracket of a text is told by the text.
* `exists_of_append_brackets`: of two ways to cut off brackets, one cuts off the end of the other.
* `path_of_mem_positions`, `forall_paths_of_checkItems`: what is reported is reported at nodes.
* `IsNode.eq_of_render_append`: within a group a message tells the node that it begins with.
* `rendered_paths_tell_nodes_apart`: when two nodes have the same notation, and that within a group
  no two nodes are reported in the same words.
-/

namespace Sidebar

/-! ## Nodes -/

namespace NodePath

/-- The path of the node that indices lead to from a group. -/
def node (group : Text) (is : List Nat) : NodePath :=
  .name group :: is.map fun i : Nat => .index i

/-- An index in brackets, such as `[3]`. -/
def bracket (i : Nat) : Text := "[" ++ Text.ofNat i ++ "]"

/-- Indices in brackets. -/
def brackets (is : List Nat) : Text := is.flatMap bracket

theorem node_concat (group : Text) (is : List Nat) (i : Nat) :
    (node group is).child i = node group (is ++ [i]) := by
  rw [node, node, child, List.map_append]
  rfl

theorem render_node (group : Text) (is : List Nat) :
    (node group is).render = group ++ brackets is := by
  rw [node, render, List.flatMap_map]
  rfl

/-! ## Brackets -/

theorem brackets_append (is js : List Nat) : brackets (is ++ js) = brackets is ++ brackets js :=
  List.flatMap_append

theorem brackets_concat (is : List Nat) (i : Nat) :
    brackets (is ++ [i]) = brackets is ++ bracket i := by
  rw [brackets_append, brackets, brackets, List.flatMap_singleton]

theorem bracket_eq_cons (i : Nat) : bracket i = CodePoint.ofChar '[' :: (Text.ofNat i ++ "]") := rfl

theorem brackets_eq_nil_iff {is : List Nat} : brackets is = [] ↔ is = [] := by
  cases is with
  | nil => simp [brackets]
  | cons i is => simp [brackets, bracket_eq_cons]

theorem colon_notMem_brackets (is : List Nat) : CodePoint.ofChar ':' ∉ brackets is := by
  intro h
  obtain ⟨i, -, hi⟩ := List.mem_flatMap.1 h
  rw [bracket_eq_cons, List.mem_cons, List.mem_append] at hi
  rcases hi with hi | hi | hi
  · exact absurd hi (by decide)
  · exact absurd (Text.isDigit_of_mem_ofNat hi).2 (by decide)
  · exact absurd hi (by decide)

/-- What stands before the first separator, and what behind it. -/
theorem first_separator_inj {a : CodePoint} {s t x y : Text} (hs : a ∉ s) (ht : a ∉ t)
    (h : s ++ a :: x = t ++ a :: y) : s = t ∧ x = y := by
  induction s generalizing t with
  | nil =>
    cases t with
    | nil => exact ⟨rfl, (List.cons.inj h).2⟩
    | cons c t => exact absurd ((List.cons.inj h).1 ▸ List.mem_cons_self) ht
  | cons c s ih =>
    cases t with
    | nil => exact absurd ((List.cons.inj h).1 ▸ List.mem_cons_self) hs
    | cons d t =>
      obtain ⟨rfl, hrest⟩ := List.cons.inj h
      obtain ⟨rfl, rfl⟩ :=
        ih (mt (List.mem_cons_of_mem c) hs) (mt (List.mem_cons_of_mem c) ht) hrest
      exact ⟨rfl, rfl⟩

theorem last_separator_inj {a : CodePoint} {s t x y : Text} (hs : a ∉ s) (ht : a ∉ t)
    (h : x ++ a :: s = y ++ a :: t) : x = y ∧ s = t := by
  have hreverse : s.reverse ++ a :: x.reverse = t.reverse ++ a :: y.reverse := by
    simpa using congrArg List.reverse h
  obtain ⟨hst, hxy⟩ := first_separator_inj (mt List.mem_reverse.1 hs) (mt List.mem_reverse.1 ht)
    hreverse
  exact ⟨List.reverse_inj.1 hxy, List.reverse_inj.1 hst⟩

/-- **The last bracket of a text** is told by the text: a numeral holds no bracket, so it begins at
the last one that opens. -/
theorem bracket_inj {x y : Text} {i j : Nat}
    (h : x ++ bracket i = y ++ bracket j) : x = y ∧ i = j := by
  have hopen : ∀ n, CodePoint.ofChar '[' ∉ Text.ofNat n :=
    fun n hn => absurd (Text.isDigit_of_mem_ofNat hn).2 (by decide)
  rw [bracket_eq_cons, bracket_eq_cons, ← List.cons_append, ← List.cons_append,
    ← List.append_assoc, ← List.append_assoc] at h
  obtain ⟨hxy, hij⟩ := last_separator_inj (hopen i) (hopen j) (List.append_cancel_right h)
  exact ⟨hxy, Text.ofNat_inj hij⟩

/-- **Two ways to cut off brackets** from one text: what is left in one is what is left in the other
and some more brackets. -/
theorem exists_of_append_brackets {g h : Text} {is js : List Nat}
    (heq : g ++ brackets is = h ++ brackets js) :
    ∃ ks, h = g ++ brackets ks ∧ is = ks ++ js ∨ g = h ++ brackets ks ∧ js = ks ++ is := by
  -- from the right, since the names can hold brackets themselves
  induction js using List.reverseRecOn generalizing is with
  | nil => exact ⟨is, .inl ⟨(heq.trans (List.append_nil h)).symm, (List.append_nil is).symm⟩⟩
  | append_singleton js j ih =>
    cases is using List.reverseRecOn with
    | nil => exact ⟨js ++ [j], .inr ⟨(List.append_nil g).symm.trans heq, (List.append_nil _).symm⟩⟩
    | append_singleton is i =>
      rw [brackets_concat, brackets_concat, ← List.append_assoc, ← List.append_assoc] at heq
      obtain ⟨hinit, rfl⟩ := bracket_inj heq
      obtain ⟨ks, ⟨hh, his⟩ | ⟨hg, hjs⟩⟩ := ih hinit
      · exact ⟨ks, .inl ⟨hh, by rw [his, List.append_assoc]⟩⟩
      · exact ⟨ks, .inr ⟨hg, by rw [hjs, List.append_assoc]⟩⟩

theorem brackets_inj {is js : List Nat} (h : brackets is = brackets js) : is = js := by
  have hempty : ∀ {ks}, [] = [] ++ brackets ks → ks = [] :=
    fun hks => brackets_eq_nil_iff.1 hks.symm
  have hcut : ([] : Text) ++ brackets is = [] ++ brackets js := h
  obtain ⟨ks, ⟨hks, rfl⟩ | ⟨hks, rfl⟩⟩ := exists_of_append_brackets hcut <;>
    rw [hempty hks, List.nil_append]

/-- **Nodes with the same notation** are the same, or the name of one group is that of the other
with indices that the other path has first. -/
theorem render_node_eq_iff {g h : Text} {is js : List Nat} :
    (node g is).render = (node h js).render ↔
      node g is = node h js ∨ ∃ ks, ks ≠ [] ∧
        (h = g ++ brackets ks ∧ is = ks ++ js ∨ g = h ++ brackets ks ∧ js = ks ++ is) := by
  constructor
  · intro heq
    rw [render_node, render_node] at heq
    obtain ⟨ks, hks⟩ := exists_of_append_brackets heq
    by_cases hne : ks = []
    · subst hne
      refine .inl ?_
      rcases hks with ⟨rfl, rfl⟩ | ⟨rfl, rfl⟩ <;> simp [brackets]
    · exact .inr ⟨ks, hne, hks⟩
  · rintro (heq | ⟨ks, -, ⟨rfl, rfl⟩ | ⟨rfl, rfl⟩⟩)
    · rw [heq]
    · rw [render_node, render_node, brackets_append, List.append_assoc]
    · rw [render_node, render_node, brackets_append, List.append_assoc]

/-! ## Paths of nodes -/

/-- The path leads to a group or to an item of it. -/
def IsNode (path : NodePath) : Prop := ∃ group is, path = node group is

theorem isNode_child {path : NodePath} (h : path.IsNode) (i : Nat) : (path.child i).IsNode := by
  obtain ⟨group, is, rfl⟩ := h
  exact ⟨group, is ++ [i], node_concat group is i⟩

/-- Two nodes of one group. -/
theorem IsNode.exists_of_head? {p q : NodePath} (hp : p.IsNode) (hq : q.IsNode)
    (hgroup : p.head? = q.head?) : ∃ g is js, p = node g is ∧ q = node g js := by
  obtain ⟨g, is, rfl⟩ := hp
  obtain ⟨g', js, rfl⟩ := hq
  obtain rfl : g = g' := PathStep.name.inj (Option.some.inj hgroup)
  exact ⟨g, is, js, rfl, rfl⟩

theorem IsNode.eq_of_render {p q : NodePath} (hp : p.IsNode) (hq : q.IsNode)
    (hgroup : p.head? = q.head?) (h : p.render = q.render) : p = q := by
  obtain ⟨g, is, js, rfl, rfl⟩ := hp.exists_of_head? hq hgroup
  rw [render_node, render_node] at h
  rw [brackets_inj (List.append_cancel_left h)]

/-- **Within a group** a text that begins with the notation of a node and a colon tells the node:
the indices end at the first colon behind the name of the group. -/
theorem IsNode.eq_of_render_append {p q : NodePath} {x y : Text} (hp : p.IsNode) (hq : q.IsNode)
    (hgroup : p.head? = q.head?) (h : p.render ++ ": " ++ x = q.render ++ ": " ++ y) : p = q := by
  obtain ⟨g, is, js, rfl, rfl⟩ := hp.exists_of_head? hq hgroup
  rw [render_node, render_node, List.append_assoc, List.append_assoc, List.append_assoc,
    List.append_assoc] at h
  rw [brackets_inj (first_separator_inj (colon_notMem_brackets is) (colon_notMem_brackets js)
    (List.append_cancel_left h)).1]

end NodePath

/-! ## Where errors are -/

namespace Raw

variable {h : Heap} {config : Value} {p q : Position}

/-- The place has the path of a group or of an item in it, or the empty one where it is in no
group. -/
def Position.Placed (p : Position) : Prop :=
  match p.role with
  | .config => p.path = []
  | .groupName => p.path = []
  | .items _ => p.path.IsNode
  | .node _ => p.path.IsNode

theorem Position.placed_of_step (hstep : Position.Step h p q) (hp : p.Placed) : q.Placed := by
  cases hstep with
  | groupName => exact rfl
  | group => exact ⟨_, [], rfl⟩
  | node => exact NodePath.isNode_child hp _
  | items => exact hp

namespace Heap

/-- Every place of a configuration is in a group, or its path is empty. -/
theorem path_of_mem_positions (hp : p ∈ h.positions config) : p.path = [] ∨ p.path.IsNode := by
  have hplaced : p.Placed := by
    rw [mem_positions_iff] at hp
    induction hp with
    | refl => exact rfl
    | tail _ hstep ih => exact Position.placed_of_step hstep ih
  obtain ⟨path, role, v⟩ := p
  cases role with
  | config => exact .inl hplaced
  | groupName => exact .inl hplaced
  | items ancestors => exact .inr hplaced
  | node ancestors => exact .inr hplaced

theorem path_of_schemaError {e : SchemaError} (he : Tree.ofRaw h config = .error (.schema e)) :
    e.path = [] ∨ e.path.IsNode := by
  obtain ⟨p, ⟨before, behind, hlist, -⟩, hpe⟩ := ofRaw_eq_error_iff.1 he
  have hpath : e.path = p.path := isAt_of_error? hpe
  rw [hpath]
  exact path_of_mem_positions (hlist ▸ List.mem_append_right before List.mem_cons_self)

end Heap

end Raw

/-! ## Where violations are -/

/-- The paths that a violation tells: its own, and that of the first use of an id. -/
def Violation.paths (v : Violation) : List NodePath := v.path :: v.firstPath.toList

section Checks

variable {seen : Seen} {P : NodePath → Prop}

/-- **Step**: the check of an item tells its path and paths that it has met before. -/
theorem forall_paths_of_checkItem (registry : Option Registry) {p : NodePath × Item}
    (hs : ∀ e ∈ seen, P e.2) (hp : P p.1) :
    (∀ v ∈ (checkItem registry seen p).violations, ∀ path ∈ v.paths, P path) ∧
      ∀ e ∈ (checkItem registry seen p).seen, P e.2 := by
  obtain ⟨path, x⟩ := p
  have hpath : ∀ v : Violation, v.path = path → v.firstPath = none → ∀ q ∈ v.paths, P q := by
    intro v hv hfirst q hq
    rw [Violation.paths, hv, hfirst, Option.toList_none, List.mem_singleton] at hq
    exact hq ▸ hp
  cases x with
  | category label items =>
    cases items with
    | nil => exact ⟨by simpa [checkItem, Recorded.of] using hpath _ rfl rfl, hs⟩
    | cons y ys => exact ⟨fun v hv => absurd hv List.not_mem_nil, hs⟩
  | doc d =>
    have hlookup : ∀ v ∈ (lookupDoc registry path d).1.violations, ∀ q ∈ v.paths, P q := by
      intro v hv
      unfold lookupDoc at hv
      split at hv
      · cases hv
      · split at hv
        · cases hv
        · obtain rfl := List.mem_singleton.1 hv
          exact hpath _ rfl rfl
        · cases hv
    have hvisit : (∀ v ∈ (seen.visit path d).1.violations, ∀ q ∈ v.paths, P q) ∧
        ∀ e ∈ (seen.visit path d).2, P e.2 := by
      unfold Seen.visit
      split
      · next first hfirst =>
        refine ⟨fun v hv q hq => ?_, hs⟩
        rw [List.mem_singleton.1 hv, Violation.paths, Violation.duplicateId] at hq
        rcases List.mem_cons.1 hq with rfl | hq
        · exact hp
        · rw [List.mem_singleton.1 hq]
          obtain ⟨before, behind, rfl, -⟩ := List.lookup_eq_some_iff.1 hfirst
          exact hs (d.id, first) (List.mem_append_right before List.mem_cons_self)
      · exact ⟨fun v hv => absurd hv List.not_mem_nil, List.forall_mem_cons.2 ⟨hp, hs⟩⟩
    exact ⟨List.forall_mem_append.2 ⟨hvisit.1, hlookup⟩, hvisit.2⟩

/-- **Run**: a check tells paths of the items that it checks, whatever the registry. -/
theorem forall_paths_of_checkItems (registry : Option Registry) {ps : List (NodePath × Item)}
    (hs : ∀ e ∈ seen, P e.2) (hp : ∀ p ∈ ps, P p.1) :
    ∀ v ∈ (checkItems registry seen ps).violations, ∀ path ∈ v.paths, P path := by
  induction ps generalizing seen with
  | nil => exact fun v hv => absurd hv List.not_mem_nil
  | cons p ps ih =>
    rw [List.forall_mem_cons] at hp
    obtain ⟨hv, hseen⟩ := forall_paths_of_checkItem registry hs hp.1
    rw [checkItems]
    dsimp only
    split
    · exact hv
    · exact List.forall_mem_append.2 ⟨hv, ih hseen hp.2⟩

end Checks

namespace Tree

variable {t : Tree} {registry : Option Registry}

theorem isNode_of_item? {path : NodePath} {x : Item} (h : t.item? path = some x) :
    path.IsNode := by
  obtain ⟨name, -, is, rfl⟩ := exists_indices_of_item? h
  exact ⟨name, is, rfl⟩

/-- The violations that a check finds before it is over or broken off. -/
def found (registry : Option Registry) (t : Tree) : List Violation :=
  (checkItems registry [] t.positions).violations

theorem isNode_of_mem_found {v : Violation} (hv : v ∈ t.found registry) :
    ∀ path ∈ v.paths, path.IsNode :=
  forall_paths_of_checkItems registry (fun _ he => absurd he List.not_mem_nil)
    (fun _ hp => isNode_of_item? (mem_positions.1 hp)) v hv

/-- What is reported is what has been found, and that is all that is logged of violations. -/
theorem validate_tells_found (registry : Option Registry) (t : Tree) :
    (∀ vs, (t.validate registry).outcome = .error (.violations vs) → vs = t.found registry) ∧
      ∀ kind text, .violation kind text ∈ (t.validate registry).log →
        ∃ v ∈ t.found registry, v.kind = kind ∧ v.path.render = text := by
  have hlogged : ∀ kind text, LogRecord.violation kind text ∈ (t.found registry).map .ofViolation →
      ∃ v ∈ t.found registry, v.kind = kind ∧ v.path.render = text := by
    intro kind text hr
    obtain ⟨v, hv, he⟩ := List.mem_map.1 hr
    obtain ⟨rfl, rfl⟩ := LogRecord.violation.inj he
    exact ⟨v, hv, rfl, rfl⟩
  have hlog : (checkItems registry [] t.positions).log = (t.found registry).map .ofViolation :=
    checkItems_agrees registry [] t.positions
  unfold validate
  dsimp only
  split
  · exact ⟨nofun, hlog ▸ hlogged⟩
  · refine ⟨nofun, fun kind text hr => ?_⟩
    rcases List.mem_append.1 hr with hr | hr
    · exact hlogged kind text (hlog ▸ hr)
    · cases List.mem_singleton.1 hr
  · next hv =>
    rw [← hv, hlog]
    exact ⟨fun vs hvs => (ValidationFailure.violations.inj (Except.error.inj hvs)).symm, hlogged⟩

end Tree

/-! ## Reports -/

/-- A text tells the kind of violation that it begins with. -/
theorem ViolationKind.eq_of_name_append {k k' : ViolationKind} {x y : Text}
    (h : k.name ++ x = k'.name ++ y) : k = k' := by
  have hhead : k.name.head? = k'.name.head? := by
    have hhead := congrArg List.head? h
    cases k <;> cases k' <;> exact hhead
  cases k <;> cases k' <;> first | rfl | exact absurd hhead (by decide)

namespace Violation

variable {v w : Violation}

/-- Two violations in one group that are told in the same words, `s` standing between the kind and
the path, are at one node. -/
theorem path_eq_of_words {s : Text} (hv : v.path.IsNode) (hw : w.path.IsNode)
    (hgroup : v.path.head? = w.path.head?)
    (h : v.kind.name ++ s ++ v.path.render ++ ": " ++ v.message =
      w.kind.name ++ s ++ w.path.render ++ ": " ++ w.message) : v.path = w.path := by
  simp only [List.append_assoc] at h
  rw [ViolationKind.eq_of_name_append h] at h
  have hpath := List.append_cancel_left (List.append_cancel_left h)
  rw [← List.append_assoc, ← List.append_assoc] at hpath
  exact hv.eq_of_render_append hw hgroup hpath

theorem path_eq_of_indentedLine (hv : v.path.IsNode) (hw : w.path.IsNode)
    (hgroup : v.path.head? = w.path.head?) (h : v.indentedLine = w.indentedLine) :
    v.path = w.path :=
  path_eq_of_words hv hw hgroup (List.cons.inj (List.cons.inj h).2).2

end Violation

/-- Something is reported at this path: what is wrong with a configuration that is not read, or what
a check finds, with the first use of an id that is used again. -/
inductive Reported : NodePath → Prop
  | schema {h : Raw.Heap} {config : Raw.Value} {e : SchemaError}
      (he : Tree.ofRaw h config = .error (.schema e)) : Reported e.path
  | found {registry : Option Registry} {t : Tree} {v : Violation} {path : NodePath}
      (hv : v ∈ t.found registry) (hp : path ∈ v.paths) : Reported path

theorem Reported.isNode {path : NodePath} (h : Reported path) : path = [] ∨ path.IsNode := by
  cases h with
  | schema he => exact Raw.Heap.path_of_schemaError he
  | found hv hp => exact .inr (Tree.isNode_of_mem_found hv path hp)

/-- Of two reported paths with one beginning both are empty, or both lead to nodes. -/
theorem Reported.cases_of_head? {p q : NodePath} (hp : Reported p) (hq : Reported q)
    (hgroup : p.head? = q.head?) : p = q ∨ p.IsNode ∧ q.IsNode := by
  rcases hp.isNode with rfl | hp
  · exact .inl (List.head?_eq_none_iff.1 hgroup.symm).symm
  · rcases hq.isNode with rfl | hq
    · exact .inl (List.head?_eq_none_iff.1 hgroup)
    · exact .inr ⟨hp, hq⟩

/-- **A rendered path tells a node**, up to names of groups that look alike.  The notation is the
name of the group as it is, and each index in brackets.  Two nodes have the same one exactly when
they are the same, or the name of one group is that of the other with indices in brackets behind it,
which the other path has first.  Whatever is reported has the empty path or that of a node.  Two
nodes of one group are never reported under the same text, whatever is read or checked: neither by
their notation nor in the messages of errors, in the lines of violations or in the records of them.
A failed check reports what has been found, and only that is logged. -/
theorem rendered_paths_tell_nodes_apart :
    (∀ group is, (NodePath.node group is).render = group ++ NodePath.brackets is) ∧
    (∀ (g h : Text) (is js : List Nat),
      (NodePath.node g is).render = (NodePath.node h js).render ↔
        NodePath.node g is = NodePath.node h js ∨ ∃ ks, ks ≠ [] ∧
          (h = g ++ NodePath.brackets ks ∧ is = ks ++ js ∨
            g = h ++ NodePath.brackets ks ∧ js = ks ++ is)) ∧
    (∀ p, Reported p → p ≠ [] → ∃ group is, p = NodePath.node group is) ∧
    (∀ p q, Reported p → Reported q → p.head? = q.head? → p ≠ q → p.render ≠ q.render) ∧
    (∀ h config e h' config' e', Tree.ofRaw h config = .error (.schema e) →
      Tree.ofRaw h' config' = .error (.schema e') →
      e.path.head? = e'.path.head? → e.path ≠ e'.path → e.message ≠ e'.message) ∧
    (∀ registry t registry' t', ∀ v ∈ Tree.found registry t, ∀ w ∈ Tree.found registry' t',
      v.path.head? = w.path.head? → v.path ≠ w.path →
        v.line ≠ w.line ∧ v.indentedLine ≠ w.indentedLine ∧
          LogRecord.ofViolation v ≠ LogRecord.ofViolation w) ∧
    ∀ registry t,
      (∀ vs, (Tree.validate registry t).outcome = .error (.violations vs) →
        vs = t.found registry) ∧
      ∀ kind text, .violation kind text ∈ (Tree.validate registry t).log →
        ∃ v ∈ t.found registry, v.kind = kind ∧ v.path.render = text := by
  refine ⟨NodePath.render_node, fun _ _ _ _ => NodePath.render_node_eq_iff,
    fun p hp hne => hp.isNode.resolve_left hne, fun p q hp hq hgroup hne heq => ?_,
    fun h config e h' config' e' he he' hgroup hne heq => ?_,
    fun registry t registry' t' v hv w hw hgroup hne => ?_,
    fun registry t => t.validate_tells_found registry⟩
  · rcases hp.cases_of_head? hq hgroup with hpq | ⟨hp, hq⟩
    · exact hne hpq
    · exact hne (hp.eq_of_render hq hgroup heq)
  · rcases (Reported.schema he).cases_of_head? (.schema he') hgroup with hpq | ⟨hp, hq⟩
    · exact hne hpq
    · exact hne (hp.eq_of_render_append hq hgroup heq)
  · have hv := Tree.isNode_of_mem_found hv v.path List.mem_cons_self
    have hw := Tree.isNode_of_mem_found hw w.path List.mem_cons_self
    refine ⟨fun heq => hne (Violation.path_eq_of_words hv hw hgroup heq),
      fun heq => hne (Violation.path_eq_of_indentedLine hv hw hgroup heq), fun heq => ?_⟩
    exact hne (hv.eq_of_render hw hgroup (LogRecord.violation.inj heq).2)

/-- A sidebar of two groups, one of which has a name like the path of an item in the other. -/
def lookalikeTree : Tree :=
  ⟨[("docs", [.category "x" [.category "y" []], .category "z" []]),
    ("docs[0]", [.category "y" []])], by decide⟩

/-- A configuration whose only group ends with a node that is none. -/
def nullHeap (before : List Raw.Value) : Raw.Heap :=
  ⟨#[.mapping [(.text "docs", .ref 1)], .list (before ++ [.null])]⟩

/-- Nodes of these two groups can have the same notation, but two empty categories of one group are
told on two different lines, and so are two nodes that are none in two different messages. -/
theorem lookalikes_and_nodes_of_docs :
    (NodePath.node "docs" [0, 0]).render = (NodePath.node "docs[0]" [0]).render ∧
      (∃ v w, v ∈ lookalikeTree.found none ∧ w ∈ lookalikeTree.found none ∧
        v.path = .node "docs" [0, 0] ∧ w.path = .node "docs" [1] ∧ v.line ≠ w.line) ∧
      ∃ e e', Tree.ofRaw (nullHeap []) (.ref 0) = .error (.schema e) ∧
        Tree.ofRaw (nullHeap [.text "a"]) (.ref 0) = .error (.schema e') ∧
        e.path.render ≠ e'.path.render ∧ e.message ≠ e'.message := by
  obtain ⟨-, hiff, -, hpaths, hmessages, hlines, -⟩ := rendered_paths_tell_nodes_apart
  have hv : Violation.emptyCategory (.node "docs" [0, 0]) "y" ∈ lookalikeTree.found none := by
    decide
  have hw : Violation.emptyCategory (.node "docs" [1]) "z" ∈ lookalikeTree.found none := by
    decide
  have he : Tree.ofRaw (nullHeap []) (.ref 0) =
      .error (.schema ⟨.node "docs" [0], .nodeNotMapping "NoneType"⟩) := Tree.ofRaw_of_run rfl
  have he' : Tree.ofRaw (nullHeap [.text "a"]) (.ref 0) =
      .error (.schema ⟨.node "docs" [1], .nodeNotMapping "NoneType"⟩) := Tree.ofRaw_of_run rfl
  have hne : NodePath.node "docs" [0] ≠ .node "docs" [1] := by decide
  exact ⟨(hiff _ _ _ _).2 (.inr ⟨[0], by decide, .inl ⟨by cbv, rfl⟩⟩),
    ⟨_, _, hv, hw, rfl, rfl, (hlines none _ none _ _ hv _ hw rfl (by decide)).1⟩,
    _, _, he, he', hpaths _ _ (.schema he) (.schema he') rfl hne,
    hmessages _ _ _ _ _ _ he he' rfl hne⟩

/-- The first and the last violation of that sidebar are at two nodes and in the same words. -/
example : (lookalikeTree.found none).map Violation.line =
    [("EmptyCategory docs[0][0]: category 'y' has no items" : Text),
      ("EmptyCategory docs[1]: category 'z' has no items" : Text),
      ("EmptyCategory docs[0][0]: category 'y' has no items" : Text)] := by
  cbv

end Sidebar
