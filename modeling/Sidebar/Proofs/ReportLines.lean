import Sidebar.Proofs.Calls
import Sidebar.Proofs.Interruption
import Sidebar.Proofs.LogAgreement
import Sidebar.Report

/-!
# Sidebar.Proofs.ReportLines: the lines of a report

A report has a line for each violation, if none of them runs over the end of its line.  Ids and
labels are quoted wherever they are shown, and a quoted text holds no line feed.  A group is named
as it is, in the path of a violation and in the path of the first use of an id.

* `splitOn_intercalate_iff`: when the lines of a joined text are the texts that it is joined from.
* `NodePath.count_render`: the line feeds of a rendered path are those of the names in it.
* `count_line_of_mem_faults`: the line feeds of a violation are those of the names it tells.
* `report_by_lines`: how many lines a report and the message of the error have, and when each is the
  line of a violation.
* `lineFeed_in_group_name`: a report of one violation on two lines.
-/

namespace Sidebar

/-- The line feed. -/
abbrev lineFeed : CodePoint := CodePoint.ofChar '\n'

/-! ## Splitting what has been joined -/

section Splitting

variable {α : Type} [BEq α] {a : α}

theorem length_splitOn (l : List α) : (l.splitOn a).length = l.count a + 1 := by
  induction l with
  | nil => rfl
  | cons b l ih =>
    rw [List.splitOn_cons_eq_if_modifyHead, List.count_cons]
    split
    · rw [List.length_cons, ih]
    · rw [List.length_modifyHead, ih, Nat.add_zero]

variable [LawfulBEq α] {ls : List (List α)}

/-- The parts of a joined text are the parts of what has been joined. -/
theorem splitOn_intercalate_eq_flatMap (h : ls ≠ []) :
    ([a].intercalate ls).splitOn a = ls.flatMap (List.splitOn a) := by
  induction ls with
  | nil => exact absurd rfl h
  | cons l ls ih =>
    cases ls with
    | nil => rw [List.intercalate_singleton, List.flatMap_singleton]
    | cons l' ls =>
      rw [List.intercalate_cons_cons, List.append_assoc, List.singleton_append,
        List.splitOn_append_cons_self, ih (List.cons_ne_nil l' ls)]
      rfl

/-- A joined text has a part for each text that has been joined, and one more for each separator in
one of them. -/
theorem length_splitOn_intercalate (h : ls ≠ []) :
    (([a].intercalate ls).splitOn a).length = ls.length + (ls.map (List.count a)).sum := by
  rw [splitOn_intercalate_eq_flatMap h, List.length_flatMap]
  clear h
  induction ls with
  | nil => rfl
  | cons l ls ih =>
    rw [List.map_cons, List.sum_cons, ih, length_splitOn, List.map_cons, List.sum_cons,
      List.length_cons]
    omega

/-- The parts of a joined text are what has been joined, exactly when the separator does not occur
there. -/
theorem splitOn_intercalate_iff (h : ls ≠ []) :
    ([a].intercalate ls).splitOn a = ls ↔ ∀ l ∈ ls, a ∉ l := by
  refine ⟨fun hs l hl => ?_, fun hs => List.splitOn_intercalate a hs h⟩
  have hlength := length_splitOn_intercalate (a := a) h
  rw [hs, Nat.left_eq_add, List.sum_eq_zero_iff_forall_eq_nat] at hlength
  exact List.count_eq_zero.1 (hlength _ (List.mem_map.2 ⟨l, hl, rfl⟩))

end Splitting

/-! ## Line feeds in what is shown -/

theorem lineFeed_notMem_ofNat (n : Nat) : lineFeed ∉ Text.ofNat n :=
  fun h => absurd (Text.isDigit_of_mem_ofNat h).1 (by decide)

theorem lineFeed_notMem_ofInt (i : Int) : lineFeed ∉ Text.ofInt i := by
  cases i with
  | ofNat n => exact lineFeed_notMem_ofNat n
  | negSucc n =>
    rw [Text.ofInt, List.mem_cons, not_or]
    exact ⟨by decide, lineFeed_notMem_ofNat (n + 1)⟩

/-- The name of the group, if the step is one. -/
def PathStep.name? : PathStep → Option Text
  | .name group => some group
  | .index _ => none

/-- The names of groups in a path. -/
def NodePath.names (path : NodePath) : List Text := path.filterMap PathStep.name?

/-- The names of groups that a violation tells, in its path and in that of the first use of an
id. -/
def Violation.names (v : Violation) : List Text :=
  v.path.names ++ (v.firstPath.map NodePath.names).getD []

/-- How many line feeds there are in texts. -/
def lineFeeds (ts : List Text) : Nat := (ts.map (List.count lineFeed)).sum

theorem lineFeeds_append (ts us : List Text) :
    lineFeeds (ts ++ us) = lineFeeds ts + lineFeeds us := by
  rw [lineFeeds, List.map_append, List.sum_append]
  rfl

theorem lineFeeds_eq_zero_iff {ts : List Text} : lineFeeds ts = 0 ↔ ∀ t ∈ ts, lineFeed ∉ t := by
  rw [lineFeeds, List.sum_eq_zero_iff_forall_eq_nat, List.forall_mem_map]
  exact forall₂_congr fun t _ => List.count_eq_zero

theorem PathStep.count_render (step : PathStep) :
    step.render.count lineFeed = lineFeeds step.name?.toList := by
  cases step with
  | name group => rfl
  | index i => exact List.count_eq_zero.2 (lineFeed_notMem_ofInt i)

theorem PathStep.count_bracketed (step : PathStep) :
    step.bracketed.count lineFeed = step.render.count lineFeed := by
  have hopen : ("[" : Text).count lineFeed = 0 := by decide
  have hclose : ("]" : Text).count lineFeed = 0 := by decide
  rw [bracketed, List.count_append, List.count_append, hopen, hclose, Nat.zero_add, Nat.add_zero]

theorem NodePath.names_cons (step : PathStep) (path : NodePath) :
    NodePath.names (step :: path) = step.name?.toList ++ path.names := by
  cases step <;> rfl

theorem NodePath.count_bracketed (path : NodePath) :
    (path.flatMap PathStep.bracketed).count lineFeed = lineFeeds path.names := by
  induction path with
  | nil => rfl
  | cons step path ih =>
    rw [List.flatMap_cons, List.count_append, ih, PathStep.count_bracketed, PathStep.count_render,
      names_cons, lineFeeds_append]

/-- **The line feeds of a rendered path** are those of the names in it. -/
theorem NodePath.count_render (path : NodePath) :
    path.render.count lineFeed = lineFeeds path.names := by
  cases path with
  | nil => rfl
  | cons step path =>
    rw [render, List.count_append, PathStep.count_render, count_bracketed, names_cons,
      lineFeeds_append]

theorem count_quoted (t : Text) : t.quoted.count lineFeed = 0 :=
  List.count_eq_zero.2 t.lineFeed_notMem_quoted

/-! ## Violations -/

namespace Violation

/-- The message of a violation names a group only in the path of the first use of an id. -/
theorem count_message_of_mem_faults {known : Option (Text → Bool)} {t : Tree} {v : Violation}
    (hv : v ∈ t.faults known) :
    v.message.count lineFeed = lineFeeds ((v.firstPath.map NodePath.names).getD []) := by
  obtain ⟨i, ⟨path, x⟩, -, hv⟩ := Tree.mem_faults_iff.1 hv
  rcases mem_faultsAt_iff.1 hv with ⟨label, -, rfl⟩ | ⟨d, first, -, -, rfl⟩ | ⟨d, -, -, rfl⟩
  · have hwords : ("category " : Text).count lineFeed = 0 ∧
        (" has no items" : Text).count lineFeed = 0 := by decide
    simp only [emptyCategory, List.count_append, hwords, count_quoted]
    rfl
  · have hwords : ("doc id " : Text).count lineFeed = 0 ∧
        (" already used at " : Text).count lineFeed = 0 := by decide
    simp only [duplicateId, List.count_append, hwords, count_quoted, NodePath.count_render,
      Nat.zero_add]
    rfl
  · have hwords : ("doc id " : Text).count lineFeed = 0 ∧
        (" has no matching document" : Text).count lineFeed = 0 := by decide
    simp only [unknownDoc, List.count_append, hwords, count_quoted]
    rfl

theorem count_kind (kind : ViolationKind) : kind.name.count lineFeed = 0 := by
  cases kind <;> decide

/-- **The line feeds of a line** are those of the names that the violation tells. -/
theorem count_line_of_mem_faults {known : Option (Text → Bool)} {t : Tree} {v : Violation}
    (hv : v ∈ t.faults known) :
    v.line.count lineFeed = lineFeeds v.names ∧
      v.indentedLine.count lineFeed = lineFeeds v.names := by
  have hblank : (" " : Text).count lineFeed = 0 ∧ (": " : Text).count lineFeed = 0 ∧
      ("  " : Text).count lineFeed = 0 ∧ (" at " : Text).count lineFeed = 0 := by decide
  rw [names, lineFeeds_append, ← count_message_of_mem_faults hv]
  constructor <;>
    simp only [line, indentedLine, List.count_append, hblank, count_kind, NodePath.count_render,
      Nat.zero_add, Nat.add_zero]

end Violation

section Lines

variable {vs : List Violation} {f : Violation → Text}

theorem sum_count_lines (hf : ∀ v ∈ vs, (f v).count lineFeed = lineFeeds v.names) :
    ((vs.map f).map (List.count lineFeed)).sum = lineFeeds (vs.flatMap Violation.names) := by
  induction vs with
  | nil => rfl
  | cons v vs ih =>
    rw [List.forall_mem_cons] at hf
    rw [List.map_cons, List.map_cons, List.sum_cons, ih hf.2, hf.1, List.flatMap_cons,
      lineFeeds_append]

theorem forall_lineFeed_notMem_iff (hf : ∀ v ∈ vs, (f v).count lineFeed = lineFeeds v.names) :
    (∀ l ∈ vs.map f, lineFeed ∉ l) ↔ ∀ v ∈ vs, ∀ name ∈ v.names, lineFeed ∉ name := by
  rw [List.forall_mem_map]
  refine forall₂_congr fun v hv => ?_
  rw [← List.count_eq_zero, hf v hv, lineFeeds_eq_zero_iff]

end Lines

/-! ## The names that are told -/

theorem NodePath.names_indices (is : List Nat) :
    NodePath.names (is.map fun i : Nat => .index i) = [] := by
  rw [NodePath.names, List.filterMap_eq_nil_iff, List.forall_mem_map]
  exact fun i _ => rfl

namespace Tree

variable {t : Tree} {known : Option (Text → Bool)}

/-- The path of an item names its group and nothing else. -/
theorem names_of_item? {path : NodePath} {x : Item} (h : t.item? path = some x) :
    ∃ name ∈ t.names, path.names = [name] := by
  obtain ⟨name, hmem, is, rfl⟩ := exists_indices_of_item? h
  refine ⟨name, hmem, ?_⟩
  rw [NodePath.names_cons, NodePath.names_indices]
  rfl

/-- Only groups of the tree are named in what is reported. -/
theorem mem_names_of_mem_faults {v : Violation} (hv : v ∈ t.faults known) {name : Text}
    (hn : name ∈ v.names) : name ∈ t.names := by
  have hpath : ∀ {path x}, (path, x) ∈ t.positions → name ∈ path.names → name ∈ t.names := by
    intro path x hp hm
    obtain ⟨name', hmem, hnames⟩ := names_of_item? (mem_positions.1 hp)
    rw [hnames, List.mem_singleton] at hm
    exact hm ▸ hmem
  obtain ⟨i, ⟨path, x⟩, hi, hv⟩ := mem_faults_iff.1 hv
  have hp := List.mem_of_getElem? hi
  rcases List.mem_append.1 hn with hn | hn
  · rcases mem_faultsAt_iff.1 hv with ⟨label, -, rfl⟩ | ⟨d, first, -, -, rfl⟩ | ⟨d, -, -, rfl⟩ <;>
      exact hpath hp hn
  · rcases mem_faultsAt_iff.1 hv with ⟨label, -, rfl⟩ | ⟨d, first, -, hf, rfl⟩ | ⟨d, -, -, rfl⟩
    · cases hn
    · obtain ⟨before, e, behind, hps, -⟩ := firstUse?_eq_some_iff.1 hf
      have hfirst : (first, Item.doc e) ∈ t.positions.take i := by simp [hps]
      exact hpath (List.mem_of_mem_take hfirst) hn
    · cases hn

/-- Whatever the registry, violations are the faults of the tree for what it says exists. -/
theorem exists_faults_of_violations {registry : Option Registry} {vs : List Violation}
    (h : (t.validate registry).outcome = .error (.violations vs)) :
    ∃ known, vs = t.faults known ∧ vs ≠ [] := by
  cases registry with
  | none =>
    have hv : (t.validate ((none : Option (Text → Bool)).map .ofPred)).outcome =
      .error (.violations vs) := h
    obtain ⟨hne, he⟩ := validate_eq_error_iff.1 hv
    obtain rfl := ValidationFailure.violations.inj he
    exact ⟨none, rfl, hne⟩
  | some reg =>
    have hf : (checkItems (some reg) [] t.positions).failure = none := by
      cases hf : (checkItems (some reg) [] t.positions).failure with
      | none => rfl
      | some loop =>
        rw [validate_of_failure hf] at h
        cases h
    rw [failure_checkItems, List.findSome?_eq_none_iff] at hf
    have ho := outcome_of_answers (Registry.answers_iff.2 hf)
    rw [h] at ho
    split at ho
    · cases ho
    · next hne =>
      obtain rfl := ValidationFailure.violations.inj (Except.error.inj ho)
      exact ⟨_, rfl, hne⟩

end Tree

/-! ## Reports -/

theorem build_eq_violations {registry : Option Registry} {h : Raw.Heap} {config : Raw.Value}
    {vs : List Violation}
    (hb : (build registry h config).outcome = .error (.validation (.violations vs))) :
    ∃ t, Tree.ofRaw h config = .ok t ∧
      (t.validate registry).outcome = .error (.violations vs) := by
  cases ht : Tree.ofRaw h config with
  | error e =>
    rw [build_of_error _ ht] at hb
    cases hb
  | ok t =>
    rw [build_of_ok _ ht] at hb
    refine ⟨t, rfl, ?_⟩
    cases hv : (t.validate registry).outcome with
    | ok w =>
      rw [hv] at hb
      cases hb
    | error failure =>
      rw [hv] at hb
      rw [BuildFailure.validation.inj (Except.error.inj hb)]

/-- The line above the violations in a message. -/
theorem lineFeed_notMem_header (n : Nat) :
    lineFeed ∉ ("Sidebar validation failed with " : Text) ++ Text.ofNat n ++ " violation(s):" := by
  have hwords : lineFeed ∉ ("Sidebar validation failed with " : Text) ∧
      lineFeed ∉ (" violation(s):" : Text) := by decide
  simp only [List.mem_append, not_or]
  exact ⟨⟨hwords.1, lineFeed_notMem_ofNat n⟩, hwords.2⟩

/-- **The lines of a report**, whatever the registry and whatever is in ids, labels and names.  A
report has as many lines as there are violations, and one more for each line feed in a name of a
group that is told; the message of the error has one line more, the header.  The lines are those of
the violations, each with its kind, its rendered path and its message, exactly when no name that is
told has a line feed.  Only groups of the tree are told. -/
theorem report_by_lines {registry : Option Registry} {h : Raw.Heap} {config : Raw.Value}
    {vs : List Violation}
    (hb : (build registry h config).outcome = .error (.validation (.violations vs))) :
    ((report vs).splitOn lineFeed).length = vs.length + lineFeeds (vs.flatMap Violation.names) ∧
      ((failureMessage vs).splitOn lineFeed).length =
        ((report vs).splitOn lineFeed).length + 1 ∧
      ((report vs).splitOn lineFeed =
          vs.map (fun v : Violation =>
            (v.kind.name ++ " " ++ v.path.render ++ ": " ++ v.message : Text)) ↔
        ∀ v ∈ vs, ∀ name ∈ v.names, lineFeed ∉ name) ∧
      ((failureMessage vs).splitOn lineFeed =
          ("Sidebar validation failed with " ++ Text.ofNat vs.length ++ " violation(s):" : Text) ::
            vs.map (fun v : Violation =>
              ("  " ++ v.kind.name ++ " at " ++ v.path.render ++ ": " ++ v.message : Text)) ↔
        ∀ v ∈ vs, ∀ name ∈ v.names, lineFeed ∉ name) ∧
      ∃ t, Tree.ofRaw h config = .ok t ∧ ∀ v ∈ vs, ∀ name ∈ v.names, name ∈ t.names := by
  obtain ⟨t, ht, hv⟩ := build_eq_violations hb
  obtain ⟨known, rfl, hne⟩ := Tree.exists_faults_of_violations hv
  have hline : ∀ v ∈ t.faults known, v.line.count lineFeed = lineFeeds v.names :=
    fun v hv => (Violation.count_line_of_mem_faults hv).1
  have hindented : ∀ v ∈ t.faults known, v.indentedLine.count lineFeed = lineFeeds v.names :=
    fun v hv => (Violation.count_line_of_mem_faults hv).2
  have hheader := lineFeed_notMem_header (t.faults known).length
  have hreport : ((report (t.faults known)).splitOn lineFeed).length =
      (t.faults known).length + lineFeeds ((t.faults known).flatMap Violation.names) := by
    have hlines : (t.faults known).map Violation.line ≠ [] := mt List.map_eq_nil_iff.1 hne
    rw [← sum_count_lines hline, ← List.length_map Violation.line]
    exact length_splitOn_intercalate hlines
  refine ⟨hreport, ?_, ?_, ?_, t, ht, fun v hv name hn => Tree.mem_names_of_mem_faults hv hn⟩
  · rw [hreport, ← sum_count_lines hindented]
    refine (length_splitOn_intercalate (List.cons_ne_nil _ _)).trans ?_
    rw [List.map_cons, List.sum_cons, List.count_eq_zero.2 hheader, List.length_cons,
      List.length_map]
    omega
  · rw [← forall_lineFeed_notMem_iff hline]
    exact splitOn_intercalate_iff (mt List.map_eq_nil_iff.1 hne)
  · rw [← forall_lineFeed_notMem_iff hindented]
    refine (splitOn_intercalate_iff (List.cons_ne_nil _ _)).trans ?_
    rw [List.forall_mem_cons]
    exact and_iff_right hheader

/-- Line feeds in an id that is used again and in the label of a category without items. -/
def brokenLinesHeap : Raw.Heap := ⟨#[
  .mapping [(.text "docs", .ref 1)],
  .list [.text "a\nb", .ref 2, .text "a\nb"],
  .mapping [(.text "type", .text "category"), (.text "label", .text "x\ny"),
    (.text "items", .ref 3)],
  .list []]⟩

/-- The tree of that configuration. -/
def brokenLinesTree : Tree :=
  ⟨[("docs", [.doc ⟨"a\nb", "A B"⟩, .category "x\ny" [], .doc ⟨"a\nb", "A B"⟩])], by decide⟩

/-- Its two violations are told on two lines. -/
theorem report_of_brokenLines :
    ∃ vs, (build none brokenLinesHeap (.ref 0)).outcome = .error (.validation (.violations vs)) ∧
      (report vs).splitOn lineFeed =
        [("EmptyCategory docs[1]: category 'x\\ny' has no items" : Text),
          ("DuplicateId docs[2]: doc id 'a\\nb' already used at docs[0]" : Text)] := by
  have ht : Tree.ofRaw brokenLinesHeap (.ref 0) = .ok brokenLinesTree := Tree.ofRaw_of_run rfl
  have hf : brokenLinesTree.faults none ≠ [] := by decide
  have hb : (build none brokenLinesHeap (.ref 0)).outcome =
      .error (.validation (.violations (brokenLinesTree.faults none))) :=
    congrArg Logged.outcome (build_of_faults_ne_nil ht hf)
  have hnames : ∀ v ∈ brokenLinesTree.faults none, ∀ name ∈ v.names, lineFeed ∉ name := by decide
  exact ⟨_, hb, ((report_by_lines hb).2.2.1.2 hnames).trans (by cbv)⟩

/-- A category without items in a group whose name has a line feed. -/
def brokenNameHeap : Raw.Heap := ⟨#[
  .mapping [(.text "a\nb", .ref 1)],
  .list [.ref 2],
  .mapping [(.text "type", .text "category"), (.text "label", .text "x"), (.text "items", .ref 3)],
  .list []]⟩

/-- The tree of that configuration. -/
def brokenNameTree : Tree := ⟨[("a\nb", [.category "x" []])], by decide⟩

/-- Its only violation is told on two lines, and the message of the error has three. -/
theorem lineFeed_in_group_name :
    ∃ v, (build none brokenNameHeap (.ref 0)).outcome = .error (.validation (.violations [v])) ∧
      (report [v]).splitOn lineFeed =
        [("EmptyCategory a" : Text), ("b[0]: category 'x' has no items" : Text)] ∧
      ((failureMessage [v]).splitOn lineFeed).length = 3 := by
  have ht : Tree.ofRaw brokenNameHeap (.ref 0) = .ok brokenNameTree := Tree.ofRaw_of_run rfl
  have hf : brokenNameTree.faults none ≠ [] := by decide
  have hb : (build none brokenNameHeap (.ref 0)).outcome =
      .error (.validation (.violations (brokenNameTree.faults none))) :=
    congrArg Logged.outcome (build_of_faults_ne_nil ht hf)
  exact ⟨.emptyCategory [.name "a\nb", .index 0] "x", hb, by cbv, by cbv⟩

end Sidebar
