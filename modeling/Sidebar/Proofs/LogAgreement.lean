import Sidebar.Build
import Sidebar.Proofs.OutlineEntries

/-!
# Sidebar.Proofs.LogAgreement: what is logged agrees with the outcome

A check logs each violation as it is recorded (`checkItems_agrees`) and, when there are none, how
many ids it has met.  The ids are counted as they are met and not as documents are: a document whose
id is known already is a violation instead.

* `checkItem_meets`, `checkItems_meets`: each document is met as a new id or is a duplicate.
* `Tree.length_docs_eq_sum`: the documents of a tree are those of its groups.
* `build_log_agrees`: the records of a build are told by its outcome, and the number that is logged
  is that of all documents.
-/

namespace Sidebar

/-! ## Ids that have been met -/

section Meeting

variable {registry : Option Registry} {seen : Seen}

theorem visit_meets (path : NodePath) (d : Doc) :
    (seen.visit path d).2.length +
        (seen.visit path d).1.violations.countP (·.kind = .duplicateId) =
      seen.length + 1 := by
  unfold Seen.visit
  split <;> rfl

theorem countP_lookupDoc (path : NodePath) (d : Doc) :
    (lookupDoc registry path d).1.violations.countP (·.kind = .duplicateId) = 0 := by
  unfold lookupDoc
  split
  · rfl
  · split <;> rfl

/-- **Step**: a document adds its id to those that have been met, or it is a duplicate. -/
theorem checkItem_meets (registry : Option Registry) (seen : Seen) (p : NodePath × Item) :
    (checkItem registry seen p).seen.length +
        (checkItem registry seen p).violations.countP (·.kind = .duplicateId) =
      seen.length + (docsOf [p]).length := by
  obtain ⟨path, x⟩ := p
  match x with
  | .doc d =>
    rw [checkItem]
    dsimp only
    rw [Recorded.violations_append, List.countP_append, countP_lookupDoc, Nat.add_zero, visit_meets]
    rfl
  | .category label [] => rfl
  | .category label (y :: ys) => rfl

theorem docsOf_cons (p : NodePath × Item) (ps : List (NodePath × Item)) :
    docsOf (p :: ps) = docsOf [p] ++ docsOf ps := by
  rw [docsOf, docsOf, docsOf, ← List.filterMap_append, List.singleton_append]

/-- **Run**: a check that gets to the end has met as many ids as there are documents, but for the
duplicates that it reports. -/
theorem checkItems_meets {ps : List (NodePath × Item)}
    (hf : (checkItems registry seen ps).failure = none) :
    (checkItems registry seen ps).seen.length +
        (checkItems registry seen ps).violations.countP (·.kind = .duplicateId) =
      seen.length + (docsOf ps).length := by
  induction ps generalizing seen with
  | nil => rfl
  | cons p ps ih =>
    have hstep := checkItem_meets registry seen p
    rw [checkItems] at hf ⊢
    dsimp only at hf ⊢
    cases hp : (checkItem registry seen p).failure with
    | some loop =>
      rw [hp] at hf
      cases hf
    | none =>
      rw [hp] at hf
      have hrest := ih hf
      dsimp only
      rw [Recorded.violations_append, List.countP_append, docsOf_cons, List.length_append]
      omega

end Meeting

namespace Tree

variable {t : Tree} {known : Option (Text → Bool)}

/-- A tree without faults has as many ids to be met as it has documents. -/
theorem length_seen_of_faults_eq_nil (h : t.faults known = []) :
    (checkItems (known.map .ofPred) [] t.positions).seen.length = t.docs.length := by
  obtain ⟨hv, hf⟩ := findings_eq known t
  have hmeets := checkItems_meets hf
  rw [hv, h, List.countP_nil, Nat.add_zero, List.length_nil, Nat.zero_add] at hmeets
  exact hmeets

/-- The documents of a tree, counted in each group. -/
theorem length_docs_eq_sum (t : Tree) :
    t.docs.length = (t.groups.map fun g => Item.countDocsAll g.2).sum := by
  rw [docs_eq, List.length_flatMap]
  simp only [Item.countDocsAll_eq_length_docs]

theorem length_docs_eq_countP (t : Tree) : t.docs.length = t.positions.countP (·.2.isDoc) := by
  rw [docs, docsOf, List.length_filterMap_eq_countP]
  congr 1
  funext p
  cases p.2 <;> rfl

/-- The documents of the groups, as they are asked for by name. -/
theorem map_flatten_names (standard : Text) (t : Tree) :
    t.names.map (fun name => t.flatten standard (some name)) =
      (t.groups.map fun g => Item.docs g.2).map .ok := by
  rw [names, Keyed.keys, List.map_map, List.map_map]
  exact List.map_congr_left fun g hg => flatten_of_mem hg standard

end Tree

/-! ## Builds -/

variable {known : Option (Text → Bool)} {h : Raw.Heap} {v : Raw.Value} {t : Tree}

/-- A tree that has been read is refused for its faults, and they are logged. -/
theorem build_of_faults_ne_nil (ht : Tree.ofRaw h v = .ok t) (hf : t.faults known ≠ []) :
    build (known.map .ofPred) h v =
      ⟨(t.faults known).map .ofViolation, .error (.validation (.violations (t.faults known)))⟩ := by
  rw [build_of_ok _ ht, validate_of_faults_ne_nil hf]
  rfl

/-- A tree that has been read and has no faults is built, and its documents are counted. -/
theorem build_of_faults_eq_nil (ht : Tree.ofRaw h v = .ok t) (hf : t.faults known = []) :
    ∃ w : ValidatedTree, w.tree = t ∧ build (known.map .ofPred) h v =
      ⟨[.validated t.names t.docs.length], .ok w⟩ := by
  obtain ⟨w, hw, hv⟩ := validate_of_faults_eq_nil hf
  rw [build_of_ok _ ht, hv, Tree.length_seen_of_faults_eq_nil hf]
  exact ⟨w, hw, rfl⟩

/-- **The records of a build agree with its outcome.**  A configuration that is not read leaves no
record.  One that is read is refused with violations or becomes a tree.  In the first case there is
one record of debugging weight for each violation, in the order of the report, with its kind and
its rendered path, and no other.  In the second case there is a single record, of informative
weight: it names the groups in order, and its number is that of all items that are documents, which
is the sum of the counts of the groups and the sum of the lengths to which they are flattened. -/
theorem build_log_agrees (known : Option (Text → Bool)) (standard : Text) (h : Raw.Heap)
    (v : Raw.Value) :
    (∀ e, Tree.ofRaw h v = .error e →
      (build (known.map .ofPred) h v).outcome = .error (.config e) ∧
      (build (known.map .ofPred) h v).log = []) ∧
    (∀ t, Tree.ofRaw h v = .ok t →
      (∃ vs, vs ≠ [] ∧
        (build (known.map .ofPred) h v).outcome = .error (.validation (.violations vs))) ∨
      ∃ w, w.tree = t ∧ (build (known.map .ofPred) h v).outcome = .ok w) ∧
    (∀ vs, (build (known.map .ofPred) h v).outcome = .error (.validation (.violations vs)) →
      (build (known.map .ofPred) h v).log =
        vs.map (fun w => .violation w.kind w.path.render) ∧
      ∀ r ∈ (build (known.map .ofPred) h v).log, r.level = .debug) ∧
    (∀ w, (build (known.map .ofPred) h v).outcome = .ok w →
      ∃ number, (build (known.map .ofPred) h v).log = [.validated w.tree.names number] ∧
        (LogRecord.validated w.tree.names number).level = .info ∧
        number = w.tree.positions.countP (·.2.isDoc) ∧
        number = (w.tree.groups.map fun g => Item.countDocsAll g.2).sum ∧
        ∃ lists : List (List Doc),
          w.tree.names.map (fun name => w.tree.flatten standard (some name)) = lists.map .ok ∧
          number = (lists.map List.length).sum) := by
  cases ht : Tree.ofRaw h v with
  | error e =>
    rw [build_of_error _ ht]
    exact ⟨fun e' he => ⟨by rw [Except.error.inj he], rfl⟩, nofun, nofun, nofun⟩
  | ok t =>
    by_cases hf : t.faults known = []
    · obtain ⟨w, hw, hb⟩ := build_of_faults_eq_nil ht hf
      rw [hb]
      refine ⟨nofun, fun t' ht' => .inr ⟨w, hw.trans (Except.ok.inj ht'), rfl⟩, nofun,
        fun w' hw' => ?_⟩
      cases hw'
      subst hw
      refine ⟨_, rfl, rfl, w.tree.length_docs_eq_countP, w.tree.length_docs_eq_sum,
        _, w.tree.map_flatten_names standard, ?_⟩
      rw [Tree.docs_eq, List.length_flatMap, List.map_map]
      rfl
    · rw [build_of_faults_ne_nil ht hf]
      refine ⟨nofun, fun _ _ => .inl ⟨_, hf, rfl⟩, fun vs hvs => ?_, nofun⟩
      cases hvs
      refine ⟨rfl, fun r hr => ?_⟩
      obtain ⟨w, -, rfl⟩ := List.mem_map.1 hr
      rfl

end Sidebar
