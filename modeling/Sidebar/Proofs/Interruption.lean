import Sidebar.Proofs.Extensions
import Sidebar.Proofs.Faults

/-!
# Sidebar.Proofs.Interruption: checks that a registry breaks off

A registry of files may fail to answer, where the path of a document ends in a loop of links.  Up to
the first document for which it fails, a check goes on as with a registry that answers; there it
ends, and what it has found is not reported.

* `checkItems_eq_of_answers`: a registry that answers is as good as a predicate.
* `failure_checkItems`: a check fails with the first document for which the registry does.
* `validate_eq_lookup_iff`, `log_of_failure`: when a check is broken off, and what it has logged
  then.
* `Tree.check_against_directory`: when a check against a directory is complete, and when it is
  broken off.
* `loop_loses_report`: a check that is broken off after a violation.
-/

namespace Sidebar

namespace Registry

/-- Why the registry does not answer. -/
def failure? (reg : Registry) (id : Text) : Option LinkLoop :=
  match reg.exists? id with
  | .ok _ => none
  | .error loop => some loop

/-- The documents that the registry says exist. -/
def known (reg : Registry) (id : Text) : Bool :=
  match reg.exists? id with
  | .ok b => b
  | .error _ => false

variable {reg : Registry} {id : Text}

theorem failure?_eq_some_iff {loop : LinkLoop} :
    reg.failure? id = some loop ↔ reg.exists? id = .error loop := by
  unfold failure?
  cases reg.exists? id <;> simp

theorem failure?_eq_none_iff :
    reg.failure? id = none ↔ ∀ loop, reg.exists? id ≠ .error loop := by
  unfold failure?
  cases reg.exists? id <;> simp

theorem exists?_eq_known (h : reg.failure? id = none) : reg.exists? id = .ok (reg.known id) := by
  unfold failure? at h
  unfold known
  cases he : reg.exists? id with
  | ok b => rfl
  | error loop => rw [he] at h; cases h

/-- Why the registry does not answer for an item. -/
def failureAt? (reg : Registry) (x : Item) : Option LinkLoop :=
  x.doc?.bind fun d => reg.failure? d.id

/-- The registry answers for all documents among positions. -/
def Answers (reg : Registry) (ps : List (NodePath × Item)) : Prop :=
  ∀ d ∈ docsOf ps, reg.failure? d.id = none

theorem answers_iff {ps : List (NodePath × Item)} :
    reg.Answers ps ↔ ∀ p ∈ ps, reg.failureAt? p.2 = none := by
  simp only [Answers, docsOf, List.mem_filterMap, failureAt?, Option.bind_eq_none_iff]
  constructor
  · intro h p hp d hd
    exact h d ⟨p, hp, hd⟩
  · rintro h d ⟨p, hp, hd⟩
    exact h p hp d hd

end Registry

/-! ## Up to the first failure -/

variable {reg : Registry} {seen : Seen} {ps before : List (NodePath × Item)} {path : NodePath}
  {d : Doc} {loop : LinkLoop}

theorem lookupDoc_eq_of_answers (h : reg.failure? d.id = none) :
    lookupDoc (some reg) path d = lookupDoc (some (.ofPred reg.known)) path d := by
  have hid := Registry.exists?_eq_known h
  simp only [lookupDoc, Registry.ofPred, hid]

theorem failure_lookupDoc : (lookupDoc (some reg) path d).2 = reg.failure? d.id := by
  unfold lookupDoc Registry.failure?
  dsimp only
  rcases reg.exists? d.id with loop | (_ | _) <;> rfl

/-- The check of an item fails where the registry does. -/
theorem failure_checkItem (p : NodePath × Item) :
    (checkItem (some reg) seen p).failure = reg.failureAt? p.2 := by
  obtain ⟨path, item⟩ := p
  cases item with
  | doc d => exact failure_lookupDoc
  | category label items => cases items <;> rfl

theorem checkItem_eq_of_answers {p : NodePath × Item} (h : reg.failureAt? p.2 = none) :
    checkItem (some reg) seen p = checkItem (some (.ofPred reg.known)) seen p := by
  obtain ⟨path, item⟩ := p
  cases item with
  | doc d =>
    have hd : reg.failure? d.id = none := h
    simp only [checkItem, lookupDoc_eq_of_answers hd]
  | category label items => cases items <;> rfl

/-- **A registry that answers** for all documents is as good as a predicate. -/
theorem checkItems_eq_of_answers (h : reg.Answers ps) :
    checkItems (some reg) seen ps = checkItems (some (.ofPred reg.known)) seen ps := by
  rw [Registry.answers_iff] at h
  induction ps generalizing seen with
  | nil => rfl
  | cons p ps ih =>
    rw [List.forall_mem_cons] at h
    simp only [checkItems, checkItem_eq_of_answers h.1, ih h.2]

/-- **A check fails with the first document** for which the registry does. -/
theorem failure_checkItems :
    (checkItems (some reg) seen ps).failure = ps.findSome? fun p => reg.failureAt? p.2 := by
  induction ps generalizing seen with
  | nil => rfl
  | cons p ps ih =>
    rw [checkItems, List.findSome?_cons]
    dsimp only
    rw [failure_checkItem]
    cases reg.failureAt? p.2 with
    | some loop => rfl
    | none => exact ih

/-- What a check finds in two parts of a list, if it gets through the first. -/
theorem checkItems_append (registry : Option Registry)
    (hf : (checkItems registry seen before).failure = none) :
    checkItems registry seen (before ++ ps) =
      ⟨(checkItems registry seen before).toRecorded ++
          (checkItems registry (checkItems registry seen before).seen ps).toRecorded,
        (checkItems registry (checkItems registry seen before).seen ps).seen,
        (checkItems registry (checkItems registry seen before).seen ps).failure⟩ := by
  induction before generalizing seen with
  | nil => rfl
  | cons p before ih =>
    rw [List.cons_append, checkItems, checkItems]
    rw [checkItems] at hf
    dsimp only at hf ⊢
    cases hp : (checkItem registry seen p).failure with
    | some loop =>
      rw [hp] at hf
      cases hf
    | none =>
      rw [hp] at hf
      dsimp only at hf ⊢
      rw [ih hf, Recorded.append_assoc]

theorem checkItems_of_failure (h : reg.failure? d.id = some loop) :
    checkItems (some reg) seen ((path, .doc d) :: ps) =
      ⟨(seen.visit path d).1, (seen.visit path d).2, some loop⟩ := by
  rw [Registry.failure?_eq_some_iff] at h
  simp [checkItems, checkItem, lookupDoc, h, Recorded.append_nothing]

/-- A check keeps what has been met, whatever it finds. -/
theorem records_checkItems (known : Option (Text → Bool)) (h : seen.Records before) :
    (checkItems (known.map .ofPred) seen ps).seen.Records (before ++ ps) := by
  induction ps generalizing seen before with
  | nil =>
    rw [List.append_nil]
    exact h
  | cons p ps ih =>
    obtain ⟨-, hf, hs⟩ := checkItem_eq known h p
    have hrest := ih hs
    rw [List.append_assoc] at hrest
    rw [checkItems]
    simp only [hf]
    exact hrest

/-! ## Complete checks and broken-off checks -/

/-- What is wrong with items, one after the other. -/
def faultsIn (known : Option (Text → Bool)) (ps : List (NodePath × Item)) : List Violation :=
  ps.zipIdx.flatMap fun e => faultsAt known (ps.take e.2) e.1

/-- What has been found when the registry fails. -/
theorem violations_of_failure {behind : List (NodePath × Item)} (hb : reg.Answers before)
    (hd : reg.failure? d.id = some loop) :
    (checkItems (some reg) [] (before ++ (path, .doc d) :: behind)).violations =
      faultsIn (some reg.known) before ++ repeatedAt before path d := by
  have hnone : Seen.Records [] [] := fun _ => rfl
  obtain ⟨hv, hf⟩ := checkItems_eq (some reg.known) hnone before
  have hmet : Seen.Records _ before := records_checkItems (some reg.known) hnone
  rw [Option.map_some, ← checkItems_eq_of_answers hb] at hv hf hmet
  rw [checkItems_append (some reg) hf, checkItems_of_failure hd, Recorded.violations_append, hv,
    (visit_eq hmet path d).1]
  rfl

namespace Tree

variable {t : Tree} {registry : Option Registry}

theorem validate_of_failure (hf : (checkItems registry [] t.positions).failure = some loop) :
    t.validate registry =
      ⟨(checkItems registry [] t.positions).violations.map .ofViolation,
        .error (.lookup loop)⟩ := by
  have hlog := checkItems_agrees registry [] t.positions
  unfold validate
  dsimp only
  split
  · next hl => rw [Option.some.inj (hl.symm.trans hf), hlog]
  · next hl _ => cases hl.symm.trans hf
  · next hl _ => cases hl.symm.trans hf

theorem outcome_of_no_failure (hf : (checkItems registry [] t.positions).failure = none) :
    (t.validate registry).outcome.map ValidatedTree.tree =
      if (checkItems registry [] t.positions).violations = [] then .ok t
      else .error (.violations (checkItems registry [] t.positions).violations) := by
  unfold validate
  dsimp only
  split
  · next hl => cases hl.symm.trans hf
  · next hv => rw [if_pos hv]; rfl
  · next hv => rw [if_neg (by simp [hv]), hv]; rfl

/-- A registry that answers for all documents of a tree makes the check of it complete. -/
theorem outcome_of_answers (h : reg.Answers t.positions) :
    (t.validate (some reg)).outcome.map ValidatedTree.tree =
      if t.faults (some reg.known) = [] then .ok t
      else .error (.violations (t.faults (some reg.known))) := by
  obtain ⟨hv, hf⟩ := findings_eq (some reg.known) t
  rw [Option.map_some, ← checkItems_eq_of_answers h] at hv hf
  rw [outcome_of_no_failure hf, hv]

/-- **When a check is broken off**: at a document for which the registry fails, after all those for
which it answers. -/
theorem validate_eq_lookup_iff :
    (t.validate (some reg)).outcome = .error (.lookup loop) ↔
      ∃ before path d behind, t.positions = before ++ (path, .doc d) :: behind ∧
        reg.Answers before ∧ reg.failure? d.id = some loop := by
  have hfail : (checkItems (some reg) [] t.positions).failure = some loop ↔
      (t.validate (some reg)).outcome = .error (.lookup loop) := by
    cases hf : (checkItems (some reg) [] t.positions).failure with
    | some loop' => simp [validate_of_failure hf]
    | none =>
      refine iff_of_false (by simp) fun he => ?_
      have ho := outcome_of_no_failure hf
      rw [he] at ho
      split at ho <;> cases ho
  rw [← hfail, failure_checkItems, List.findSome?_eq_some_iff]
  constructor
  · rintro ⟨before, ⟨path, item⟩, behind, hps, hd, hb⟩
    obtain ⟨d, hdoc, hid⟩ := Option.bind_eq_some_iff.1 hd
    obtain rfl := Item.eq_doc_of_doc? hdoc
    exact ⟨before, path, d, behind, hps, Registry.answers_iff.2 hb, hid⟩
  · rintro ⟨before, path, d, behind, hps, hb, hd⟩
    exact ⟨before, (path, .doc d), behind, hps, hd, Registry.answers_iff.1 hb⟩

/-- **What a broken-off check leaves**: the records of the violations up to the document for which
the registry fails. -/
theorem log_of_failure {behind : List (NodePath × Item)}
    (hps : t.positions = before ++ (path, .doc d) :: behind) (hb : reg.Answers before)
    (hd : reg.failure? d.id = some loop) :
    (t.validate (some reg)).log =
      (faultsIn (some reg.known) before ++ repeatedAt before path d).map .ofViolation := by
  have hf : (checkItems (some reg) [] t.positions).failure = some loop := by
    rw [failure_checkItems, List.findSome?_eq_some_iff]
    exact ⟨before, (path, .doc d), behind, hps, hd, Registry.answers_iff.1 hb⟩
  rw [validate_of_failure hf, hps, violations_of_failure hb hd]

end Tree

/-! ## Directories -/

namespace DirectoryRegistry

/-- The search for a document comes to an extension whose path is cut short, and what is left of the
path takes more links to look up than are followed. -/
def EndsInLoop (r : DirectoryRegistry) (id : Text) (loop : LinkLoop) : Prop :=
  ∃ extension, r.ReachedIn id extension r.extensions ∧
    ∃ rest, r.files.cutShort? (r.documentPath id extension).names = some rest ∧
      rest.normalize.names.any isUnencodable = false ∧
      r.files.stat rest.normalize = .error .tooManyLinks ∧ loop = ⟨rest.normalize.render⟩

variable {r : DirectoryRegistry} {id : Text}

theorem exists?_eq_error_iff_endsInLoop :
    r.registry.exists? id = .error loop ↔ r.EndsInLoop id loop := by
  rw [exists?_eq_error_iff]
  exact firstFile_eq_error_iff.trans <| exists_congr fun extension =>
    and_congr_right fun _ => Entry.resolve_eq_linkLoop_iff (documentPath_absolute r)

theorem failure?_eq_some_iff_endsInLoop :
    r.registry.failure? id = some loop ↔ r.EndsInLoop id loop :=
  Registry.failure?_eq_some_iff.trans exists?_eq_error_iff_endsInLoop

theorem answers_iff_not_endsInLoop :
    r.registry.Answers ps ↔ ∀ d ∈ docsOf ps, ∀ loop, ¬ r.EndsInLoop d.id loop := by
  simp only [Registry.Answers, Option.eq_none_iff_forall_ne_some, ne_eq,
    failure?_eq_some_iff_endsInLoop]

end DirectoryRegistry

/-- **A check against a directory.**  The registry fails for a document exactly when the search for
it ends in a loop; then with some extension the path of the document can never be worked off, as far
as the system shows its links.  A tree without such documents is given back, or all its violations
are reported.  Otherwise the check is broken off at the first such document: no violation is
reported, and those found by then are only logged. -/
theorem Tree.check_against_directory (r : DirectoryRegistry) (t : Tree) :
    (∀ id loop, r.registry.exists? id = .error loop ↔ r.EndsInLoop id loop) ∧
      (∀ id loop, r.EndsInLoop id loop → ∃ extension ∈ r.extensions,
        r.files.Endless (r.documentPath id extension).names) ∧
      ((∀ d ∈ t.docs, ∀ loop, ¬ r.EndsInLoop d.id loop) →
        (t.validate (some r.registry)).outcome.map ValidatedTree.tree =
          if t.faults (some r.registry.known) = [] then .ok t
          else .error (.violations (t.faults (some r.registry.known)))) ∧
      ∀ loop, (t.validate (some r.registry)).outcome = .error (.lookup loop) ↔
        ∃ before path d behind, t.positions = before ++ (path, .doc d) :: behind ∧
          (∀ e ∈ docsOf before, ∀ loop', ¬ r.EndsInLoop e.id loop') ∧ r.EndsInLoop d.id loop ∧
          (t.validate (some r.registry)).log =
            (faultsIn (some r.registry.known) before ++ repeatedAt before path d).map
              .ofViolation := by
  refine ⟨fun id loop => DirectoryRegistry.exists?_eq_error_iff_endsInLoop, fun id loop hl => ?_,
    fun h => ?_, fun loop => ?_⟩
  · obtain ⟨extension, hreached, rest, hc, -⟩ := hl
    exact ⟨extension, hreached.mem, Entry.endless_of_cutShort hc⟩
  · exact outcome_of_answers (DirectoryRegistry.answers_iff_not_endsInLoop.2 h)
  · rw [validate_eq_lookup_iff]
    constructor
    · rintro ⟨before, path, d, behind, hps, hb, hd⟩
      exact ⟨before, path, d, behind, hps, DirectoryRegistry.answers_iff_not_endsInLoop.1 hb,
        DirectoryRegistry.failure?_eq_some_iff_endsInLoop.1 hd, log_of_failure hps hb hd⟩
    · rintro ⟨before, path, d, behind, hps, hb, hd, -⟩
      exact ⟨before, path, d, behind, hps, DirectoryRegistry.answers_iff_not_endsInLoop.2 hb,
        DirectoryRegistry.failure?_eq_some_iff_endsInLoop.2 hd⟩

/-! ## A loop behind a missing document -/

/-- A sidebar of a document that is missing and one whose path is a link to itself. -/
def brokenOffTree : Tree :=
  .ofGroups [("docs", [.doc ⟨"gone", "Gone"⟩, .doc ⟨"loop/x", "X"⟩])]

/-- The missing document is a violation, but the loop behind it is all that the check reports. -/
theorem loop_loses_report :
    DirectoryRegistry.open? DirectoryRegistry.loopFiles [] ⟨false, ["docs"]⟩ [".md"] =
        .ok DirectoryRegistry.loopRegistry ∧
      DirectoryRegistry.loopRegistry.registry.exists? "gone" = .ok false ∧
      (brokenOffTree.validate (some DirectoryRegistry.loopRegistry.registry)).outcome =
        .error (.lookup ⟨"/docs/loop/x.md"⟩) := by
  have hgone : DirectoryRegistry.loopRegistry.registry.exists? "gone" = .ok false := by cbv
  have hloop : DirectoryRegistry.loopRegistry.registry.exists? "loop/x" =
      .error ⟨"/docs/loop/x.md"⟩ := by cbv
  refine ⟨by cbv, hgone, Tree.validate_eq_lookup_iff.2 ?_⟩
  refine ⟨[((.ofGroup "docs" : NodePath).child 0, .doc ⟨"gone", "Gone"⟩)],
    (.ofGroup "docs" : NodePath).child 1, ⟨"loop/x", "X"⟩, [], rfl, ?_, ?_⟩
  · intro d hd
    obtain rfl := List.mem_singleton.1 hd
    exact Registry.failure?_eq_none_iff.2 fun loop he => by rw [hgone] at he; cases he
  · exact Registry.failure?_eq_some_iff.2 hloop

end Sidebar
