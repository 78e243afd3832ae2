import Sidebar.Log
import Sidebar.Registry.Basic
import Sidebar.Tree.Positions

/-!
# Sidebar.Validation: checking a tree against its rules

The items of a tree are checked in document order and every violation is recorded.  Main
statement: when nothing is found, no document id is used twice (`nodup_of_findings`), so a
`ValidatedTree` can say so.
-/

namespace Sidebar

/-- The ids that have been met, each with its first position. -/
abbrev Seen := List (Text × NodePath)

/-- The violations that have been recorded, and the log of their recording. -/
@[ext] structure Recorded where
  violations : List Violation
  log : List LogRecord
deriving DecidableEq

namespace Recorded

/-- Nothing has been recorded. -/
def nothing : Recorded := ⟨[], []⟩

/-- Records a violation: it is kept, and it is logged. -/
def of (v : Violation) : Recorded := ⟨[v], [.ofViolation v]⟩

/-- What is recorded first and what is recorded then. -/
def append (r s : Recorded) : Recorded := ⟨r.violations ++ s.violations, r.log ++ s.log⟩

instance : Append Recorded := ⟨append⟩

@[simp] theorem violations_append (r s : Recorded) :
    (r ++ s).violations = r.violations ++ s.violations := rfl

@[simp] theorem log_append (r s : Recorded) : (r ++ s).log = r.log ++ s.log := rfl

theorem append_assoc (r s t : Recorded) : r ++ s ++ t = r ++ (s ++ t) :=
  Recorded.ext (List.append_assoc ..) (List.append_assoc ..)

theorem append_nothing (r : Recorded) : r ++ nothing = r :=
  Recorded.ext (List.append_nil _) (List.append_nil _)

end Recorded

/-- What a walk over positions has recorded, the ids that it has met, and the failed lookup that
ended it, if one did. -/
structure Findings extends Recorded where
  seen : Seen
  failure : Option LinkLoop

/-- Checks that the id of a document has not been met. -/
def Seen.visit (seen : Seen) (path : NodePath) (d : Doc) : Recorded × Seen :=
  match seen.lookup d.id with
  | some first => (.of (.duplicateId path d first), seen)
  | none => (.nothing, (d.id, path) :: seen)

/-- Checks that a document exists. -/
def lookupDoc (registry : Option Registry) (path : NodePath) (d : Doc) :
    Recorded × Option LinkLoop :=
  match registry with
  | none => (.nothing, none)
  | some r =>
    match r.exists? d.id with
    | .ok true => (.nothing, none)
    | .ok false => (.of (.unknownDoc path d), none)
    | .error loop => (.nothing, some loop)

/-- Checks one item. -/
def checkItem (registry : Option Registry) (seen : Seen) : NodePath × Item → Findings
  | (path, .doc d) =>
    let repeated := seen.visit path d
    let unknown := lookupDoc registry path d
    ⟨repeated.1 ++ unknown.1, repeated.2, unknown.2⟩
  | (path, .category label []) => ⟨.of (.emptyCategory path label), seen, none⟩
  | (_, .category _ (_ :: _)) => ⟨.nothing, seen, none⟩

/-- Checks items one after the other, until a lookup fails. -/
def checkItems (registry : Option Registry) (seen : Seen) : List (NodePath × Item) → Findings
  | [] => ⟨.nothing, seen, none⟩
  | p :: ps =>
    let here := checkItem registry seen p
    match here.failure with
    | some loop => ⟨here.toRecorded, here.seen, some loop⟩
    | none =>
      let rest := checkItems registry here.seen ps
      ⟨here.toRecorded ++ rest.toRecorded, rest.seen, rest.failure⟩

/-- Where nothing is found, every id is new and met once. -/
theorem nodup_of_findings {registry : Option Registry} {seen : Seen}
    {ps : List (NodePath × Item)} (hv : (checkItems registry seen ps).violations = [])
    (hf : (checkItems registry seen ps).failure = none) :
    ((docsOf ps).map (·.id)).Nodup ∧ ∀ d ∈ docsOf ps, seen.lookup d.id = none := by
  induction ps generalizing seen with
  | nil => simp [docsOf]
  | cons p ps ih =>
    obtain ⟨path, item⟩ := p
    simp only [checkItems] at hv hf
    split at hv
    · next loop hl => simp [hl] at hf
    · next hl =>
      simp only [hl] at hf
      obtain ⟨hv1, hv2⟩ := List.append_eq_nil_iff.1 hv
      cases item with
      | category label items =>
        have hs : (checkItem registry seen (path, .category label items)).seen = seen := by
          cases items <;> rfl
        rw [hs] at hv2 hf
        exact ih hv2 hf
      | doc d =>
        have hr := (List.append_eq_nil_iff.1 hv1).1
        have hn : seen.lookup d.id = none := by
          unfold Seen.visit at hr
          split at hr
          · cases hr
          · next h => exact h
        have hs : (checkItem registry seen (path, .doc d)).seen = (d.id, path) :: seen := by
          simp [checkItem, Seen.visit, hn]
        rw [hs] at hv2 hf
        obtain ⟨h1, h2⟩ := ih hv2 hf
        have hcons : docsOf ((path, Item.doc d) :: ps) = d :: docsOf ps := rfl
        rw [hcons]
        have hne : ∀ e ∈ docsOf ps, e.id ≠ d.id ∧ seen.lookup e.id = none := by
          intro e he
          have h := h2 e he
          rw [List.lookup_cons] at h
          split at h
          · simp at h
          · next hb => exact ⟨by simpa using hb, h⟩
        refine ⟨List.nodup_cons.2 ⟨fun hm => ?_, h1⟩, fun e he => ?_⟩
        · obtain ⟨e, he, heq⟩ := List.mem_map.1 hm
          exact (hne e he).1 heq
        · rcases List.mem_cons.1 he with rfl | he
          · exact hn
          · exact (hne e he).2

/-- A tree in which no document id is used twice. -/
structure ValidatedTree where
  tree : Tree
  distinctIds : (tree.docs.map (·.id)).Nodup
deriving DecidableEq

/-- Why a tree is not validated: it breaks rules, or a lookup failed. -/
inductive ValidationFailure
  | violations (vs : List Violation)
  | lookup (loop : LinkLoop)
deriving DecidableEq

/-- Checks a tree against every rule; without a registry, all documents are taken to exist. -/
def Tree.validate (registry : Option Registry) (t : Tree) :
    Logged ValidationFailure ValidatedTree :=
  let findings := checkItems registry [] t.positions
  match hf : findings.failure, hv : findings.violations with
  | some loop, _ => ⟨findings.log, .error (.lookup loop)⟩
  | none, [] =>
    ⟨findings.log ++ [.validated t.names findings.seen.length],
      .ok ⟨t, (nodup_of_findings hv hf).1⟩⟩
  | none, v :: vs => ⟨findings.log, .error (.violations (v :: vs))⟩

end Sidebar
