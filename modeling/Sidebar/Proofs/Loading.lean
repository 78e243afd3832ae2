import Sidebar.Proofs.Digits
import Sidebar.Proofs.Encoding
import Sidebar.Proofs.Faults
import Sidebar.Proofs.Rejection

/-!
# Sidebar.Proofs.Loading: how loading a file can fail

A file that is missing, is a directory or holds no JSON is a failure of the file; a configuration
that is not read, or breaks rules, is a failure of what the file says.  Three more failures are of
neither kind: bytes that are no UTF-8, an integer of too many digits, and an id that is refused
because of a lone surrogate.  At a path that cannot be expressed, nothing is read at all.

* `fileReading`: every outcome of reading a file, with what is found at the path where it arises.
* `load_fails_in_these_ways`: when there are failures of each kind, and that nothing is logged
  before the document has been read.
* `load_of_invalidByte`: bytes that are no UTF-8 are no failure of the file.
-/

namespace Sidebar

/-! ## What is found at a path -/

/-- The document that characters write, once line ends are unified. -/
def Json.ofChars (cs : List Char) : Except Json.Failure Json :=
  Json.read? (some digitLimit) (Utf8.unifyLineEnds cs)

namespace FileState

variable {file : FileState}

/-- The file holds these characters in UTF-8. -/
def Holds (file : FileState) (cs : List Char) : Prop := file = .bytes (Utf8.encode cs)

/-- There is no file that could be read. -/
def IsUnreadable (file : FileState) : Prop := file = .missing ∨ file = .directory

/-- The file holds bytes that are no UTF-8. -/
def IsNotUtf8 (file : FileState) : Prop :=
  ∃ content, file = .bytes content ∧ ∀ cs, content ≠ Utf8.encode cs

/-- The file holds characters that depart from the grammar of JSON. -/
def IsNotJson (file : FileState) : Prop :=
  ∃ cs fault left, file.Holds cs ∧ Json.ofChars cs = .error (.fault fault left)

/-- The file holds an integer of too many digits, up to which it is JSON. -/
def HasLongInteger (file : FileState) : Prop :=
  ∃ cs digits, file.Holds cs ∧ Json.ofChars cs = .error (.longInteger digits)

/-- The file holds this document. -/
def HoldsJson (file : FileState) (j : Json) : Prop := ∃ cs, file.Holds cs ∧ Json.ofChars cs = .ok j

/-- The file holds a document in which the first thing wrong is a lone surrogate in an id. -/
def HasRefusedId (file : FileState) : Prop :=
  ∃ j, file.HoldsJson j ∧ ∃ p,
    (Raw.Heap.ofJson j).1.FirstIllFormed (Raw.Heap.ofJson j).2 p ∧ (Raw.Heap.ofJson j).1.RefusesId p

end FileState

namespace LoadFailure

/-- The failure is one of the file: it cannot be read or is no JSON. -/
def IsOfFile : LoadFailure → Prop
  | .unreadable why => why ≠ .inexpressible
  | .notJson .. => True
  | _ => False

/-- The failure is one of the configuration: it is not read, with a path and a reason, or breaks
rules. -/
def IsOfConfig : LoadFailure → Prop
  | .build (.config (.schema _)) => True
  | .build (.validation (.violations _)) => True
  | _ => False

end LoadFailure

/-! ## The outcomes of loading -/

/-- What is read from the file. -/
inductive FileReading (file : FileState) : Except LoadFailure Json → Prop
  | unreadable {why : Unreadable} (hf : file.IsUnreadable) (hw : why ≠ .inexpressible) :
      FileReading file (.error (.unreadable why))
  | encoding {e : Utf8.DecodeError} (hf : file.IsNotUtf8) : FileReading file (.error (.encoding e))
  | notJson {cs : List Char} {fault : Json.Fault} {left : Nat} {place : Json.Place}
      (hf : file.Holds cs) (hj : Json.ofChars cs = .error (.fault fault left)) :
      FileReading file (.error (.notJson fault place))
  | longInteger {cs : List Char} {digits : Nat} (hf : file.Holds cs)
      (hj : Json.ofChars cs = .error (.longInteger digits)) :
      FileReading file (.error (.longInteger digits))
  | document {cs : List Char} {j : Json} (hf : file.Holds cs) (hj : Json.ofChars cs = .ok j) :
      FileReading file (.ok j)

/-- The failure of loading where characters are no document. -/
def LoadFailure.ofChars (cs : List Char) : Json.Failure → LoadFailure
  | .fault fault left => .notJson fault (.ofLeft (Utf8.unifyLineEnds cs) left)
  | .longInteger digits => .longInteger digits

/-- The document at a path. -/
def FileState.document : FileState → Except LoadFailure Json
  | .missing => .error (.unreadable .missing)
  | .directory => .error (.unreadable .directory)
  | .bytes content => Json.ofBytes content

theorem FileState.document_of_holds {file : FileState} {cs : List Char} (hf : file.Holds cs) :
    file.document = (Json.ofChars cs).mapError (.ofChars cs) := by
  obtain rfl := hf
  rw [document, Json.ofBytes, Utf8.decode_eq_ok_iff.2 rfl, Json.ofChars]
  dsimp only
  cases Json.read? (some digitLimit) (Utf8.unifyLineEnds cs) with
  | ok j => rfl
  | error e => cases e <;> rfl

theorem bytesReading (content : List UInt8) :
    FileReading (.bytes content) (FileState.bytes content).document := by
  cases hd : Utf8.decode content with
  | error e =>
    rw [FileState.document, Json.ofBytes, hd]
    refine .encoding ⟨content, rfl, fun cs hcs => ?_⟩
    rw [Utf8.decode_eq_ok_iff.2 hcs] at hd
    cases hd
  | ok cs =>
    have hf : FileState.Holds (.bytes content) cs :=
      congrArg FileState.bytes (Utf8.decode_eq_ok_iff.1 hd)
    rw [FileState.document_of_holds hf]
    cases hj : Json.ofChars cs with
    | ok j => exact .document hf hj
    | error e =>
      cases e with
      | fault fault left => exact .notJson hf hj
      | longInteger digits => exact .longInteger hf hj

theorem fileReading (file : FileState) : FileReading file file.document := by
  cases file with
  | missing => exact .unreadable (.inl rfl) (by decide)
  | directory => exact .unreadable (.inr rfl) (by decide)
  | bytes content => exact bytesReading content

namespace FileState

variable {file : FileState}

theorem document_eq_ok_iff {j : Json} : file.document = .ok j ↔ file.HoldsJson j := by
  constructor
  · intro hd
    have hr := fileReading file
    rw [hd] at hr
    cases hr with
    | document hf hj => exact ⟨_, hf, hj⟩
  · rintro ⟨cs, hf, hj⟩
    rw [document_of_holds hf, hj]
    rfl

theorem document_eq_unreadable_iff :
    (∃ why, file.document = .error (.unreadable why) ∧ why ≠ .inexpressible) ↔
      file.IsUnreadable := by
  constructor
  · rintro ⟨why, hd, -⟩
    have hr := fileReading file
    rw [hd] at hr
    cases hr with
    | unreadable hf _ => exact hf
  · rintro (rfl | rfl)
    · exact ⟨_, rfl, by decide⟩
    · exact ⟨_, rfl, by decide⟩

theorem document_eq_encoding_iff :
    (∃ e, file.document = .error (.encoding e)) ↔ file.IsNotUtf8 := by
  constructor
  · rintro ⟨e, hd⟩
    have hr := fileReading file
    rw [hd] at hr
    cases hr with
    | encoding hf => exact hf
  · rintro ⟨content, rfl, hn⟩
    rw [document, Json.ofBytes]
    cases hd : Utf8.decode content with
    | error e => exact ⟨e, rfl⟩
    | ok cs => exact absurd (Utf8.decode_eq_ok_iff.1 hd) (hn cs)

theorem document_eq_notJson_iff :
    (∃ fault place, file.document = .error (.notJson fault place)) ↔ file.IsNotJson := by
  constructor
  · rintro ⟨fault, place, hd⟩
    have hr := fileReading file
    rw [hd] at hr
    cases hr with
    | notJson hf hj => exact ⟨_, _, _, hf, hj⟩
  · rintro ⟨cs, fault, left, hf, hj⟩
    rw [document_of_holds hf, hj]
    exact ⟨_, _, rfl⟩

theorem document_eq_longInteger_iff :
    (∃ digits, file.document = .error (.longInteger digits)) ↔ file.HasLongInteger := by
  constructor
  · rintro ⟨digits, hd⟩
    have hr := fileReading file
    rw [hd] at hr
    cases hr with
    | longInteger hf hj => exact ⟨_, _, hf, hj⟩
  · rintro ⟨cs, digits, hf, hj⟩
    rw [document_of_holds hf, hj]
    exact ⟨_, rfl⟩

end FileState

/-! ## What loading makes of it -/

variable {registry : Option Registry} {known : Option (Text → Bool)} {path : Text}
  {file : FileState}

/-- A registry that answers every id leaves two ways to fail: the configuration is not read, or the
tree breaks rules. -/
theorem build_failure {h : Raw.Heap} {config : Raw.Value} {failure : BuildFailure}
    (hb : (build (known.map .ofPred) h config).outcome = .error failure) :
    (∃ e, Tree.ofRaw h config = .error e ∧ failure = .config e) ∨
      ∃ vs, failure = .validation (.violations vs) := by
  unfold build at hb
  split at hb
  · next e he => exact .inl ⟨e, he, (Except.error.inj hb).symm⟩
  · next t ht =>
    refine .inr ?_
    dsimp only at hb
    by_cases hf : t.faults known = []
    · obtain ⟨v, _, hv⟩ := validate_of_faults_eq_nil hf
      rw [hv] at hb
      cases hb
    · rw [validate_of_faults_ne_nil hf] at hb
      exact ⟨_, (Except.error.inj hb).symm⟩

/-- A document never leaves a reason out. -/
theorem ofRaw_ofJson_ne_unshowable {j : Json} (hj : file.HoldsJson j) :
    Tree.ofRaw (Raw.Heap.ofJson j).1 (Raw.Heap.ofJson j).2 ≠ .error .unshowable := by
  intro he
  obtain ⟨cs, -, hr⟩ := hj
  exact Raw.Heap.not_holdsLong_ofJson (Json.short_of_read? hr) (Raw.Heap.holdsLong_of_unshowable he)

/-- Nothing is read at a path that cannot be expressed. -/
theorem load_of_isUnencodable (hp : isUnencodable path = true) :
    load registry path file = ⟨[], .error (.unreadable .inexpressible)⟩ := by
  unfold load
  rw [if_pos hp]

section Expressible

variable (hp : isUnencodable path = false)

include hp

theorem load_of_failure {failure : LoadFailure} (hd : file.document = .error failure) :
    load registry path file = ⟨[], .error failure⟩ := by
  unfold load
  rw [hp, if_neg Bool.false_ne_true]
  cases file with
  | missing =>
    obtain rfl := Except.error.inj hd
    rfl
  | directory =>
    obtain rfl := Except.error.inj hd
    rfl
  | bytes content =>
    rw [FileState.document] at hd
    dsimp only
    rw [hd]

theorem load_of_document {j : Json} (hd : file.document = .ok j) :
    load registry path file =
      ⟨.loaded path :: (build registry (Raw.Heap.ofJson j).1 (Raw.Heap.ofJson j).2).log,
        (build registry (Raw.Heap.ofJson j).1 (Raw.Heap.ofJson j).2).outcome.mapError .build⟩ := by
  unfold load
  rw [hp, if_neg Bool.false_ne_true]
  cases file with
  | missing => cases hd
  | directory => cases hd
  | bytes content =>
    rw [FileState.document] at hd
    dsimp only
    rw [hd]

/-- Failures from before the tree is built are those of reading the document. -/
theorem outcome_load_eq_error_iff {failure : LoadFailure} (hn : ∀ b, failure ≠ .build b) :
    (load registry path file).outcome = .error failure ↔ file.document = .error failure := by
  cases hd : file.document with
  | error f => rw [load_of_failure hp hd, Except.error.injEq, Except.error.injEq]
  | ok j =>
    rw [load_of_document hp hd]
    cases (build registry (Raw.Heap.ofJson j).1 (Raw.Heap.ofJson j).2).outcome with
    | ok v => simp [Except.mapError]
    | error b => simp [Except.mapError, (hn b).symm]

/-- The other failures are those of building the tree of a document. -/
theorem outcome_load_eq_build_iff {b : BuildFailure} :
    (load registry path file).outcome = .error (.build b) ↔
      ∃ j, file.HoldsJson j ∧
        (build registry (Raw.Heap.ofJson j).1 (Raw.Heap.ofJson j).2).outcome = .error b := by
  simp only [← FileState.document_eq_ok_iff]
  cases hd : file.document with
  | error f =>
    rw [load_of_failure hp hd]
    have hr := fileReading file
    rw [hd] at hr
    cases hr <;> simp
  | ok j =>
    rw [load_of_document hp hd]
    simp only [Except.ok.injEq, exists_eq_left']
    cases (build registry (Raw.Heap.ofJson j).1 (Raw.Heap.ofJson j).2).outcome <;>
      simp [Except.mapError]

theorem outcome_load_eq_surrogateId_iff :
    (load registry path file).outcome = .error (.build (.config .surrogateId)) ↔
      file.HasRefusedId := by
  rw [outcome_load_eq_build_iff hp]
  refine exists_congr fun j => and_congr_right fun _ => ?_
  rw [← Raw.Heap.ofRaw_eq_surrogateId_iff, build]
  split
  · next e he => simp [he]
  · next t ht =>
    refine iff_of_false (fun hb => ?_) (by simp [ht])
    dsimp only at hb
    cases hc : (t.validate registry).outcome <;> rw [hc] at hb <;> cases hb

theorem ofFile_iff :
    (∃ failure, (load registry path file).outcome = .error failure ∧ failure.IsOfFile) ↔
      file.IsUnreadable ∨ file.IsNotJson := by
  rw [← FileState.document_eq_unreadable_iff, ← FileState.document_eq_notJson_iff]
  constructor
  · rintro ⟨failure, he, hf⟩
    cases failure with
    | unreadable why => exact .inl ⟨why, (outcome_load_eq_error_iff hp (by simp)).1 he, hf⟩
    | notJson fault place =>
      exact .inr ⟨fault, place, (outcome_load_eq_error_iff hp (by simp)).1 he⟩
    | encoding e => exact hf.elim
    | longInteger digits => exact hf.elim
    | build b => exact hf.elim
  · rintro (⟨why, hd, hw⟩ | ⟨fault, place, hd⟩)
    · exact ⟨_, (outcome_load_eq_error_iff hp (by simp)).2 hd, hw⟩
    · exact ⟨_, (outcome_load_eq_error_iff hp (by simp)).2 hd, trivial⟩

/-- Every failure is one of the file or of the configuration, or one of the three others. -/
theorem failure_cases {failure : LoadFailure}
    (he : (load (known.map .ofPred) path file).outcome = .error failure) :
    failure.IsOfFile ∨ failure.IsOfConfig ∨ (∃ e, failure = .encoding e) ∨
      (∃ digits, failure = .longInteger digits) ∨ failure = .build (.config .surrogateId) := by
  cases failure with
  | unreadable why =>
    have hd := (outcome_load_eq_error_iff hp (by simp)).1 he
    have hr := fileReading file
    rw [hd] at hr
    cases hr with
    | unreadable _ hw => exact .inl hw
  | encoding e => exact .inr (.inr (.inl ⟨e, rfl⟩))
  | notJson fault place => exact .inl trivial
  | longInteger digits => exact .inr (.inr (.inr (.inl ⟨digits, rfl⟩)))
  | build b =>
    obtain ⟨j, hj, hb⟩ := (outcome_load_eq_build_iff hp).1 he
    rcases build_failure hb with ⟨e, ht, rfl⟩ | ⟨vs, rfl⟩
    · cases e with
      | schema e => exact .inr (.inl trivial)
      | surrogateId => exact .inr (.inr (.inr (.inr rfl)))
      | unshowable => exact absurd ht (ofRaw_ofJson_ne_unshowable hj)
    · exact .inr (.inl trivial)

theorem log_load_eq_nil_iff :
    (load registry path file).log = [] ↔ ∀ j, ¬ file.HoldsJson j := by
  simp only [← FileState.document_eq_ok_iff]
  cases hd : file.document with
  | error failure => simp [load_of_failure hp hd]
  | ok j => simp [load_of_document hp hd]

end Expressible

/-- **How loading can fail**, whatever is found at the path, when the registry answers every id.
A path that cannot be expressed is refused, and nothing is read.  At any other path, there is a
failure of the file exactly when it cannot be read or departs from the grammar of JSON.  Three
failures are of another kind, and each arises exactly where the file is of a certain form: bytes
that are no UTF-8, an integer of too many digits, and a document in which the first thing wrong is a
lone surrogate in an id.  All others are of the file or of the configuration.  Nothing is logged
unless a document has been read. -/
theorem load_fails_in_these_ways (known : Option (Text → Bool)) (path : Text) (file : FileState) :
    (isUnencodable path = true →
      load (known.map .ofPred) path file = ⟨[], .error (.unreadable .inexpressible)⟩) ∧
    (isUnencodable path = false →
      ((∃ failure, (load (known.map .ofPred) path file).outcome = .error failure ∧
          failure.IsOfFile) ↔ file.IsUnreadable ∨ file.IsNotJson) ∧
        ((∃ e, (load (known.map .ofPred) path file).outcome = .error (.encoding e)) ↔
          file.IsNotUtf8) ∧
        ((∃ digits, (load (known.map .ofPred) path file).outcome = .error (.longInteger digits)) ↔
          file.HasLongInteger) ∧
        ((load (known.map .ofPred) path file).outcome = .error (.build (.config .surrogateId)) ↔
          file.HasRefusedId) ∧
        ((∃ failure, (load (known.map .ofPred) path file).outcome = .error failure ∧
            ¬ failure.IsOfFile ∧ ¬ failure.IsOfConfig) ↔
          file.IsNotUtf8 ∨ file.HasLongInteger ∨ file.HasRefusedId) ∧
        ((load (known.map .ofPred) path file).log = [] ↔ ∀ j, ¬ file.HoldsJson j)) := by
  refine ⟨load_of_isUnencodable, fun hp => ?_⟩
  have hencoding : (∃ e, (load (known.map .ofPred) path file).outcome = .error (.encoding e)) ↔
      file.IsNotUtf8 := by
    rw [← FileState.document_eq_encoding_iff]
    exact exists_congr fun e => outcome_load_eq_error_iff hp (by simp)
  have hlong : (∃ digits, (load (known.map .ofPred) path file).outcome =
      .error (.longInteger digits)) ↔ file.HasLongInteger := by
    rw [← FileState.document_eq_longInteger_iff]
    exact exists_congr fun digits => outcome_load_eq_error_iff hp (by simp)
  have hsurrogate : (load (known.map .ofPred) path file).outcome =
      .error (.build (.config .surrogateId)) ↔ file.HasRefusedId :=
    outcome_load_eq_surrogateId_iff hp
  refine ⟨ofFile_iff hp, hencoding, hlong, hsurrogate, ?_, log_load_eq_nil_iff hp⟩
  rw [← hencoding, ← hlong, ← hsurrogate]
  constructor
  · rintro ⟨failure, he, hfile, hconfig⟩
    rcases failure_cases hp he with hf | hf | ⟨e, rfl⟩ | ⟨digits, rfl⟩ | rfl
    · exact absurd hf hfile
    · exact absurd hf hconfig
    · exact .inl ⟨e, he⟩
    · exact .inr (.inl ⟨digits, he⟩)
    · exact .inr (.inr he)
  · rintro (⟨e, he⟩ | ⟨digits, he⟩ | he)
    · exact ⟨_, he, id, id⟩
    · exact ⟨_, he, id, id⟩
    · exact ⟨_, he, id, id⟩

/-- A byte that no character starts with is no UTF-8, and no failure of the file or of the
configuration. -/
theorem load_of_invalidByte :
    FileState.IsNotUtf8 (.bytes [0xFF]) ∧
      ∃ failure, (load none "sidebars.json" (.bytes [0xFF])).outcome = .error failure ∧
        ¬ failure.IsOfFile ∧ ¬ failure.IsOfConfig := by
  have hd : Utf8.decode [0xFF] = .error ⟨0xFF, 0, 1, .invalidStart⟩ := by cbv
  refine ⟨⟨_, rfl, fun cs hcs => ?_⟩, .encoding ⟨0xFF, 0, 1, .invalidStart⟩, ?_, id, id⟩
  · rw [Utf8.decode_eq_ok_iff.2 hcs] at hd
    cases hd
  · exact congrArg Logged.outcome (load_of_failure (by decide) (by
      rw [FileState.document, Json.ofBytes, hd]))

end Sidebar
