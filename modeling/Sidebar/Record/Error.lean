import Sidebar.NodePath

/-!
# Sidebar.Record.Error: faults in the fields of a record

A record is checked field by field and every fault is reported.  A `Checked` value comes with no
fault, or there are faults in place of it; `Checked.both` puts the faults of two checks one after
the other.
-/

namespace Sidebar

/-- What is wrong with the value of a field. -/
inductive FieldFault
  | missing
  | notText
  | badEncoding
  | emptyText
  | notLiteral (expected : Text)
  /-- An item without a `type`. -/
  | noTag
  /-- An item whose `type` is neither that of documents nor that of categories. -/
  | unknownTag (shown : Text)
  | notItem
  /-- A record that stands in its own items. -/
  | cyclic
  | notRecord (model : Text)
  | notSequence
  | notMapping
  | notViolationKind
  | notInteger
  | notIntegerText
  | fraction
  | notFinite
  | tooLarge
  /-- A validated tree that does not come from validation. -/
  | unissued
deriving DecidableEq

namespace FieldFault

/-- The name of a fault. -/
def name : FieldFault → Text
  | .missing => "missing"
  | .notText => "string_type"
  | .badEncoding => "string_unicode"
  | .emptyText => "string_too_short"
  | .notLiteral _ => "literal_error"
  | .noTag => "union_tag_not_found"
  | .unknownTag _ => "union_tag_invalid"
  | .notItem => "model_attributes_type"
  | .cyclic => "recursion_loop"
  | .notRecord _ => "model_type"
  | .notSequence => "tuple_type"
  | .notMapping => "dict_type"
  | .notViolationKind => "enum"
  | .notInteger => "int_type"
  | .notIntegerText => "int_parsing"
  | .fraction => "int_from_float"
  | .notFinite => "finite_number"
  | .tooLarge => "int_parsing_size"
  | .unissued => "value_error"

/-- The wording of a fault. -/
def message : FieldFault → Text
  | .missing => "Field required"
  | .notText => "Input should be a valid string"
  | .badEncoding =>
    "Input should be a valid string, unable to parse raw data as a unicode string"
  | .emptyText => "String should have at least 1 character"
  | .notLiteral expected => "Input should be '" ++ expected ++ "'"
  | .noTag => "Unable to extract tag using discriminator 'type'"
  | .unknownTag shown =>
    "Input tag '" ++ shown ++
      "' found using 'type' does not match any of the expected tags: 'doc', 'category'"
  | .notItem => "Input should be a valid dictionary or object to extract fields from"
  | .cyclic => "Recursion error - cyclic reference detected"
  | .notRecord model => "Input should be a valid dictionary or instance of " ++ model
  | .notSequence => "Input should be a valid tuple"
  | .notMapping => "Input should be a valid dictionary"
  | .notViolationKind =>
    "Input should be 'DuplicateId', 'EmptyCategory' or 'UnknownDocReference'"
  | .notInteger => "Input should be a valid integer"
  | .notIntegerText => "Input should be a valid integer, unable to parse string as an integer"
  | .fraction => "Input should be a valid integer, got a number with a fractional part"
  | .notFinite => "Input should be a finite number"
  | .tooLarge => "Unable to parse input string as an integer, exceeded maximum size"
  | .unissued => "Value error, ValidatedTree is only built by docsidebar.validator.validate"

end FieldFault

/-- A fault and the field, or the element of a field, that has it. -/
structure FieldError where
  fault : FieldFault
  path : NodePath
deriving DecidableEq

/-- A value without faults, or the faults. -/
abbrev Checked (α : Type) := Except (List FieldError) α

namespace Checked

variable {α β γ : Type}

/-- A check with one fault. -/
def fail (fault : FieldFault) (path : NodePath) : Checked α := .error [⟨fault, path⟩]

/-- The faults of a check. -/
def errors : Checked α → List FieldError
  | .error es => es
  | .ok _ => []

/-- Two checks, one after the other. -/
def both (f : α → β → γ) (x : Checked α) (y : Checked β) : Checked γ :=
  match x, y with
  | .ok a, .ok b => .ok (f a b)
  | x, y => .error (x.errors ++ y.errors)

@[simp] theorem both_ok (f : α → β → γ) (a : α) (b : β) : both f (.ok a) (.ok b) = .ok (f a b) :=
  rfl

theorem both_eq_ok {f : α → β → γ} {x : Checked α} {y : Checked β} {c : γ}
    (h : both f x y = .ok c) : ∃ a b, x = .ok a ∧ y = .ok b ∧ f a b = c := by
  cases x <;> cases y <;> simp only [both, reduceCtorEq, Except.ok.injEq] at h
  exact ⟨_, _, rfl, rfl, h⟩

end Checked

end Sidebar
