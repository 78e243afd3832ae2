import Sidebar.Text.Basic

/-!
# Sidebar.Text.Blank: white space

The white space of Unicode: the code points of the property `White_Space` and the four separators
`U+001C` to `U+001F`.  Main statements: `blanks` is increasing, and a code point that core calls
white space is blank.
-/

namespace Sidebar

/-- The blank code points, in increasing order. -/
def blanks : List Nat :=
  [0x09, 0x0A, 0x0B, 0x0C, 0x0D, 0x1C, 0x1D, 0x1E, 0x1F, 0x20, 0x85, 0xA0, 0x1680,
   0x2000, 0x2001, 0x2002, 0x2003, 0x2004, 0x2005, 0x2006, 0x2007, 0x2008, 0x2009, 0x200A,
   0x2028, 0x2029, 0x202F, 0x205F, 0x3000]

theorem blanks_pairwise : blanks.Pairwise (· < ·) := by decide

/-- The code point is white space. -/
def CodePoint.isBlank (c : CodePoint) : Bool := blanks.contains c.toNat

theorem CodePoint.isBlank_of_isWhitespace {c : Char} (h : c.isWhitespace = true) :
    (CodePoint.ofChar c).isBlank = true := by
  simp only [Char.isWhitespace, Bool.or_eq_true, decide_eq_true_eq] at h
  rcases h with ((rfl | rfl) | rfl) | rfl <;> decide

namespace Text

/-- The text has no code point that is not white space. -/
def isBlank (t : Text) : Bool := t.all CodePoint.isBlank

/-- The text without the white space at its two ends. -/
def strip (t : Text) : Text := dropRightWhile CodePoint.isBlank (t.dropWhile CodePoint.isBlank)

theorem dropWhile_eq_nil {p : CodePoint → Bool} {t : Text} :
    t.dropWhile p = [] ↔ t.all p = true := by
  induction t with
  | nil => simp
  | cons c r ih => by_cases h : p c = true <;> simp_all

/-- Nothing is left exactly of a blank text. -/
theorem strip_eq_nil_iff (t : Text) : strip t = [] ↔ isBlank t = true := by
  have hall : t.all CodePoint.isBlank = (t.dropWhile CodePoint.isBlank).all CodePoint.isBlank := by
    induction t with
    | nil => rfl
    | cons c r ih => by_cases h : c.isBlank = true <;> simp_all
  rw [strip, dropRightWhile, List.reverse_eq_nil_iff, dropWhile_eq_nil, List.all_reverse, isBlank,
    hall]

end Text

end Sidebar
