/-!
# Sidebar.Text.Basic: text as a list of code points

A `Text` is a list of Unicode code points in which a lone surrogate may stand, because an escape
such as `\ud800` in a configuration file can put one into a label or a group name.  Literals are
written as strings and coerced.  Main statements: the numerals of `Text.ofNat` are digits and tell
numbers apart (`ofNat_inj`), and `Text.split` loses nothing (`intercalate_split`).
-/

namespace Sidebar

/-- A Unicode code point, surrogates included. -/
structure CodePoint where
  toNat : Nat
  isLt : toNat < 0x110000
deriving DecidableEq

namespace CodePoint

theorem toNat_lt_of_char (c : Char) : c.toNat < 0x110000 := by
  have h := c.valid
  simp only [UInt32.isValidChar, Nat.isValidChar] at h
  show c.val.toNat < _
  omega

/-- The code point of a character. -/
def ofChar (c : Char) : CodePoint := ⟨c.toNat, toNat_lt_of_char c⟩

instance : Coe Char CodePoint := ⟨ofChar⟩

instance : Inhabited CodePoint := ⟨ofChar '\x00'⟩

/-- The code point of a number, `U+FFFD` for a number that is none. -/
def ofNat (n : Nat) : CodePoint := if h : n < 0x110000 then ⟨n, h⟩ else ofChar '\uFFFD'

/-- A code point that UTF-16 uses in pairs and that is no character by itself. -/
def isSurrogate (c : CodePoint) : Bool := 0xD800 ≤ c.toNat && c.toNat ≤ 0xDFFF

end CodePoint

/-- A list of code points. -/
abbrev Text := List CodePoint

namespace Text

/-- The text of a string. -/
def ofString (s : String) : Text := s.toList.map CodePoint.ofChar

instance : Coe String Text := ⟨ofString⟩

/-- The text of a list of characters. -/
def ofChars (cs : List Char) : Text := cs.map CodePoint.ofChar

/-- Some code point of the text is a lone surrogate. -/
def hasSurrogate (t : Text) : Bool := t.any CodePoint.isSurrogate

/-! ### Numerals -/

/-- The digit of a number below ten. -/
def digit (n : Nat) : CodePoint := CodePoint.ofNat (48 + n % 10)

/-- The decimal numeral of `n`, in front of `rest`. -/
def numeralOnto (n : Nat) (rest : Text) : Text :=
  if n < 10 then digit n :: rest else numeralOnto (n / 10) (digit n :: rest)

/-- The decimal numeral of a natural number. -/
def ofNat (n : Nat) : Text := numeralOnto n []

/-- The decimal numeral of an integer, with a minus sign when it is negative. -/
def ofInt : Int → Text
  | .ofNat n => ofNat n
  | .negSucc n => CodePoint.ofChar '-' :: ofNat (n + 1)

theorem numeralOnto_append (n : Nat) (rest : Text) : numeralOnto n rest = ofNat n ++ rest := by
  suffices h : ∀ s t : Text, numeralOnto n (s ++ t) = numeralOnto n s ++ t from h [] rest
  intro s t
  induction n using Nat.strongRecOn generalizing s with
  | ind n ih =>
    rw [numeralOnto, numeralOnto.eq_1 n s]
    split
    · rfl
    · rw [← ih (n / 10) (by omega)]; rfl

theorem ofNat_lt {n : Nat} (h : n < 10) : ofNat n = [digit n] := by
  rw [ofNat, numeralOnto, if_pos h]

theorem ofNat_ge {n : Nat} (h : 10 ≤ n) : ofNat n = ofNat (n / 10) ++ [digit n] := by
  rw [ofNat, numeralOnto, if_neg (by omega), numeralOnto_append]

theorem ofNat_ne_nil (n : Nat) : ofNat n ≠ [] := by
  by_cases hn : n < 10
  · rw [ofNat_lt hn]
    exact List.cons_ne_nil _ _
  · rw [ofNat_ge (by omega)]
    exact List.append_ne_nil_of_right_ne_nil _ (List.cons_ne_nil _ _)

theorem toNat_digit (n : Nat) : (digit n).toNat = 48 + n % 10 := by
  rw [digit, CodePoint.ofNat, dif_pos (by omega)]

/-- The code points of a numeral are digits. -/
theorem isDigit_of_mem_ofNat {n : Nat} {c : CodePoint} (h : c ∈ ofNat n) :
    48 ≤ c.toNat ∧ c.toNat < 58 := by
  have hdigit : ∀ n, 48 ≤ (digit n).toNat ∧ (digit n).toNat < 58 := by
    intro n
    rw [toNat_digit]
    omega
  induction n using Nat.strongRecOn with
  | ind n ih =>
    by_cases hn : n < 10
    · rw [ofNat_lt hn, List.mem_singleton] at h
      exact h ▸ hdigit n
    · rw [ofNat_ge (by omega), List.mem_append, List.mem_singleton] at h
      rcases h with h | rfl
      · exact ih (n / 10) (by omega) h
      · exact hdigit n

/-- Numbers with the same numeral are the same. -/
theorem ofNat_inj {m n : Nat} (h : ofNat m = ofNat n) : m = n := by
  induction m using Nat.strongRecOn generalizing n with
  | ind m ih =>
    -- a numeral is what stands before the last digit, and that digit
    have hlast : ∀ n, ofNat n = (if n < 10 then [] else ofNat (n / 10)) ++ [digit n] := by
      intro n
      split
      · next hn => exact ofNat_lt hn
      · next hn => exact ofNat_ge (by omega)
    rw [hlast m, hlast n] at h
    obtain ⟨hinit, hdigit⟩ := List.append_inj' h rfl
    have hmod := congrArg CodePoint.toNat (List.cons.inj hdigit).1
    rw [toNat_digit, toNat_digit] at hmod
    by_cases hm : m < 10 <;> by_cases hn : n < 10
    · omega
    · rw [if_pos hm, if_neg hn] at hinit
      exact absurd hinit.symm (ofNat_ne_nil _)
    · rw [if_neg hm, if_pos hn] at hinit
      exact absurd hinit (ofNat_ne_nil _)
    · rw [if_neg hm, if_neg hn] at hinit
      have hdiv := ih (m / 10) (by omega) hinit
      omega

/-! ### Cutting and joining -/

/-- The parts of a text between the code points that satisfy `p`; `n` such code points leave
`n + 1` parts. -/
def splitBy (p : CodePoint → Bool) : Text → List Text
  | [] => [[]]
  | c :: r =>
    match splitBy p r with
    | [] => [[]]
    | part :: parts => if p c then [] :: part :: parts else (c :: part) :: parts

/-- The parts of a text between the occurrences of `sep`. -/
def split (sep : CodePoint) (t : Text) : List Text := splitBy (· == sep) t

/-- The maximal runs of code points that do not satisfy `p`. -/
def runs (p : CodePoint → Bool) (t : Text) : List Text := (splitBy p t).filter (· ≠ [])

/-- The text without the code points at its end that satisfy `p`. -/
def dropRightWhile (p : CodePoint → Bool) (t : Text) : Text := (t.reverse.dropWhile p).reverse

theorem splitBy_ne_nil (p : CodePoint → Bool) (t : Text) : splitBy p t ≠ [] := by
  induction t with
  | nil => simp [splitBy]
  | cons c r ih =>
    rw [splitBy]
    split
    · simp
    · split <;> simp

theorem splitBy_cons (p : CodePoint → Bool) (c : CodePoint) (r : Text) :
    ∃ part parts, splitBy p r = part :: parts ∧
      splitBy p (c :: r) = if p c then [] :: part :: parts else (c :: part) :: parts := by
  cases h : splitBy p r with
  | nil => exact absurd h (splitBy_ne_nil p r)
  | cons part parts => exact ⟨part, parts, rfl, by rw [splitBy, h]⟩

/-- Joining the parts again gives the text back. -/
theorem intercalate_split (sep : CodePoint) (t : Text) : [sep].intercalate (split sep t) = t := by
  induction t with
  | nil => rfl
  | cons c r ih =>
    obtain ⟨part, parts, h1, h2⟩ := splitBy_cons (· == sep) c r
    rw [split, h1] at ih
    rw [split, h2]
    split
    · next hc => simp_all [List.intercalate]
    · rw [← ih]; cases parts <;> simp [List.intercalate]

end Text

end Sidebar
