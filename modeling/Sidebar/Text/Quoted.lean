import Sidebar.Text.Printable

/-!
# Sidebar.Text.Quoted: quoted literals

A text in quotes, on one line of printable characters.  The quotes are single ones, or double ones
when the text has a single quote and no double one; the quote itself, the backslash and every
unprintable code point are written as escapes.  Main statement: no line feed is left in a quoted
text (`lineFeed_notMem_quoted`).
-/

namespace Sidebar

namespace Text

/-- The hexadecimal digit of a number below sixteen. -/
def hexDigit (n : Nat) : CodePoint :=
  CodePoint.ofNat (if n % 16 < 10 then 48 + n % 16 else 87 + n % 16)

/-- The last `width` hexadecimal digits of `n`. -/
def hex : Nat → Nat → Text
  | 0, _ => []
  | width + 1, n => hex width (n / 16) ++ [hexDigit n]

/-- The quote that encloses a text in which `hasSingle` and `hasDouble` tell what quotes occur. -/
def quoteMark (hasSingle hasDouble : Bool) : CodePoint :=
  CodePoint.ofChar (if hasSingle && !hasDouble then '"' else '\'')

/-- A code point as it stands between quotes `mark`. -/
def escaped (mark c : CodePoint) : Text :=
  if c = mark ∨ c = CodePoint.ofChar '\\' then [CodePoint.ofChar '\\', c]
  else if c = CodePoint.ofChar '\t' then "\\t"
  else if c = CodePoint.ofChar '\n' then "\\n"
  else if c = CodePoint.ofChar '\r' then "\\r"
  else if c.isPrintable then [c]
  else if c.toNat < 0x100 then "\\x" ++ hex 2 c.toNat
  else if c.toNat < 0x10000 then "\\u" ++ hex 4 c.toNat
  else "\\U" ++ hex 8 c.toNat

/-- The quoted literal of a text. -/
def quoted (t : Text) : Text :=
  let mark := quoteMark (t.contains (CodePoint.ofChar '\'')) (t.contains (CodePoint.ofChar '"'))
  mark :: t.flatMap (escaped mark) ++ [mark]

/-- The quoted literal of a byte string: what is not printable ASCII is escaped. -/
def quotedBytes (bs : List UInt8) : Text :=
  let mark := quoteMark (bs.contains 0x27) (bs.contains 0x22)
  let byte (b : UInt8) : Text :=
    let c := CodePoint.ofNat b.toNat
    if b < 0x7F then escaped mark c else "\\x" ++ hex 2 b.toNat
  CodePoint.ofChar 'b' :: mark :: bs.flatMap byte ++ [mark]

/-! ### No line feed between quotes -/

theorem toNat_hexDigit_ge (n : Nat) : 48 ≤ (hexDigit n).toNat := by
  have : n % 16 < 16 := Nat.mod_lt _ (by omega)
  unfold hexDigit CodePoint.ofNat
  split <;> rw [dif_pos (by omega)] <;> dsimp only <;> omega

theorem hex_ge {width n : Nat} {c : CodePoint} (h : c ∈ hex width n) : 48 ≤ c.toNat := by
  induction width generalizing n with
  | zero => simp [hex] at h
  | succ w ih =>
    rcases List.mem_append.1 h with h | h
    · exact ih h
    · rw [List.mem_singleton.1 h]; exact toNat_hexDigit_ge n

theorem lineFeed_notMem_hex (width n : Nat) : CodePoint.ofChar '\n' ∉ hex width n := fun h =>
  absurd (hex_ge h) (by decide)

theorem lineFeed_notMem_escaped {mark : CodePoint} (hm : mark ≠ CodePoint.ofChar '\n')
    (c : CodePoint) : CodePoint.ofChar '\n' ∉ escaped mark c := by
  unfold escaped
  split
  · next h =>
    rcases h with rfl | rfl
    · simpa using ⟨by decide, Ne.symm hm⟩
    · decide
  split
  · decide
  split
  · decide
  split
  · decide
  split
  · next h _ _ => simpa [eq_comm] using h
  split
  · rw [List.mem_append, not_or]; exact ⟨by decide, lineFeed_notMem_hex 2 _⟩
  split
  · rw [List.mem_append, not_or]; exact ⟨by decide, lineFeed_notMem_hex 4 _⟩
  · rw [List.mem_append, not_or]; exact ⟨by decide, lineFeed_notMem_hex 8 _⟩

theorem quoteMark_ne_lineFeed (s d : Bool) : quoteMark s d ≠ CodePoint.ofChar '\n' := by
  cases s <;> cases d <;> decide

theorem lineFeed_notMem_quoted (t : Text) : CodePoint.ofChar '\n' ∉ quoted t := by
  have hm := quoteMark_ne_lineFeed (t.contains (CodePoint.ofChar '\''))
    (t.contains (CodePoint.ofChar '"'))
  simp only [quoted, List.cons_append, List.mem_cons, List.mem_append, List.mem_flatMap, not_or,
    List.not_mem_nil, or_false]
  exact ⟨Ne.symm hm, fun ⟨c, _, hc⟩ => lineFeed_notMem_escaped hm c hc, Ne.symm hm⟩

end Text

end Sidebar
