import Sidebar.Label

/-!
# Sidebar.Proofs.Capitals: what upper-casing leaves alone

Facts on the tables of upper-case forms.  They are read off the rows: a row stands for up to a
hundred code points, and its images for as many.

* `CodePoint.eq_of_mem_upper`: no upper-case form brings in a separator or a slash.
* `CodePoint.exists_head_upper`: what an upper-case form begins with is its own upper-case form.
* `Text.capitalize_capitalize`: a word is capitalized once.
-/

namespace Sidebar

namespace CodePoint

/-- The numbers of the separators of words and of the slash. -/
def markNumbers : List Nat := 0x2D :: 0x2F :: 0x5F :: blanks

/-- No number between the two is a mark. -/
def noMarkIn (first last : Nat) : Bool := markNumbers.all fun m => m.blt first || last.blt m

/-- The last image of a row. -/
def lastImage (row : Nat × Nat × Nat × Nat) : Nat := row.2.2.2 + (row.2.1 - row.1)

/-- No image of the first row is listed by the second: the images lie before or behind what the
second lists, or it lists every second number and they are among the others. -/
def apart (row row' : Nat × Nat × Nat × Nat) : Bool :=
  row'.2.1.blt row.2.2.2 || (lastImage row).blt row'.1 ||
    ((row.2.1.beq row.1 || row.2.2.1.beq 2) && row'.2.2.1.beq 2 &&
      ((row.2.2.2 + row'.1) % 2).beq 1)

/-! ## The rows -/

theorem runs_apart : (upperRuns.all fun row => upperRuns.all (apart row)) = true := by
  decide +kernel

theorem runs_expansions_apart :
    (upperRuns.all fun row => upperExpansions.all fun e =>
      e.1.blt row.2.2.2 || (lastImage row).blt e.1) = true := by
  decide +kernel

theorem runs_noMark :
    (upperRuns.all fun row => noMarkIn row.2.2.2 (lastImage row) &&
      (lastImage row).blt 0x110000) = true := by
  decide +kernel

theorem expansions_noMark :
    (upperExpansions.all fun e => e.2.all fun m => noMarkIn m m && m.blt 0x110000) = true := by
  decide +kernel

theorem expansions_fixed :
    (upperExpansions.all fun e => e.2.head?.any fun m => upperNumbers m == [m]) = true := by
  decide +kernel

/-! ## Numbers -/

/-- The forms that there are: one of `upperExpansions`, the image in a row, or the number. -/
theorem upperNumbers_cases (n : Nat) :
    (∃ e ∈ upperExpansions, upperNumbers n = e.2) ∨
      (∃ row ∈ upperRuns, inRun n row = true ∧ upperNumbers n = [row.2.2.2 + (n - row.1)]) ∨
        upperNumbers n = [n] := by
  unfold upperNumbers
  split
  · next image h =>
    obtain ⟨before, behind, hlist, -⟩ := List.lookup_eq_some_iff.1 h
    exact .inl ⟨(n, image), by simp [hlist], rfl⟩
  · split
    · next row h => exact .inr (.inl ⟨row, List.mem_of_find?_eq_some h, List.find?_some h, rfl⟩)
    · exact .inr (.inr rfl)

theorem inRun_iff {n : Nat} {row : Nat × Nat × Nat × Nat} :
    inRun n row = true ↔ row.1 ≤ n ∧ n ≤ row.2.1 ∧ (n - row.1) % row.2.2.1 = 0 := by
  simp [inRun, and_assoc]

theorem image_le_lastImage {n : Nat} {row : Nat × Nat × Nat × Nat} (h : inRun n row = true) :
    row.2.2.2 + (n - row.1) ≤ lastImage row := by
  obtain ⟨-, hn, -⟩ := inRun_iff.1 h
  rw [lastImage]
  omega

theorem not_inRun_of_apart {n : Nat} {row row' : Nat × Nat × Nat × Nat} (h : inRun n row = true)
    (hapart : apart row row' = true) : inRun (row.2.2.2 + (n - row.1)) row' = false := by
  have hle := image_le_lastImage h
  obtain ⟨hfirst, hlast, hstep⟩ := inRun_iff.1 h
  rw [Bool.eq_false_iff, ne_eq, inRun_iff]
  simp only [apart, Bool.or_eq_true, Bool.and_eq_true, Nat.blt_eq, Nat.beq_eq] at hapart
  rcases hapart with (hbehind | hbefore) | ⟨⟨hone | htwo, htwo'⟩, hodd⟩
  · omega
  · omega
  · rw [htwo']
    omega
  · rw [htwo] at hstep
    rw [htwo']
    omega

/-- An image in a row is its own upper-case form. -/
theorem upperNumbers_image {n : Nat} {row : Nat × Nat × Nat × Nat} (hrow : row ∈ upperRuns)
    (h : inRun n row = true) :
    upperNumbers (row.2.2.2 + (n - row.1)) = [row.2.2.2 + (n - row.1)] := by
  have hexpansions : upperExpansions.lookup (row.2.2.2 + (n - row.1)) = none := by
    have hall := List.all_eq_true.1 runs_expansions_apart row hrow
    rw [List.lookup_eq_none_iff]
    intro e he
    have hle := image_le_lastImage h
    have hapart := List.all_eq_true.1 hall e he
    simp only [Bool.or_eq_true, Nat.blt_eq] at hapart
    rw [bne_iff_ne]
    omega
  have hruns : upperRuns.find? (inRun (row.2.2.2 + (n - row.1))) = none := by
    rw [List.find?_eq_none]
    intro row' hrow'
    have hall := List.all_eq_true.1 runs_apart row hrow
    rw [not_inRun_of_apart h (List.all_eq_true.1 hall row' hrow')]
    exact Bool.false_ne_true
  rw [upperNumbers, hexpansions, hruns]

/-- What an upper-case form begins with is its own upper-case form. -/
theorem exists_head_upperNumbers (n : Nat) :
    ∃ m rest, upperNumbers n = m :: rest ∧ upperNumbers m = [m] := by
  rcases upperNumbers_cases n with ⟨e, he, hn⟩ | ⟨row, hrow, hin, hn⟩ | hn
  · have hfixed := List.all_eq_true.1 expansions_fixed e he
    cases hform : e.2 with
    | nil => simp [hform] at hfixed
    | cons m rest => exact ⟨m, rest, hn.trans hform, by simpa [hform] using hfixed⟩
  · exact ⟨_, [], hn, upperNumbers_image hrow hin⟩
  · exact ⟨n, [], hn, hn⟩

theorem noMarkIn_iff {first last : Nat} :
    noMarkIn first last = true ↔ ∀ m ∈ markNumbers, m < first ∨ last < m := by
  simp [noMarkIn]

/-- An upper-case form holds no mark but the number that it is the form of, and code points
only. -/
theorem of_mem_upperNumbers {n m : Nat} (hm : m ∈ upperNumbers n) :
    (m ∈ markNumbers → m = n) ∧ (n < 0x110000 → m < 0x110000) := by
  rcases upperNumbers_cases n with ⟨e, he, hn⟩ | ⟨row, hrow, hin, hn⟩ | hn
  · have hall := List.all_eq_true.1 expansions_noMark e he
    have hmark := List.all_eq_true.1 hall m (hn ▸ hm)
    rw [Bool.and_eq_true, noMarkIn_iff, Nat.blt_eq] at hmark
    exact ⟨fun hmem => absurd (hmark.1 m hmem) (by omega), fun _ => hmark.2⟩
  · have hmark := List.all_eq_true.1 runs_noMark row hrow
    rw [Bool.and_eq_true, noMarkIn_iff, Nat.blt_eq] at hmark
    have hle := image_le_lastImage hin
    rw [hn, List.mem_singleton] at hm
    refine ⟨fun hmem => absurd (hmark.1 m hmem) (by omega), fun _ => by omega⟩
  · rw [hn, List.mem_singleton] at hm
    exact ⟨fun _ => hm, fun hlt => hm ▸ hlt⟩

/-! ## Code points -/

variable {c d : CodePoint}

theorem toNat_ofNat_of_lt {n : Nat} (h : n < 0x110000) : (ofNat n).toNat = n := by
  rw [ofNat, dif_pos h]

theorem toNat_mem_of_mem_upper (hd : d ∈ c.upper) : d.toNat ∈ upperNumbers c.toNat := by
  obtain ⟨m, hm, rfl⟩ := List.mem_map.1 hd
  rwa [toNat_ofNat_of_lt ((of_mem_upperNumbers hm).2 c.isLt)]

/-- The code point is one that labels are cut at, or a slash. -/
def isMark (c : CodePoint) : Bool := Label.isSeparator c || c = ofChar '/'

theorem eq_ofChar_iff {x : Char} : c = ofChar x ↔ c.toNat = x.toNat :=
  ⟨fun h => h ▸ rfl, fun h => by obtain ⟨n, hn⟩ := c; obtain rfl : n = x.toNat := h; rfl⟩

theorem isMark_iff : c.isMark = true ↔ c.toNat ∈ markNumbers := by
  have hnumbers : '_'.toNat = 0x5F ∧ '-'.toNat = 0x2D ∧ '/'.toNat = 0x2F := by decide
  simp only [isMark, Label.isSeparator, Label.isJoiner, isBlank, markNumbers, List.mem_cons,
    Bool.or_eq_true, decide_eq_true_eq, eq_ofChar_iff, List.contains_iff_mem, hnumbers]
  grind

/-- **An upper-case form brings in no separator and no slash.** -/
theorem eq_of_mem_upper (hd : d ∈ c.upper) (hmark : d.isMark = true) : d = c := by
  have heq := (of_mem_upperNumbers (toNat_mem_of_mem_upper hd)).1 (isMark_iff.1 hmark)
  obtain ⟨n, hn⟩ := c
  obtain ⟨m, hm⟩ := d
  obtain rfl : m = n := heq
  rfl

/-- **What an upper-case form begins with stays** when it is put in upper case again. -/
theorem exists_head_upper (c : CodePoint) : ∃ d rest, c.upper = d :: rest ∧ d.upper = [d] := by
  obtain ⟨m, rest, hn, hm⟩ := exists_head_upperNumbers c.toNat
  have hlt : m < 0x110000 := (of_mem_upperNumbers (n := c.toNat) (by simp [hn])).2 c.isLt
  refine ⟨ofNat m, rest.map ofNat, by rw [upper, hn]; rfl, ?_⟩
  rw [upper, toNat_ofNat_of_lt hlt, hm]
  rfl

end CodePoint

/-! ## Words -/

namespace Text

variable {w : Text}

theorem capitalize_ne_nil (h : w ≠ []) : w.capitalize ≠ [] := by
  obtain ⟨c, r, rfl⟩ := List.exists_cons_of_ne_nil h
  obtain ⟨d, rest, hc, -⟩ := c.exists_head_upper
  simp [capitalize, hc]

/-- Capitalizing brings in no separator and no slash. -/
theorem mem_of_mem_capitalize {d : CodePoint} (hd : d ∈ w.capitalize) (hmark : d.isMark = true) :
    d ∈ w := by
  cases w with
  | nil => exact hd
  | cons c r =>
    rcases List.mem_append.1 hd with hd | hd
    · exact CodePoint.eq_of_mem_upper hd hmark ▸ List.mem_cons_self
    · exact List.mem_cons_of_mem c hd

/-- **A word is capitalized once.** -/
theorem capitalize_capitalize (w : Text) : w.capitalize.capitalize = w.capitalize := by
  cases w with
  | nil => rfl
  | cons c r =>
    obtain ⟨d, rest, hc, hd⟩ := c.exists_head_upper
    rw [capitalize, hc, List.cons_append, capitalize, hd]
    rfl

end Text

end Sidebar
