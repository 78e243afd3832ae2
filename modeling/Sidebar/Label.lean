import Sidebar.Text.Blank
import Sidebar.Text.UpperCase

/-!
# Sidebar.Label: labels for documents that have none

The default label of a document is made from the last segment of its id: underscores and hyphens are
replaced by blanks, and the words between white space get their first letter in upper case.  Main
statement: the words are the runs between underscores, hyphens and white space (`words_eq_runs`).
-/

namespace Sidebar.Label

/-- The blank between the words of a label. -/
def blank : CodePoint := CodePoint.ofChar ' '

/-- The code point is an underscore or a hyphen. -/
def isJoiner (c : CodePoint) : Bool := c = CodePoint.ofChar '_' || c = CodePoint.ofChar '-'

/-- The last segment of an id, slashes at its end set aside. -/
def lastSegment (id : Text) : Text :=
  let slash := CodePoint.ofChar '/'
  (Text.split slash (id.dropRightWhile (· == slash))).getLastD []

/-- The text with a blank in place of each run of underscores and hyphens. -/
def spaced : Text → Text
  | [] => []
  | c :: r =>
    if isJoiner c then if r.head?.any isJoiner then spaced r else blank :: spaced r
    else c :: spaced r

/-- The words of a segment. -/
def words (segment : Text) : List Text := (spaced segment).runs CodePoint.isBlank

/-- The label of a document whose configuration gives none; the id itself when nothing else is
left. -/
def ofId (id : Text) : Text :=
  let label := [blank].intercalate ((words (lastSegment id)).map Text.capitalize)
  if label = [] then id else label

/-! ### Words as runs -/

/-- The code point stands between the words of an id. -/
def isSeparator (c : CodePoint) : Bool := isJoiner c || c.isBlank

theorem splitBy_spaced (t : Text) :
    ∃ part parts parts', t.splitBy isSeparator = part :: parts ∧
      (spaced t).splitBy CodePoint.isBlank = part :: parts' ∧
      parts.filter (· ≠ []) = parts'.filter (· ≠ []) := by
  induction t with
  | nil => exact ⟨[], [], [], rfl, rfl, rfl⟩
  | cons c r ih =>
    obtain ⟨part, parts, parts', hr, hs, hparts⟩ := ih
    obtain ⟨part1, parts1, hr1, hc⟩ := Text.splitBy_cons isSeparator c r
    obtain ⟨rfl, rfl⟩ := List.cons.inj (hr.symm.trans hr1)
    rw [spaced]
    by_cases hj : isJoiner c = true
    · have hsep : isSeparator c = true := by simp [isSeparator, hj]
      rw [if_pos hj, hc, if_pos hsep]
      split
      · -- the run goes on, and what follows it in the segment begins with an empty part
        next hmore =>
        have hempty : part = [] := by
          cases r with
          | nil => simp at hmore
          | cons d r =>
            obtain ⟨_, _, _, hd⟩ := Text.splitBy_cons isSeparator d r
            rw [if_pos (by simpa [isSeparator] using .inl hmore), hr] at hd
            exact (List.cons.inj hd).1
        exact ⟨[], part :: parts, parts', rfl, hempty ▸ hs, by
          rw [hempty, List.filter_cons_of_neg (by simp), hparts]⟩
      · obtain ⟨part2, parts2, hs2, hb⟩ := Text.splitBy_cons CodePoint.isBlank blank (spaced r)
        obtain ⟨rfl, rfl⟩ := List.cons.inj (hs.symm.trans hs2)
        rw [hb, if_pos (by decide)]
        exact ⟨[], _, _, rfl, rfl, by rw [List.filter_cons, List.filter_cons, hparts]⟩
    · have hsep : isSeparator c = c.isBlank := by simp [isSeparator, hj]
      obtain ⟨part2, parts2, hs2, hb⟩ := Text.splitBy_cons CodePoint.isBlank c (spaced r)
      obtain ⟨rfl, rfl⟩ := List.cons.inj (hs.symm.trans hs2)
      rw [if_neg hj, hc, hb, hsep]
      split
      · exact ⟨[], _, _, rfl, rfl, by rw [List.filter_cons, List.filter_cons, hparts]⟩
      · exact ⟨_, _, _, rfl, rfl, hparts⟩

/-- The words of a segment are the runs between underscores, hyphens and white space. -/
theorem words_eq_runs (segment : Text) : words segment = segment.runs isSeparator := by
  obtain ⟨part, parts, parts', hr, hs, hparts⟩ := splitBy_spaced segment
  rw [words, Text.runs, Text.runs, hr, hs, List.filter_cons, List.filter_cons, hparts]

end Sidebar.Label
