import Mathlib.Data.List.Chain
import Mathlib.Data.List.DropRight
import Sidebar.Proofs.Capitals
import Sidebar.Proofs.Words

/-!
# Sidebar.Proofs.Labels: what the labels of documents look like

The label of a document that is given none is made of the runs in the last segment of its id, each
one capitalized, with single blanks between them; it is the id itself where there are no runs.

* `isLastSegment_iff`: an id has one last segment.
* `tidy_intercalate`: what is made of runs has no separator at its ends, and no two in a row.
* `ofId_ofId`: a label is its own label.
* `label_by_runs`: the whole of it.
-/

namespace Sidebar.Label

/-- The code point between the segments of an id. -/
abbrev slash : CodePoint := CodePoint.ofChar '/'

variable {id segment trimmed : Text} {ws : List Text} {c : CodePoint}

/-! ## The last segment -/

/-- The segment is what an id has behind its last slash, slashes at its end set aside. -/
def IsLastSegment (id segment : Text) : Prop :=
  ∃ trimmed n, id = trimmed ++ List.replicate n slash ∧ slash ∉ trimmed.getLast? ∧
    slash ∉ segment ∧ (trimmed = segment ∨ ∃ above, trimmed = above ++ slash :: segment)

theorem dropRightWhile_slashes (n : Nat) (h : slash ∉ trimmed.getLast?) :
    Text.dropRightWhile (· == slash) (trimmed ++ List.replicate n slash) = trimmed := by
  show List.rdropWhile _ _ = _
  induction n with
  | zero =>
    rw [List.replicate_zero, List.append_nil, List.rdropWhile_eq_self_iff]
    intro hne hlast
    rw [beq_iff_eq] at hlast
    exact h (hlast ▸ List.getLast?_eq_getLast_of_ne_nil hne)
  | succ n ih =>
    rw [List.replicate_succ', ← List.append_assoc, List.rdropWhile_concat_pos _ _ _ (by simp), ih]

theorem exists_trimmed (id : Text) :
    ∃ trimmed n, id = trimmed ++ List.replicate n slash ∧ slash ∉ trimmed.getLast? := by
  induction id using List.reverseRecOn with
  | nil => exact ⟨[], 0, rfl, by simp⟩
  | append_singleton id c ih =>
    by_cases hc : c = slash
    · obtain ⟨trimmed, n, rfl, h⟩ := ih
      exact ⟨trimmed, n + 1, by rw [hc, List.replicate_succ', List.append_assoc], h⟩
    · exact ⟨id ++ [c], 0, by simp, by simpa using hc⟩

theorem exists_segment (trimmed : Text) :
    ∃ segment, slash ∉ segment ∧
      (trimmed = segment ∨ ∃ above, trimmed = above ++ slash :: segment) := by
  induction trimmed with
  | nil => exact ⟨[], by simp, .inl rfl⟩
  | cons c trimmed ih =>
    obtain ⟨segment, hs, rfl | ⟨above, rfl⟩⟩ := ih
    · by_cases hc : c = slash
      · exact ⟨trimmed, hs, .inr ⟨[], by rw [hc, List.nil_append]⟩⟩
      · exact ⟨c :: trimmed, by simp [hs, Ne.symm hc], .inl rfl⟩
    · exact ⟨segment, hs, .inr ⟨c :: above, rfl⟩⟩

theorem IsLastSegment.eq (h : IsLastSegment id segment) : segment = lastSegment id := by
  obtain ⟨trimmed, n, rfl, hlast, hs, hsegment⟩ := h
  have hone : Text.splitBy (· == slash) segment = [segment] :=
    Text.splitBy_of_none fun c hc => beq_eq_false_iff_ne.2 fun he => hs (he ▸ hc)
  rw [lastSegment, dropRightWhile_slashes n hlast, Text.split]
  rcases hsegment with rfl | ⟨above, rfl⟩
  · rw [hone]
    rfl
  · rw [Text.splitBy_append _ _ _ (by simp), hone, List.getLastD_concat]

/-- **An id has one last segment**, the one that its label is made from. -/
theorem isLastSegment_iff : IsLastSegment id segment ↔ segment = lastSegment id := by
  refine ⟨IsLastSegment.eq, ?_⟩
  rintro rfl
  obtain ⟨trimmed, n, hid, hlast⟩ := exists_trimmed id
  obtain ⟨segment, hs, hsegment⟩ := exists_segment trimmed
  have h : IsLastSegment id segment := ⟨trimmed, n, hid, hlast, hs, hsegment⟩
  exact h.eq ▸ h

theorem isLastSegment_self (hs : slash ∉ segment) : IsLastSegment segment segment :=
  ⟨segment, 0, by simp, fun h => hs (List.mem_of_getLast? h), hs, .inl rfl⟩

/-- A segment stays the last one when something is put in front of the id. -/
theorem IsLastSegment.below (h : IsLastSegment id segment) (hne : segment ≠ []) (above : Text) :
    IsLastSegment (above ++ slash :: id) segment := by
  obtain ⟨trimmed, n, rfl, hlast, hs, hsegment⟩ := h
  have htrimmed : trimmed ≠ [] := by
    rcases hsegment with rfl | ⟨above', rfl⟩
    · exact hne
    · simp
  refine ⟨above ++ slash :: trimmed, n, by simp, ?_, hs, .inr ?_⟩
  · rwa [List.append_cons, List.getLast?_append_of_ne_nil _ htrimmed]
  · rcases hsegment with rfl | ⟨above', rfl⟩
    · exact ⟨above, rfl⟩
    · exact ⟨above ++ slash :: above', by simp⟩

/-- A segment stays the last one when slashes are put behind the id. -/
theorem IsLastSegment.before_slashes (h : IsLastSegment id segment) (n : Nat) :
    IsLastSegment (id ++ List.replicate n slash) segment := by
  obtain ⟨trimmed, m, rfl, hrest⟩ := h
  exact ⟨trimmed, m + n, by rw [List.append_assoc, List.replicate_append_replicate], hrest⟩

/-! ## Labels made of runs -/

/-- The label has no separator but single blanks between its words, and no slash. -/
structure Tidy (label : Text) : Prop where
  marks : ∀ c ∈ label, c ≠ CodePoint.ofChar '_' ∧ c ≠ CodePoint.ofChar '-' ∧ c ≠ slash
  leading : ∀ c ∈ label.head?, c.isBlank = false
  trailing : ∀ c ∈ label.getLast?, c.isBlank = false
  doubled : label.IsChain fun c d => ¬ (c.isBlank = true ∧ d.isBlank = true)

/-- The text can be a word of a label. -/
def IsWord (w : Text) : Prop := w ≠ [] ∧ ∀ c ∈ w, c.isMark = false

theorem isMark_eq_false_iff : c.isMark = false ↔ isSeparator c = false ∧ c ≠ slash := by
  simp [CodePoint.isMark]

theorem not_blank_of_not_mark (h : c.isMark = false) : c.isBlank = false := by
  simp only [CodePoint.isMark, isSeparator, isJoiner, Bool.or_eq_false_iff] at h
  exact h.1.2

theorem isWord_capitalize {w : Text} (h : IsWord w) : IsWord w.capitalize := by
  refine ⟨Text.capitalize_ne_nil h.1, fun c hc => ?_⟩
  cases hmark : c.isMark with
  | false => rfl
  | true => exact hmark.symm.trans (h.2 c (Text.mem_of_mem_capitalize hc hmark))

theorem tidy_word {w : Text} (h : IsWord w) : Tidy w where
  marks c hc := by
    have hmark := h.2 c hc
    simp only [CodePoint.isMark, isSeparator, isJoiner, Bool.or_eq_false_iff,
      decide_eq_false_iff_not] at hmark
    exact ⟨hmark.1.1.1, hmark.1.1.2, hmark.2⟩
  leading c hc := not_blank_of_not_mark (h.2 c (List.mem_of_mem_head? hc))
  trailing c hc := not_blank_of_not_mark (h.2 c (List.mem_of_getLast? hc))
  doubled := List.Pairwise.isChain <| List.pairwise_of_forall_mem_list fun c hc _ _ hblank =>
    Bool.false_ne_true ((not_blank_of_not_mark (h.2 c hc)).symm.trans hblank.1)

/-- Two labels with a blank between them make one. -/
theorem Tidy.append {l m : Text} (hl : Tidy l) (hm : Tidy m) (hlne : l ≠ []) (hmne : m ≠ []) :
    Tidy (l ++ blank :: m) where
  marks := by
    rw [List.forall_mem_append, List.forall_mem_cons]
    exact ⟨hl.marks, by decide, hm.marks⟩
  leading := by
    rw [List.head?_append_of_ne_nil _ hlne]
    exact hl.leading
  trailing := by
    rw [List.append_cons, List.getLast?_append_of_ne_nil _ hmne]
    exact hm.trailing
  doubled := by
    rw [List.isChain_append, List.isChain_cons]
    refine ⟨hl.doubled, ⟨fun c hc hblank => ?_, hm.doubled⟩, fun c hc d _ hblank => ?_⟩
    · exact Bool.false_ne_true ((hm.leading c hc).symm.trans hblank.2)
    · exact Bool.false_ne_true ((hl.trailing c hc).symm.trans hblank.1)

theorem tidy_intercalate (hne : ws ≠ []) (hws : ∀ w ∈ ws, IsWord w) :
    Tidy ([blank].intercalate ws) ∧ [blank].intercalate ws ≠ [] := by
  induction ws with
  | nil => exact absurd rfl hne
  | cons w ws ih =>
    rw [List.forall_mem_cons] at hws
    cases ws with
    | nil =>
      rw [List.intercalate_singleton]
      exact ⟨tidy_word hws.1, hws.1.1⟩
    | cons v ws =>
      obtain ⟨htidy, hrest⟩ := ih (List.cons_ne_nil v ws) hws.2
      rw [List.intercalate_cons_cons, List.append_assoc, List.singleton_append]
      exact ⟨(tidy_word hws.1).append htidy hws.1.1 hrest, by simp⟩

/-! ## The label of an id -/

theorem ofId_of_no_words (h : words (lastSegment id) = []) : ofId id = id := by
  rw [ofId, h]
  rfl

theorem isWord_of_mem_words {w : Text} (hw : w ∈ words (lastSegment id)) : IsWord w := by
  obtain ⟨_, _, _, _, hs, -⟩ := isLastSegment_iff.2 (rfl : lastSegment id = lastSegment id)
  rw [words_eq_runs] at hw
  obtain ⟨hne, hrun, hsub⟩ := (Text.runs_iff.2 rfl).of_mem hw
  exact ⟨hne, fun c hc => isMark_eq_false_iff.2 ⟨hrun c hc, fun he => hs (he ▸ hsub hc)⟩⟩

theorem isWord_of_mem_capitalized {w : Text}
    (hw : w ∈ (words (lastSegment id)).map Text.capitalize) : IsWord w ∧ w.capitalize = w := by
  obtain ⟨v, hv, rfl⟩ := List.mem_map.1 hw
  exact ⟨isWord_capitalize (isWord_of_mem_words hv), v.capitalize_capitalize⟩

theorem tidy_joined (h : words (lastSegment id) ≠ []) :
    Tidy ([blank].intercalate ((words (lastSegment id)).map Text.capitalize)) ∧
      [blank].intercalate ((words (lastSegment id)).map Text.capitalize) ≠ [] :=
  tidy_intercalate (by simpa using h) fun w hw => (isWord_of_mem_capitalized hw).1

/-- Words are never joined to an empty text. -/
theorem ofId_of_words (h : words (lastSegment id) ≠ []) :
    ofId id = [blank].intercalate ((words (lastSegment id)).map Text.capitalize) := by
  rw [ofId]
  exact if_neg (tidy_joined h).2

theorem tidy_ofId (h : words (lastSegment id) ≠ []) : Tidy (ofId id) ∧ ofId id ≠ [] := by
  rw [ofId_of_words h]
  exact tidy_joined h

/-- What is joined from capitalized words is its own label. -/
theorem ofId_intercalate (hne : ws ≠ []) (hws : ∀ w ∈ ws, IsWord w ∧ w.capitalize = w) :
    ofId ([blank].intercalate ws) = [blank].intercalate ws := by
  have htidy := (tidy_intercalate hne fun w hw => (hws w hw).1).1
  have hsegment := (isLastSegment_self fun hs => (htidy.marks slash hs).2.2 rfl).eq
  have hwords : words ([blank].intercalate ws) = ws := by
    rw [words_eq_runs]
    exact Text.runs_intercalate (by decide) fun w hw =>
      ⟨(hws w hw).1.1, fun c hc => (isMark_eq_false_iff.1 ((hws w hw).1.2 c hc)).1⟩
  rw [hsegment] at hwords
  rw [ofId_of_words (hwords.symm ▸ hne), hwords, List.map_congr_left fun w hw => (hws w hw).2,
    List.map_id']

/-- **A label is its own label.** -/
theorem ofId_ofId (id : Text) : ofId (ofId id) = ofId id := by
  by_cases h : words (lastSegment id) = []
  · rw [ofId_of_no_words h, ofId_of_no_words h]
  · rw [ofId_of_words h]
    exact ofId_intercalate (by simpa using h) fun w hw => isWord_of_mem_capitalized hw

/-- A label of words is that of every id with the same last segment. -/
theorem ofId_congr {other : Text} (h : words (lastSegment id) ≠ [])
    (hother : IsLastSegment other (lastSegment id)) : ofId other = ofId id := by
  have h' : words (lastSegment other) ≠ [] := hother.eq ▸ h
  rw [ofId_of_words h, ofId_of_words h', hother.eq]

theorem isBlank_ofId (hid : id.isBlank = false) : (ofId id).isBlank = false := by
  by_cases h : words (lastSegment id) = []
  · rwa [ofId_of_no_words h]
  · obtain ⟨htidy, hne⟩ := tidy_ofId h
    obtain ⟨c, label, hlabel⟩ := List.exists_cons_of_ne_nil hne
    have hc := htidy.leading c (by rw [hlabel]; rfl)
    rw [Text.isBlank, List.all_eq_false]
    exact ⟨c, hlabel ▸ List.mem_cons_self, by simp [hc]⟩

/-- **The label of an id by the runs in its last segment.**  An id has one last segment, and a
segment one list of maximal runs between underscores, hyphens and white space.  Where there is a
run, the label is made of the runs, each with its first code point in upper case, joined with single
blanks: it has no separators beside these, and none of them at its ends or next to each other, and
no slash; and nothing in front of a slash changes it, nor do slashes at the end.  Otherwise the
label is the id.  It is never blank if the id is not, and it is its own label. -/
theorem label_by_runs (id : Text) (hid : id.isBlank = false) :
    ∃ segment ws, (∀ s, IsLastSegment id s ↔ s = segment) ∧
      (∀ vs, Text.Runs isSeparator segment vs ↔ vs = ws) ∧
      ((∃ c ∈ segment, isSeparator c = false) →
        ofId id = [blank].intercalate (ws.map Text.capitalize) ∧ Tidy (ofId id) ∧
          (∀ above, ofId (above ++ slash :: id) = ofId id) ∧
          ∀ n, ofId (id ++ List.replicate n slash) = ofId id) ∧
      ((∀ c ∈ segment, isSeparator c = true) → ofId id = id) ∧
      (ofId id).isBlank = false ∧ ofId (ofId id) = ofId id := by
  have hsegment := isLastSegment_iff.2 (rfl : lastSegment id = lastSegment id)
  have hruns := words_eq_runs (lastSegment id)
  refine ⟨lastSegment id, words (lastSegment id), fun s => isLastSegment_iff,
    fun vs => hruns ▸ Text.runs_iff, fun ⟨c, hc, hno⟩ => ?_, fun hall => ?_, isBlank_ofId hid,
    ofId_ofId id⟩
  · have hwords : words (lastSegment id) ≠ [] := hruns ▸ Text.runs_ne_nil hc hno
    have hne : lastSegment id ≠ [] := List.ne_nil_of_mem hc
    exact ⟨ofId_of_words hwords, (tidy_ofId hwords).1,
      fun above => ofId_congr hwords (hsegment.below hne above),
      fun n => ofId_congr hwords (hsegment.before_slashes n)⟩
  · exact ofId_of_no_words (hruns.trans (Text.runs_iff.1 (.nil hall)).symm)

/-- A small letter that becomes two capitals, and a last segment without a run. -/
theorem label_of_sharpS_and_separators :
    (("guides/__ßig-tEXT\t//" : Text).isBlank = false ∧
        (∃ c ∈ ("__ßig-tEXT\t" : Text), isSeparator c = false) ∧
        ofId "guides/__ßig-tEXT\t//" = "SSig TEXT" ∧ Tidy (ofId "guides/__ßig-tEXT\t//") ∧
        ofId (ofId "guides/__ßig-tEXT\t//") = ofId "guides/__ßig-tEXT\t//") ∧
      ("guides/_-" : Text).isBlank = false ∧ (∀ c ∈ ("_-" : Text), isSeparator c = true) ∧
        ofId "guides/_-" = "guides/_-" := by
  have hblank : ("guides/__ßig-tEXT\t//" : Text).isBlank = false := by decide
  have hsomething : ("guides/_-" : Text).isBlank = false := by decide
  have hletter : ∃ c ∈ ("__ßig-tEXT\t" : Text), isSeparator c = false :=
    ⟨CodePoint.ofChar 'ß', by decide, by decide⟩
  have hall : ∀ c ∈ ("_-" : Text), isSeparator c = true := by decide
  obtain ⟨segment, ws, hsegment, -, hwords, -, -, htwice⟩ :=
    label_by_runs "guides/__ßig-tEXT\t//" hblank
  obtain ⟨marks, ws', hmarks, -, -, hnone, -⟩ := label_by_runs "guides/_-" hsomething
  obtain rfl := (hsegment "__ßig-tEXT\t").1
    ⟨"guides/__ßig-tEXT\t", 2, by decide, by decide, by decide, .inr ⟨"guides", by decide⟩⟩
  obtain rfl := (hmarks "_-").1
    ⟨"guides/_-", 0, by decide, by decide, by decide, .inr ⟨"guides", by decide⟩⟩
  exact ⟨⟨hblank, hletter, by decide +kernel, (hwords hletter).2.1, htwice⟩, hsomething, hall,
    hnone hall⟩

end Sidebar.Label
