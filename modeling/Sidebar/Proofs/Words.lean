import Sidebar.Text.Basic

/-!
# Sidebar.Proofs.Words: texts and the runs in them

`Text.Runs p t ws` says that `ws` are the maximal runs in `t` of code points that are no separators:
there are separators between any two of them, and nothing but separators around them.

* `splitBy_append`, `runs_append`: a text that is cut at a separator.
* `runs_iff`: a text has one list of runs, the one that is computed.
* `runs_intercalate`: what is joined with a separator has the parts as its runs.
-/

namespace Sidebar.Text

variable {p : CodePoint → Bool} {t gap run : Text} {ws : List Text} {c sep : CodePoint}

/-- The runs of a text: where separators are left out, and a run ends only before a separator or at
the end. -/
inductive Runs (p : CodePoint → Bool) : Text → List Text → Prop
  | nil {gap : Text} (hgap : ∀ c ∈ gap, p c = true) : Runs p gap []
  | cons {gap run rest : Text} {ws : List Text} (hgap : ∀ c ∈ gap, p c = true) (hne : run ≠ [])
      (hrun : ∀ c ∈ run, p c = false) (hend : ∀ c ∈ rest.head?, p c = true)
      (hrest : Runs p rest ws) : Runs p (gap ++ (run ++ rest)) (run :: ws)

/-! ## Cutting -/

theorem splitBy_append (p : CodePoint → Bool) (s t : Text) (hc : p c = true) :
    splitBy p (s ++ c :: t) = splitBy p s ++ splitBy p t := by
  induction s with
  | nil =>
    obtain ⟨part, parts, ht, hct⟩ := splitBy_cons p c t
    rw [List.nil_append, hct, if_pos hc, ht]
    rfl
  | cons d s ih =>
    obtain ⟨part, parts, hs, hds⟩ := splitBy_cons p d s
    obtain ⟨part', parts', hst, hdst⟩ := splitBy_cons p d (s ++ c :: t)
    rw [hs, hst] at ih
    obtain ⟨rfl, rfl⟩ := List.cons.inj ih
    rw [List.cons_append, hdst, hds]
    split <;> rfl

theorem splitBy_of_none (ht : ∀ c ∈ t, p c = false) : splitBy p t = [t] := by
  induction t with
  | nil => rfl
  | cons c t ih =>
    rw [List.forall_mem_cons] at ht
    obtain ⟨part, parts, h, hct⟩ := splitBy_cons p c t
    obtain ⟨rfl, rfl⟩ := List.cons.inj ((ih ht.2).symm.trans h)
    rw [hct, ht.1]
    rfl

theorem runs_append (p : CodePoint → Bool) (s t : Text) (hc : p c = true) :
    runs p (s ++ c :: t) = runs p s ++ runs p t := by
  rw [runs, splitBy_append p s t hc, List.filter_append]
  rfl

theorem runs_cons (t : Text) (hc : p c = true) : runs p (c :: t) = runs p t :=
  runs_append p [] t hc

/-- Separators in front of a text belong to no run. -/
theorem runs_gap_append (hgap : ∀ c ∈ gap, p c = true) (t : Text) :
    runs p (gap ++ t) = runs p t := by
  induction gap with
  | nil => rfl
  | cons c gap ih =>
    rw [List.forall_mem_cons] at hgap
    rw [List.cons_append, runs_cons _ hgap.1, ih hgap.2]

theorem runs_run (hne : run ≠ []) (hrun : ∀ c ∈ run, p c = false) : runs p run = [run] := by
  rw [runs, splitBy_of_none hrun]
  exact List.filter_cons_of_pos (by simpa using hne)

/-! ## Maximal runs -/

theorem Runs.runs_eq (h : Runs p t ws) : runs p t = ws := by
  induction h with
  | nil hgap =>
    have hall := runs_gap_append hgap []
    rwa [List.append_nil] at hall
  | @cons gap run rest ws hgap hne hrun hend _ ih =>
    rw [runs_gap_append hgap]
    cases rest with
    | nil => rw [List.append_nil, runs_run hne hrun, ← ih]; rfl
    | cons c rest =>
      have hc : p c = true := hend c rfl
      rw [runs_cons rest hc] at ih
      rw [runs_append p run rest hc, runs_run hne hrun, ih, List.singleton_append]

/-- A separator in front of a text makes the first gap longer. -/
theorem Runs.cons_gap (h : Runs p t ws) (hc : p c = true) : Runs p (c :: t) ws := by
  cases h with
  | nil hgap => exact .nil (List.forall_mem_cons.2 ⟨hc, hgap⟩)
  | cons hgap hne hrun hend hrest =>
    exact .cons (List.forall_mem_cons.2 ⟨hc, hgap⟩) hne hrun hend hrest

theorem Runs.of_run {rest : Text} (hne : run ≠ []) (hrun : ∀ c ∈ run, p c = false)
    (hend : ∀ c ∈ rest.head?, p c = true) (hrest : Runs p rest ws) :
    Runs p (run ++ rest) (run :: ws) := by
  have hgap : ∀ c ∈ ([] : Text), p c = true := nofun
  exact .cons hgap hne hrun hend hrest

/-- A code point that is no separator, in front of a text, begins a run or makes the first one
longer. -/
theorem Runs.cons_run (h : Runs p t ws) (hc : p c = false) : ∃ vs, Runs p (c :: t) vs := by
  have hone : ∀ {rest : Text} {vs : List Text}, (∀ d ∈ rest.head?, p d = true) → Runs p rest vs →
      Runs p (c :: rest) ([c] :: vs) := fun hend hrest =>
    .of_run (List.cons_ne_nil c []) (by simpa using hc) hend hrest
  cases h with
  | @nil gap hgap =>
    exact ⟨_, hone (fun d hd => hgap d (List.mem_of_mem_head? hd)) (.nil hgap)⟩
  | @cons gap run rest ws hgap hne hrun hend hrest =>
    cases gap with
    | nil =>
      have hmore : ∀ d ∈ c :: run, p d = false := List.forall_mem_cons.2 ⟨hc, hrun⟩
      exact ⟨_, .of_run (List.cons_ne_nil c run) hmore hend hrest⟩
    | cons d gap =>
      refine ⟨_, hone (fun e he => ?_) (.cons hgap hne hrun hend hrest)⟩
      obtain rfl : d = e := Option.some.inj he
      exact hgap d List.mem_cons_self

theorem exists_runs (p : CodePoint → Bool) (t : Text) : ∃ ws, Runs p t ws := by
  induction t with
  | nil => exact ⟨[], .nil (by simp)⟩
  | cons c t ih =>
    obtain ⟨ws, h⟩ := ih
    cases hc : p c with
    | true => exact ⟨ws, h.cons_gap hc⟩
    | false => exact h.cons_run hc

/-- **A text has one list of runs**, the one that is computed. -/
theorem runs_iff : Runs p t ws ↔ ws = runs p t := by
  refine ⟨fun h => h.runs_eq.symm, ?_⟩
  rintro rfl
  obtain ⟨ws, h⟩ := exists_runs p t
  exact h.runs_eq ▸ h

theorem Runs.of_mem (h : Runs p t ws) {w : Text} (hw : w ∈ ws) :
    w ≠ [] ∧ (∀ c ∈ w, p c = false) ∧ w ⊆ t := by
  induction h with
  | nil => cases hw
  | @cons gap run rest ws hgap hne hrun hend _ ih =>
    rcases List.mem_cons.1 hw with rfl | hw
    · exact ⟨hne, hrun, fun c hc => by simp [hc]⟩
    · obtain ⟨hne', hrun', hsub⟩ := ih hw
      exact ⟨hne', hrun', fun c hc => by simp [hsub hc]⟩

/-- A text has a run as soon as it has a code point that is no separator. -/
theorem runs_ne_nil (hc : c ∈ t) (hno : p c = false) : runs p t ≠ [] := by
  intro h
  have hruns : Runs p t [] := runs_iff.2 h.symm
  cases hruns with
  | nil hgap => exact Bool.false_ne_true (hno.symm.trans (hgap c hc))

/-- What is joined with a separator has the parts as its runs. -/
theorem runs_intercalate (hsep : p sep = true)
    (hws : ∀ w ∈ ws, w ≠ [] ∧ ∀ c ∈ w, p c = false) : runs p ([sep].intercalate ws) = ws := by
  induction ws with
  | nil => rfl
  | cons w ws ih =>
    rw [List.forall_mem_cons] at hws
    cases ws with
    | nil => rw [List.intercalate_singleton, runs_run hws.1.1 hws.1.2]
    | cons v ws =>
      rw [List.intercalate_cons_cons, List.append_assoc, List.singleton_append,
        runs_append p _ _ hsep, runs_run hws.1.1 hws.1.2, ih hws.2, List.singleton_append]

end Sidebar.Text
