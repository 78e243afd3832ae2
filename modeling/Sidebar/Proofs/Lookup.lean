import Mathlib.Data.List.Induction
import Sidebar.FileSystem.Resolve

/-!
# Sidebar.Proofs.Lookup: the real location of a path

`Entry.LeadsTo` says where names lead when every link on the way is followed, as often as it takes:
the real location.  A path from the root is `Entry.Settled` when it is spelled without idle names
and double dots, and the system finds no link on the way.

* `leadsTo_of_walk`: what is looked up is at the real location of the path.
* `LeadsTo.unique`: there is one real location.
* `Settled.straight`, `LeadsTo.eq_of_straight`: a settled path that can be looked up leads to the
  place of its names, as they are listed.
* `follow_settled`: a path from the root that is followed to its end is settled.
-/

namespace Sidebar

namespace Entry

/-! ## Real locations -/

/-- Following `names` from the directory at `here`, links included, leads to the place `there`. -/
inductive LeadsTo (root : Entry) : List Text → List Text → List Text → Prop
  | here {here : List Text} : LeadsTo root here [] here
  | place {here names next there : List Text} {name : Text}
      (he : root.enter here name = .ok (.place next)) (h : LeadsTo root next names there) :
      LeadsTo root here (name :: names) there
  | link {here names there : List Text} {name target : Text}
      (he : root.enter here name = .ok (.link target))
      (h : LeadsTo root (linkStart here target) (segments target ++ names) there) :
      LeadsTo root here (name :: names) there

variable {root : Entry} {work here names there : List Text} {name target : Text}

/-- What a look-up finds is at the place that the names lead to. -/
theorem leadsTo_of_walk {links : Nat} {e : Entry} (h : root.walk true links here names = .ok e) :
    ∃ there, root.LeadsTo here names there ∧ root.at? there = some e := by
  generalize hf : true = followLast at h
  fun_induction walk root followLast links here names with
  | case1 links here e' he =>
    obtain rfl := Except.ok.inj h
    exact ⟨here, .here, he⟩
  | case2 => cases h
  | case3 => cases h
  | case4 links here name names next hn ih =>
    obtain ⟨there, ht, he⟩ := ih h
    exact ⟨there, .place hn ht, he⟩
  | case5 links here name names target hn hlast =>
    rw [← hf] at hlast
    cases hlast.2
  | case6 => cases h
  | case7 here name names target hn hlast links ih =>
    obtain ⟨there, ht, he⟩ := ih h
    exact ⟨there, .link hn ht, he⟩

theorem leadsTo_append {xs ys : List Text} (h : root.LeadsTo here (xs ++ ys) there) :
    ∃ mid, root.LeadsTo here xs mid ∧ root.LeadsTo mid ys there := by
  generalize hn : xs ++ ys = names at h
  induction h generalizing xs with
  | here =>
    obtain ⟨rfl, rfl⟩ := List.append_eq_nil_iff.1 hn
    exact ⟨_, .here, .here⟩
  | place he h ih =>
    rcases List.append_eq_cons_iff.1 hn with ⟨rfl, rfl⟩ | ⟨xs', rfl, rfl⟩
    · exact ⟨_, .here, .place he h⟩
    · obtain ⟨mid, h1, h2⟩ := ih rfl
      exact ⟨mid, .place he h1, h2⟩
  | @link here names there name target he h ih =>
    rcases List.append_eq_cons_iff.1 hn with ⟨rfl, rfl⟩ | ⟨xs', rfl, rfl⟩
    · exact ⟨_, .here, .link he h⟩
    · obtain ⟨mid, h1, h2⟩ := ih (List.append_assoc (segments target) xs' ys)
      exact ⟨mid, .link he h1, h2⟩

/-- There is one real location. -/
theorem LeadsTo.unique {there' : List Text} (h : root.LeadsTo here names there)
    (h' : root.LeadsTo here names there') : there = there' := by
  induction h with
  | here =>
    cases h'
    rfl
  | place he h ih =>
    cases h' with
    | place he' h' =>
      obtain rfl := Onward.place.inj (Except.ok.inj (he.symm.trans he'))
      exact ih h'
    | link he' => cases he.symm.trans he'
  | link he h ih =>
    cases h' with
    | place he' => cases he.symm.trans he'
    | link he' h' =>
      obtain rfl := Onward.link.inj (Except.ok.inj (he.symm.trans he'))
      exact ih h'

/-! ## Straight ways -/

/-- The name is none that means the directory itself or the one above. -/
def IsProper (name : Text) : Prop := ¬ isIdle name = true ∧ ¬ name = parentName

/-- Along the names, each is entered as the child of that name, if it is entered at all. -/
def Straight (root : Entry) : List Text → List Text → Prop
  | _, [] => True
  | here, name :: names => ∀ onward, root.enter here name = .ok onward →
    onward = .place (here ++ [listed name]) ∧ Straight root (here ++ [listed name]) names

theorem enter_ne_tooManyLinks : root.enter here name ≠ .error .tooManyLinks := by
  unfold enter
  repeat' split
  all_goals simp

/-- A proper name leads to the child of that name, or is a link. -/
theorem IsProper.eq_of_enter (hp : IsProper name) {next : List Text}
    (he : root.enter here name = .ok (.place next)) : next = here ++ [listed name] := by
  obtain ⟨hi, hp⟩ := hp
  rw [isIdle, Bool.or_eq_true, decide_eq_true_eq, decide_eq_true_eq, not_or] at hi
  unfold enter at he
  split at he
  · rw [if_neg hi.1, if_neg hi.2, if_neg hp] at he
    split at he
    · cases he
    · split at he
      · cases he
      · split at he
        · cases he
        · cases he
        · exact (Onward.place.inj (Except.ok.inj he)).symm
  · cases he

theorem Straight.of_append {xs ys : List Text} (hs : root.Straight here (xs ++ ys)) :
    root.Straight here xs := by
  induction xs generalizing here with
  | nil => trivial
  | cons name xs ih =>
    intro onward hn
    obtain ⟨ho, hs'⟩ := hs onward hn
    exact ⟨ho, ih hs'⟩

/-- A straight way leads to the place of its names. -/
theorem LeadsTo.eq_of_straight (h : root.LeadsTo here names there)
    (hs : root.Straight here names) : there = here ++ names.map listed := by
  induction h with
  | here => simp
  | @place here names next there name he h ih =>
    obtain ⟨ho, hs'⟩ := hs _ he
    obtain rfl := Onward.place.inj ho
    simpa using ih hs'
  | link he h ih => cases (hs _ he).1

/-- On a straight way no link is followed. -/
theorem Straight.walk_ne_tooManyLinks {followLast : Bool} {links : Nat}
    (hs : root.Straight here names) :
    root.walk followLast links here names ≠ .error .tooManyLinks := by
  induction names generalizing here with
  | nil =>
    rw [walk]
    split <;> simp
  | cons name names ih =>
    rw [walk]
    cases hn : root.enter here name with
    | error err =>
      intro h
      obtain rfl := Except.error.inj h
      exact enter_ne_tooManyLinks hn
    | ok onward =>
      obtain ⟨rfl, hs'⟩ := hs onward hn
      exact ih hs'

/-- A straight way stays straight with a proper name more that is found to be no link. -/
theorem Straight.concat (hs : root.Straight here names) (hp : IsProper name)
    (hl : ∀ target, root.walk false linkLimit here (names ++ [name]) ≠ .ok (.link target)) :
    root.Straight here (names ++ [name]) := by
  induction names generalizing here with
  | nil =>
    rintro (next | target) hn
    · rw [hp.eq_of_enter hn]
      exact ⟨rfl, trivial⟩
    · exact absurd (by rw [List.nil_append, walk, hn]; rfl) (hl target)
  | cons first names ih =>
    intro onward hn
    obtain ⟨rfl, hs'⟩ := hs onward hn
    refine ⟨rfl, ih hs' fun target ht => hl target ?_⟩
    rw [List.cons_append, walk, hn]
    exact ht

/-! ## Settled paths -/

/-- The path is spelled from the root without idle names and double dots, and the system finds no
link at any start of it. -/
structure Settled (root : Entry) (work : List Text) (s : Spelled) : Prop where
  fromRoot : s.above = none
  proper : ∀ name ∈ s.names, IsProper name
  linkFree : ∀ before name, before ++ [name] <+: s.names →
    root.readLink? work ⟨none, before ++ [name]⟩ = none

theorem size_le_of_prefix {t u : Text} (h : t <+: u) : Utf8.size t ≤ Utf8.size u := by
  obtain ⟨rest, rfl⟩ := h
  induction t with
  | nil => exact Nat.zero_le _
  | cons c t ih => exact Nat.add_le_add_left ih (Utf8.width c)

theorem intercalate_prefix_concat (sep : Text) (ps : List Text) (p : Text) :
    sep.intercalate ps <+: sep.intercalate (ps ++ [p]) := by
  induction ps with
  | nil => exact List.nil_prefix
  | cons q ps ih =>
    cases ps with
    | nil => exact ⟨sep ++ p, by simp⟩
    | cons r ps =>
      rw [List.cons_append, List.cons_append, List.intercalate_cons_cons,
        List.intercalate_cons_cons]
      exact (List.prefix_append_right_inj _).2 ih

namespace Settled

theorem atRoot : root.Settled work ⟨none, []⟩ where
  fromRoot := rfl
  proper := by simp
  linkFree before name h := by simpa using List.prefix_nil.1 h

theorem of_prefix {s : Spelled} (h : root.Settled work s) (hp : names <+: s.names) :
    root.Settled work ⟨none, names⟩ where
  fromRoot := rfl
  proper name hn := h.proper name (hp.subset hn)
  linkFree before name hb := h.linkFree before name (hb.trans hp)

theorem child {s : Spelled} (h : root.Settled work s) (hp : IsProper name)
    (hl : root.readLink? work (s.child name) = none) : root.Settled work (s.child name) where
  fromRoot := h.fromRoot
  proper name' hn := by
    rcases List.mem_append.1 hn with hn | hn
    · exact h.proper name' hn
    · rw [List.mem_singleton.1 hn]
      exact hp
  linkFree before name' hb := by
    rcases List.prefix_concat_iff.1 hb with hb | hb
    · rw [hb, ← h.fromRoot]
      exact hl
    · exact h.linkFree before name' hb

theorem parent {s : Spelled} (h : root.Settled work s) : root.Settled work s.parent := by
  have hs : s.parent = ⟨none, s.names.dropLast⟩ := by
    unfold Spelled.parent
    split
    · next ha _ => cases ha.symm.trans h.fromRoot
    · rw [h.fromRoot]
  rw [hs]
  exact h.of_prefix (List.dropLast_prefix s.names)

theorem start {s : Spelled} (h : root.Settled work s) (target : Text) :
    root.Settled work (s.start target) := by
  unfold Spelled.start
  split
  · exact atRoot
  · exact h

/-- A settled path that is short enough to be looked up is a straight way. -/
theorem straight {s : Spelled} (h : root.Settled work s) (hs : Utf8.size s.text < pathLimit) :
    root.Straight [] s.names := by
  obtain ⟨above, names⟩ := s
  obtain rfl : above = none := h.fromRoot
  induction names using List.reverseRecOn with
  | nil => trivial
  | append_singleton names name ih =>
    have hle : Utf8.size (Spelled.text ⟨none, names⟩) ≤
        Utf8.size (Spelled.text ⟨none, names ++ [name]⟩) :=
      size_le_of_prefix (List.cons_prefix_cons.2 ⟨rfl, intercalate_prefix_concat _ names name⟩)
    refine (ih (h.of_prefix (List.prefix_append names [name]))
      (Nat.lt_of_le_of_lt hle hs)).concat (h.proper name (by simp)) fun target ht => ?_
    have hlink := h.linkFree names name (List.prefix_refl _)
    rw [readLink?, lstat, if_neg (Nat.not_le_of_lt hs), if_pos rfl] at hlink
    rw [Spelled.segments] at hlink
    rw [ht] at hlink
    cases hlink

end Settled

/-! ## Following -/

/-- Every link that has been followed leads to a settled path. -/
def Met.Settled (root : Entry) (work : List Text) (met : Met) : Prop :=
  ∀ e ∈ met, ∀ done, e.2 = some done → root.Settled work done

namespace Met.Settled

variable {met : Met}

theorem cons_none (h : Met.Settled root work met) (s : Spelled) :
    Met.Settled root work ((s, none) :: met) := by
  intro e he done hd
  rcases List.mem_cons.1 he with rfl | he
  · cases hd
  · exact h e he done hd

theorem cons_some (h : Met.Settled root work met) {s done : Spelled}
    (hd : root.Settled work done) : Met.Settled root work ((s, some done) :: met) := by
  intro e he done' hd'
  rcases List.mem_cons.1 he with rfl | he
  · rw [← Option.some.inj hd']
    exact hd
  · exact h e he done' hd'

theorem of_lookup (h : Met.Settled root work met) {s done : Spelled}
    (hl : met.lookup s = some (some done)) : root.Settled work done := by
  obtain ⟨before, after, rfl, -⟩ := List.lookup_eq_some_iff.1 hl
  exact h (s, some done) (by simp) done rfl

end Met.Settled

/-- A path from the root that is followed to its end leads to a settled path: every link on the way
is replaced by the settled path that it leads to, whether it is met for the first time or again. -/
theorem follow_settled {met : Met} {here : Spelled} {names : List Text}
    (hm : Met.Settled root work met) (hh : root.Settled work here) :
    ∀ more reached, root.follow work met here names = .ok (more, reached) →
      Met.Settled root work more.1 ∧ ∀ s, reached = .place s → root.Settled work s := by
  fun_induction follow root work met here names with
  | case1 met here =>
    intro more reached h
    obtain ⟨rfl, rfl⟩ := Prod.mk.inj (Except.ok.inj h)
    refine ⟨hm, fun s hs => ?_⟩
    rw [← Reached.place.inj hs]
    exact hh
  | case2 met here name names hi ih => exact ih hm hh
  | case3 met here names hi ih => exact ih hm hh.parent
  | case4 => exact fun _ _ h => nomatch h
  | case5 met here name names hi hp hu next hl hk done hd ih => exact ih hm (hm.of_lookup hd)
  | case6 met here name names hi hp hu next hl hk hd =>
    intro more reached h
    obtain ⟨rfl, rfl⟩ := Prod.mk.inj (Except.ok.inj h)
    exact ⟨hm, fun s hs => nomatch hs⟩
  | case7 => exact fun _ _ h => nomatch h
  | case8 met here name names hi hp hu next hl hk hlt target inner hinner l hf ih =>
    intro more reached h
    obtain ⟨rfl, rfl⟩ := Prod.mk.inj (Except.ok.inj h)
    exact ⟨(ih (hm.cons_none next) (hh.start target) _ _ hf).1, fun s hs => nomatch hs⟩
  | case9 => exact fun _ _ h => nomatch h
  | case10 met here name names hi hp hu next hl hk hlt target inner hinner done hf hle all hall
      reached' hr ih ihRest =>
    intro more reached h
    obtain ⟨rfl, rfl⟩ := Prod.mk.inj (Except.ok.inj h)
    -- the link leads to a settled path, from where the rest of the names goes on
    obtain ⟨hi, hp⟩ := ih (hm.cons_none next) (hh.start target) _ _ hf
    exact ihRest (hi.cons_some (hp done rfl)) (hp done rfl) _ _ hr
  | case11 met here name names hi hp hu next hl ih =>
    exact ih hm (hh.child ⟨hi, hp⟩ (Option.not_isSome_iff_eq_none.1 hl))

end Entry

end Sidebar
