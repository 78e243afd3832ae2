import Sidebar.Proofs.Containment

/-!
# Sidebar.Proofs.LinkLoops: paths that are followed without end

`Entry.arriveIn?` works a path off name by name, a link by the names of its target, as long as it
takes; what the system finds to be no link is kept.  Resolving a path is the same, except that it
stops at a link that is being followed already, and that a path which is cut short so may be refused
as a loop.

* `follow_of_arrives`: a path that can be worked off is not cut short; the invariant is that no
  link which is being followed leads anywhere in as many steps as are left.
* `endless_of_cutShort`: a path that is cut short can never be worked off.
* `resolve_eq_linkLoop_iff`: which paths are refused as loops.
-/

namespace Sidebar

namespace Entry

/-! ## Working a path off -/

/-- Where a name leads from `here`, and the names that are left in its place: those of the target
when it is a link. -/
def onward (root : Entry) (work : List Text) (here : Spelled) (name : Text) :
    Spelled × List Text :=
  if isIdle name then (here, [])
  else if name = parentName then (here.parent, [])
  else
    match root.readLink? work (here.child name) with
    | none => (here.child name, [])
    | some target => (here.start target, segments target)

/-- The path that names lead to from `here`, if they are worked off in `n` steps. -/
def arriveIn? (root : Entry) (work : List Text) : Nat → Spelled → List Text → Option Spelled
  | _, here, [] => some here
  | 0, _, _ :: _ => none
  | n + 1, here, name :: names =>
    arriveIn? root work n (root.onward work here name).1 ((root.onward work here name).2 ++ names)

/-- The names can never be worked off from the root: there is always a link to follow. -/
def Endless (root : Entry) (names : List Text) : Prop :=
  ∀ n, root.arriveIn? [] n ⟨none, []⟩ names = none

variable {root : Entry} {work names : List Text} {here mid there : Spelled} {name target : Text}
  {n : Nat}

@[simp] theorem arriveIn?_nil : root.arriveIn? work n here [] = some here := by
  cases n <;> rfl

theorem onward_idle (hi : isIdle name = true) : root.onward work here name = (here, []) := by
  rw [onward, if_pos hi]

theorem onward_parent (hi : ¬ isIdle name = true) (hp : name = parentName) :
    root.onward work here name = (here.parent, []) := by
  rw [onward, if_neg hi, if_pos hp]

theorem onward_child (hp : IsProper name) (hl : root.readLink? work (here.child name) = none) :
    root.onward work here name = (here.child name, []) := by
  rw [onward, if_neg hp.1, if_neg hp.2, hl]

theorem onward_link (hp : IsProper name)
    (hl : root.readLink? work (here.child name) = some target) :
    root.onward work here name = (here.start target, segments target) := by
  rw [onward, if_neg hp.1, if_neg hp.2, hl]

/-- One more step does not change where the names lead. -/
theorem arriveIn?_succ (ha : root.arriveIn? work n here names = some there) :
    root.arriveIn? work (n + 1) here names = some there := by
  induction n generalizing here names with
  | zero =>
    cases names with
    | nil => exact ha
    | cons name names => cases ha
  | succ n ih =>
    cases names with
    | nil => exact ha
    | cons name names => exact ih ha

theorem arriveIn?_mono {m : Nat} (hn : n ≤ m)
    (ha : root.arriveIn? work n here names = some there) :
    root.arriveIn? work m here names = some there := by
  induction hn with
  | refl => exact ha
  | step _ ih => exact arriveIn?_succ ih

theorem arriveIn?_unique {m : Nat} {there' : Spelled}
    (hn : root.arriveIn? work n here names = some there)
    (hm : root.arriveIn? work m here names = some there') : there = there' := by
  have h1 := arriveIn?_mono (Nat.le_max_left n m) hn
  have h2 := arriveIn?_mono (Nat.le_max_right n m) hm
  exact Option.some.inj (h1.symm.trans h2)

/-- The first names are worked off before the others, neither part in more steps than both. -/
theorem arriveIn?_append (xs ys : List Text)
    (ha : root.arriveIn? work n here (xs ++ ys) = some there) :
    ∃ mid, root.arriveIn? work n here xs = some mid ∧
      root.arriveIn? work n mid ys = some there := by
  induction n generalizing here xs with
  | zero =>
    cases xs with
    | nil => exact ⟨here, rfl, ha⟩
    | cons name xs => cases ha
  | succ n ih =>
    cases xs with
    | nil => exact ⟨here, rfl, ha⟩
    | cons name xs =>
      rw [List.cons_append, arriveIn?, ← List.append_assoc] at ha
      obtain ⟨mid, hx, hy⟩ := ih _ ha
      exact ⟨mid, hx, arriveIn?_succ hy⟩

/-- Among the numbers of steps, there is a last one that is too small. -/
theorem exists_last_step (ha : root.arriveIn? work n here [name] = some there) :
    ∃ k < n, root.arriveIn? work k here [name] = none ∧
      root.arriveIn? work (k + 1) here [name] = some there := by
  induction n with
  | zero => cases ha
  | succ n ih =>
    cases hn : root.arriveIn? work n here [name] with
    | none => exact ⟨n, Nat.lt_succ_self n, hn, ha⟩
    | some there' =>
      obtain rfl := arriveIn?_unique hn ha
      obtain ⟨k, hk, h⟩ := ih hn
      exact ⟨k, Nat.lt_succ_of_lt hk, h⟩

/-- Behind a name that is no link, the other names are worked off. -/
theorem arriveIn?_of_onward (ho : root.onward work here name = (mid, []))
    (ha : root.arriveIn? work n here (name :: names) = some there) :
    root.arriveIn? work n mid names = some there := by
  cases n with
  | zero => cases ha
  | succ n =>
    rw [arriveIn?, ho] at ha
    exact arriveIn?_succ ha

/-- A link leads to where its target leads, in a number of steps that is too small for itself. -/
theorem exists_of_link (hp : IsProper name)
    (hl : root.readLink? work (here.child name) = some target)
    (ha : root.arriveIn? work n here (name :: names) = some there) :
    ∃ mid, root.arriveIn? work n here [name] = some mid ∧
      root.arriveIn? work n mid names = some there ∧
      ∃ k ≤ n, root.arriveIn? work k here [name] = none ∧
        root.arriveIn? work k (here.start target) (segments target) = some mid := by
  obtain ⟨mid, hmid, hrest⟩ := arriveIn?_append [name] names ha
  obtain ⟨k, hkn, hnone, hsome⟩ := exists_last_step hmid
  rw [arriveIn?, onward_link hp hl, List.append_nil] at hsome
  exact ⟨mid, hmid, hrest, k, Nat.le_of_lt hkn, hnone, hsome⟩

/-! ## Following against working off -/

section Following

variable {met : Met}

/-- Every link that has been followed was followed to the path that it leads to. -/
def Met.Faithful (root : Entry) (work : List Text) (met : Met) : Prop :=
  ∀ here name done, met.lookup (Spelled.child here name) = some (some done) →
    ∀ n there, root.arriveIn? work n here [name] = some there → there = done

/-- No link that is being followed leads anywhere in `n` steps. -/
def Met.Pending (root : Entry) (work : List Text) (n : Nat) (met : Met) : Prop :=
  ∀ here name, met.lookup (Spelled.child here name) = some none →
    root.arriveIn? work n here [name] = none

theorem child_inj {s s' : Spelled} {name' : Text} (h : s.child name = s'.child name') :
    s = s' ∧ name = name' := by
  obtain ⟨above, names⟩ := s
  obtain ⟨above', names'⟩ := s'
  obtain ⟨rfl, hnames⟩ := Spelled.mk.inj h
  obtain ⟨rfl, hname⟩ := List.append_inj' hnames rfl
  exact ⟨rfl, (List.cons.inj hname).1⟩

theorem lookup_cons_self (s : Spelled) (e : Option Spelled) :
    List.lookup s ((s, e) :: met) = some e := by
  rw [List.lookup_cons, beq_self_eq_true]

theorem lookup_cons_of_ne {s s' : Spelled} (hne : s' ≠ s) (e : Option Spelled) :
    List.lookup s' ((s, e) :: met) = met.lookup s' := by
  rw [List.lookup_cons, beq_eq_false_iff_ne.2 hne]

/-- A link that has been met, but not followed to a path, is being followed. -/
theorem lookup_eq_some_none {s : Spelled} (hk : s ∈ Keyed.keys met)
    (hd : ∀ done, met.lookup s = some (some done) → False) : met.lookup s = some none := by
  cases hm : met.lookup s with
  | none =>
    obtain ⟨e, he, rfl⟩ := List.mem_map.1 hk
    simpa using List.lookup_eq_none_iff.1 hm e he
  | some e =>
    cases e with
    | none => rfl
    | some done => exact absurd hm (hd done)

theorem Met.Pending.mono {k : Nat} (hp : Met.Pending root work n met) (hk : k ≤ n) :
    Met.Pending root work k met := by
  intro here name hm
  by_contra ha
  obtain ⟨there, ha⟩ := Option.ne_none_iff_exists'.1 ha
  have hn := arriveIn?_mono hk ha
  rw [hp here name hm] at hn
  cases hn

/-- A link that is entered becomes pending, for the steps that its target leaves too few. -/
theorem Met.Pending.enter {s : Spelled} (hp : Met.Pending root work n met)
    (ha : root.arriveIn? work n s [name] = none) :
    Met.Pending root work n ((s.child name, none) :: met) := by
  intro here name' hm
  by_cases he : here.child name' = s.child name
  · obtain ⟨rfl, rfl⟩ := child_inj he
    exact ha
  · rw [lookup_cons_of_ne he] at hm
    exact hp here name' hm

theorem Met.Faithful.enter {s : Spelled} (hf : Met.Faithful root work met) :
    Met.Faithful root work ((s, none) :: met) := by
  intro here name done hm
  by_cases he : here.child name = s
  · rw [he, lookup_cons_self] at hm
    cases hm
  · rw [lookup_cons_of_ne he] at hm
    exact hf here name done hm

/-- A link that has been followed to the path that it leads to is kept with it. -/
theorem Met.Faithful.leave {s done : Spelled} (hf : Met.Faithful root work met)
    (ha : root.arriveIn? work n s [name] = some done) :
    Met.Faithful root work ((s.child name, some done) :: met) := by
  intro here name' done' hm m there hm'
  by_cases he : here.child name' = s.child name
  · obtain ⟨rfl, rfl⟩ := child_inj he
    rw [lookup_cons_self] at hm
    rw [← Option.some.inj (Option.some.inj hm)]
    exact arriveIn?_unique hm' ha
  · rw [lookup_cons_of_ne he] at hm
    exact hf here name' done' hm m there hm'

/-- Behind a link that has been followed, what is pending is what was pending before it. -/
theorem lookup_of_leave {inner : Met} {s done : Spelled}
    (hinner : ∀ s', inner.lookup s' = some none →
      List.lookup s' ((s, none) :: met) = some none) {s' : Spelled}
    (hs : List.lookup s' ((s, some done) :: inner) = some none) : met.lookup s' = some none := by
  by_cases he : s' = s
  · rw [he, lookup_cons_self] at hs
    cases hs
  · rw [lookup_cons_of_ne he] at hs
    have hs := hinner s' hs
    rwa [lookup_cons_of_ne he] at hs

/-- **A path that can be worked off is followed to the same path**, and not cut short: when a link
is met while it is being followed, it leads somewhere in fewer steps than it needs. -/
theorem follow_of_arrives (hf : Met.Faithful root work met) :
    ∀ n there, Met.Pending root work n met → root.arriveIn? work n here names = some there →
      ∀ more reached, root.follow work met here names = .ok (more, reached) →
        reached = .place there ∧ Met.Faithful root work more.1 ∧
          ∀ s, more.1.lookup s = some none → met.lookup s = some none := by
  fun_induction follow root work met here names with
  | case1 met here =>
    intro n there hp ha more reached h
    obtain ⟨rfl, rfl⟩ := Prod.mk.inj (Except.ok.inj h)
    rw [arriveIn?_nil] at ha
    exact ⟨congrArg Reached.place (Option.some.inj ha), hf, fun s hs => hs⟩
  | case2 met here name names hi ih =>
    exact fun n there hp ha => ih hf n there hp (arriveIn?_of_onward (onward_idle hi) ha)
  | case3 met here names hi ih =>
    exact fun n there hp ha => ih hf n there hp (arriveIn?_of_onward (onward_parent hi rfl) ha)
  | case4 =>
    intro n there hp ha more reached h
    cases h
  | case5 met here name names hi hn hu next hl hk done hd ih =>
    -- the link has been followed before
    intro n there hp ha
    obtain ⟨mid, hmid, hrest⟩ := arriveIn?_append [name] names ha
    obtain rfl := hf here name done hd n mid hmid
    exact ih hf n there hp hrest
  | case6 met here name names hi hn hu next hl hk hd =>
    -- the link is being followed, and so leads nowhere in these steps
    intro n there hp ha
    obtain ⟨mid, hmid, -⟩ := arriveIn?_append [name] names ha
    rw [hp here name (lookup_eq_some_none hk hd)] at hmid
    cases hmid
  | case7 =>
    intro n there hp ha more reached h
    cases h
  | case8 met here name names hi hn hu next hl hk hlt target inner hinner l hfollow ih =>
    -- the target is not cut short
    intro n there hp ha
    obtain ⟨mid, -, -, k, hkn, hnone, htarget⟩ :=
      exists_of_link ⟨hi, hn⟩ (Option.some_get hl).symm ha
    cases (ih hf.enter k mid ((hp.mono hkn).enter hnone) htarget _ _ hfollow).1
  | case9 =>
    intro n there hp ha more reached h
    cases h
  | case10 met here name names hi hn hu next hl hk hlt target inner hinner done hfollow hle all hall
      reached' hr ih ihRest =>
    -- the target is followed to its end, and then the rest of the path
    intro n there hp ha more reached h
    obtain ⟨rfl, rfl⟩ := Prod.mk.inj (Except.ok.inj h)
    obtain ⟨mid, hmid, hrest, k, hkn, hnone, htarget⟩ :=
      exists_of_link ⟨hi, hn⟩ (Option.some_get hl).symm ha
    obtain ⟨hplace, hinnerFaithful, hinnerMet⟩ :=
      ih hf.enter k mid ((hp.mono hkn).enter hnone) htarget _ _ hfollow
    obtain rfl := Reached.place.inj hplace
    have hpending : Met.Pending root work n ((next, some done) :: inner) :=
      fun here name hs => hp here name (lookup_of_leave hinnerMet hs)
    obtain ⟨hreached, hfaithful, hlast⟩ :=
      ihRest (hinnerFaithful.leave hmid) n there hpending hrest _ _ hr
    exact ⟨hreached, hfaithful, fun s hs => lookup_of_leave hinnerMet (hlast s hs)⟩
  | case11 met here name names hi hn hu next hl ih =>
    have hno : root.readLink? work (here.child name) = none := Option.not_isSome_iff_eq_none.1 hl
    exact fun n there hp ha =>
      ih hf n there hp (arriveIn?_of_onward (onward_child ⟨hi, hn⟩ hno) ha)

end Following

/-- **A path that is cut short can never be worked off.** -/
theorem endless_of_cutShort {rest : Location} (hc : root.cutShort? names = some rest) :
    root.Endless names := by
  intro n
  by_contra ha
  obtain ⟨there, ha⟩ := Option.ne_none_iff_exists'.1 ha
  have hf : Met.Faithful root [] [] := fun _ _ _ h => nomatch h
  have hp : Met.Pending root [] n [] := fun _ _ h => nomatch h
  unfold cutShort? at hc
  split at hc
  · next more l hfollow =>
    cases (follow_of_arrives hf n there hp ha _ _ hfollow).1
  · cases hc

/-! ## Loops -/

/-- **A path is refused as a loop exactly when it is cut short** and what is left of it, with its
double dots worked off, takes more links to look up than are followed. -/
theorem resolve_eq_linkLoop_iff {path : Path} {loop : LinkLoop} (ha : path.absolute = true) :
    root.resolve [] path = .error (.linkLoop loop) ↔
      ∃ rest, root.cutShort? path.names = some rest ∧
        rest.normalize.names.any isUnencodable = false ∧
        root.stat rest.normalize = .error .tooManyLinks ∧ loop = ⟨rest.normalize.render⟩ := by
  have hr : root.ResolveReading path.names _ := resolve_reads ha
  generalize root.resolve [] path = found at hr ⊢
  cases hr with
  | unencodable hu =>
    refine iff_of_false (by simp) ?_
    rintro ⟨rest, hc, hu', -⟩
    rw [hu rest hc] at hu'
    cases hu'
  | whole hc hd hs => simp [hc]
  | rest hc ht =>
    refine iff_of_false (by simp) ?_
    rintro ⟨rest', hc', -, ht', -⟩
    obtain rfl := Option.some.inj (hc.symm.trans hc')
    exact ht ht'
  | @loop rest hc hu ht =>
    constructor
    · intro he
      exact ⟨rest, hc, hu, ht, (ResolveError.linkLoop.inj (Except.error.inj he)).symm⟩
    · rintro ⟨rest', hc', -, -, rfl⟩
      rw [Option.some.inj (hc.symm.trans hc')]

end Entry

end Sidebar
