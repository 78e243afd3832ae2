import Mathlib
import Sidebar.Proofs.Lookup
import Sidebar.Registry.Directory

/-!
# Sidebar.Proofs.Containment: where the files of documents really are

The file of a document is accepted by the spelling of its path, once the path is resolved; what
counts is the real location of the file.  The two agree unless the path is cut short: at a link
that is being followed already, the rest is kept, and its double dots are worked off by name alone,
so that a link behind them is not followed.

* `resolve_reads`: what a path is resolved to; a resolved path is settled, unless it is cut short.
* `DirectoryRegistry.pathFor_contained`: the file of a document lies inside the root exactly when
  its path is not cut short or what is left of the path leads inside.
* `DirectoryRegistry.loop_leaves_root`: a path that is cut short and leads outside.

Mathlib is imported whole here, and by the modules that build on this one: their examples are
evaluated by `cbv`, with equations about lists, texts and bytes from all over the library.
-/

namespace Sidebar

namespace Entry

/-! ## Resolved paths -/

/-- What is left of a path from the root that is cut short at a link that is being followed
already. -/
def cutShort? (root : Entry) (names : List Text) : Option Location :=
  match root.follow [] [] ⟨none, []⟩ names with
  | .ok (_, .stuck l) => some l
  | _ => none

/-- The names lead from the root to the place or below it. -/
def LeadsInside (root : Entry) (names place : List Text) : Prop :=
  ∃ there, root.LeadsTo [] names there ∧ place <+: there

variable {root : Entry}

theorem walk_of_stat {l : Location} {e : Entry} (h : root.stat l = .ok e) :
    Utf8.size l.render < pathLimit ∧ root.walk true linkLimit [] l.names = .ok e := by
  unfold stat at h
  split at h
  · cases h
  · next hs => exact ⟨Nat.lt_of_not_le hs, h⟩

/-- A settled location is in no loop of links. -/
theorem stat_ne_tooManyLinks {l : Location} (hd : l.doubleSlash = false)
    (hs : root.Settled [] ⟨none, l.names⟩) : root.stat l ≠ .error .tooManyLinks := by
  unfold stat
  split
  · simp
  · next hsize =>
    rw [Location.render, hd] at hsize
    exact (hs.straight (Nat.lt_of_not_le hsize)).walk_ne_tooManyLinks

/-- Following a path finds no loop; that takes a look-up. -/
theorem follow_ne_linkLoop {work : List Text} {met : Met} {here : Spelled} {names : List Text}
    {loop : LinkLoop} : root.follow work met here names ≠ .error (.linkLoop loop) := by
  fun_induction follow root work met here names with
  | case1 | case4 | case6 | case8 | case10 => simp
  | case2 met here name names hi ih => exact ih
  | case3 met here names hi ih => exact ih
  | case5 met here name names hi hp hu next hl hk done hd ih => exact ih
  | case7 => next hf ih => exact fun he => ih (Except.error.inj he ▸ hf)
  | case9 => next hf ihTarget ih => exact fun he => ih (Except.error.inj he ▸ hf)
  | case11 met here name names hi hp hu next hl ih => exact ih

/-- What a path from the root is resolved to. -/
inductive ResolveReading (root : Entry) (names : List Text) :
    Except ResolveError Location → Prop
  | unencodable (hu : ∀ rest, root.cutShort? names = some rest →
        rest.normalize.names.any isUnencodable = true) :
      ResolveReading root names (.error .unencodable)
  | whole {l : Location} (hc : root.cutShort? names = none) (hd : l.doubleSlash = false)
      (hs : root.Settled [] ⟨none, l.names⟩) : ResolveReading root names (.ok l)
  | rest {rest : Location} (hc : root.cutShort? names = some rest)
      (ht : root.stat rest.normalize ≠ .error .tooManyLinks) :
      ResolveReading root names (.ok rest.normalize)
  | loop {rest : Location} (hc : root.cutShort? names = some rest)
      (hu : rest.normalize.names.any isUnencodable = false)
      (ht : root.stat rest.normalize = .error .tooManyLinks) :
      ResolveReading root names (.error (.linkLoop ⟨rest.normalize.render⟩))

/-- A path is resolved to a settled one, unless it is cut short; only then it can be refused as a
loop. -/
theorem resolve_reads {path : Path} (ha : path.absolute = true) :
    root.ResolveReading path.names (root.resolve [] path) := by
  unfold resolve
  rw [if_pos ha]
  dsimp only
  cases hf : root.follow [] [] ⟨none, []⟩ path.names with
  | error e =>
    have hc : root.cutShort? path.names = none := by simp [cutShort?, hf]
    cases e with
    | linkLoop loop => exact absurd hf follow_ne_linkLoop
    | unencodable => exact .unencodable fun rest hrest => by rw [hc] at hrest; cases hrest
  | ok result =>
    obtain ⟨more, reached⟩ := result
    cases reached with
    | place s =>
      have hc : root.cutShort? path.names = none := by simp [cutShort?, hf]
      have hm : Met.Settled root [] [] := fun e he => absurd he List.not_mem_nil
      have hs : root.Settled [] s := (follow_settled hm .atRoot _ _ hf).2 s rfl
      have hl : s.location [] = ⟨false, s.names⟩ := by rw [Spelled.location, hs.fromRoot]
      have hset : root.Settled [] ⟨none, (s.location []).names⟩ := by
        rw [hl]
        exact hs.of_prefix (List.prefix_refl _)
      have hd : (s.location []).doubleSlash = false := by rw [hl]
      dsimp only
      split
      · exact .unencodable fun rest hrest => by rw [hc] at hrest; cases hrest
      · split
        · next ht => exact absurd ht (stat_ne_tooManyLinks hd hset)
        · exact .whole hc hd hset
    | stuck l =>
      have hc : root.cutShort? path.names = some l := by simp [cutShort?, hf]
      dsimp only
      split
      · next hu =>
        refine .unencodable fun rest hrest => ?_
        rw [hc] at hrest
        rw [← Option.some.inj hrest]
        exact hu
      · next hu =>
        split
        · next ht => exact .loop hc (by simpa using hu) ht
        · next ht => exact .rest hc ht

/-- A resolved path is settled, or what is left of it when it is cut short. -/
theorem resolve_eq_ok {path : Path} {l : Location} (ha : path.absolute = true)
    (h : root.resolve [] path = .ok l) :
    (∃ rest, root.cutShort? path.names = some rest ∧ l = rest.normalize) ∨
      root.cutShort? path.names = none ∧ l.doubleSlash = false ∧
        root.Settled [] ⟨none, l.names⟩ := by
  have hr : root.ResolveReading path.names _ := resolve_reads ha
  rw [h] at hr
  cases hr with
  | whole hc hd hs => exact .inr ⟨hc, hd, hs⟩
  | rest hc ht => exact .inl ⟨_, hc, rfl⟩

/-- A settled location that is looked up and every location above it lead to the places of their
names. -/
theorem real_eq_of_settled {l : Location} {above below mid place : List Text}
    (hn : above ++ below = l.names) (hd : l.doubleSlash = false)
    (hs : root.Settled [] ⟨none, l.names⟩) (hsize : Utf8.size l.render < pathLimit)
    (ha : root.LeadsTo [] above mid) (hl : root.LeadsTo [] l.names place) :
    mid = above.map listed ∧ place = l.names.map listed := by
  have hstraight : root.Straight [] l.names := hs.straight (by
    rw [Location.render, hd] at hsize
    exact hsize)
  rw [← hn] at hstraight
  refine ⟨ha.eq_of_straight hstraight.of_append, ?_⟩
  rw [← hn] at hl ⊢
  exact hl.eq_of_straight hstraight

end Entry

namespace DirectoryRegistry

variable (r : DirectoryRegistry) {id extension : Text} {p : Location}

/-! ## The file of a document -/

/-- The path of a document before it is resolved. -/
def documentPath (id extension : Text) : Path :=
  .join ⟨true, r.root.names⟩ (.parse (id ++ extension))

theorem documentPath_absolute : (r.documentPath id extension).absolute = true := by
  unfold documentPath Path.join
  split
  · assumption
  · rfl

variable {r}

theorem candidate_eq_found (h : r.candidate id extension = .ok (.found p)) :
    r.files.resolve [] (r.documentPath id extension) = .ok p ∧ p.isWithin r.root = true ∧
      r.files.stat p = .ok .file := by
  unfold candidate at h
  split at h
  · cases h
  · cases h
  · next l hl =>
    split at h
    · next hw =>
      split at h
      · next hs =>
        obtain rfl := Candidate.found.inj (Except.ok.inj h)
        exact ⟨hl, hw, hs⟩
      · cases h
      · cases h
      · cases h
    · cases h

theorem firstFile_eq_some {extensions : List Text}
    (h : r.firstFile id extensions = .ok (some p)) :
    ∃ extension ∈ extensions, r.candidate id extension = .ok (.found p) := by
  induction extensions with
  | nil => cases h
  | cons extension extensions ih =>
    rw [firstFile] at h
    split at h
    · cases h
    · next l hl =>
      obtain rfl := Option.some.inj (Except.ok.inj h)
      exact ⟨extension, List.mem_cons_self, hl⟩
    · cases h
    · obtain ⟨extension', he, hc⟩ := ih h
      exact ⟨extension', List.mem_cons_of_mem _ he, hc⟩

/-- **Containment.**  What is reported for an id is a file, and the root has a real location; the
path of the file is spelled as one below the root.  When the path of the document is not cut short,
the root and the file are where their paths say.  In general the real location of the file lies
inside that of the root exactly when what is left of a path that is cut short still leads inside. -/
theorem pathFor_contained (hp : r.pathFor id = .ok (some p)) :
    ∃ extension ∈ r.extensions, ∃ rootPlace place : List Text,
      r.candidate id extension = .ok (.found p) ∧ r.root.names <+: p.names ∧
      r.files.LeadsTo [] r.root.names rootPlace ∧ r.files.LeadsTo [] p.names place ∧
      r.files.at? place = some .file ∧
      (r.files.cutShort? (r.documentPath id extension).names = none →
        rootPlace = r.root.names.map listed ∧ place = p.names.map listed) ∧
      (∀ rest, r.files.cutShort? (r.documentPath id extension).names = some rest →
        p = rest.normalize) ∧
      (rootPlace <+: place ↔
        ∀ rest, r.files.cutShort? (r.documentPath id extension).names = some rest →
          r.files.LeadsInside rest.normalize.names rootPlace) := by
  obtain ⟨extension, he, hc⟩ := firstFile_eq_some hp
  obtain ⟨hr, hw, hs⟩ := candidate_eq_found hc
  have hprefix : r.root.names <+: p.names :=
    List.isPrefixOf_iff_prefix.1 (Bool.and_eq_true _ _ ▸ hw).2
  obtain ⟨below, hb⟩ := hprefix
  obtain ⟨hsize, hwalk⟩ := Entry.walk_of_stat hs
  obtain ⟨place, hl, hf⟩ := Entry.leadsTo_of_walk hwalk
  obtain ⟨rootPlace, hroot, -⟩ := Entry.leadsTo_append (hb ▸ hl)
  -- either the path is followed to its end, and the root is the start of a settled location,
  -- or what is left of it is looked up once more
  have hwhole : r.files.cutShort? (r.documentPath id extension).names = none →
      rootPlace = r.root.names.map listed ∧ place = p.names.map listed := by
    intro hn
    rcases Entry.resolve_eq_ok r.documentPath_absolute hr with ⟨rest, hrest, -⟩ | ⟨-, hd, hset⟩
    · rw [hn] at hrest
      cases hrest
    · exact Entry.real_eq_of_settled hb hd hset hsize hroot hl
  have hcut : ∀ rest, r.files.cutShort? (r.documentPath id extension).names = some rest →
      p = rest.normalize := by
    intro rest hrest
    rcases Entry.resolve_eq_ok r.documentPath_absolute hr with ⟨rest', hrest', hp'⟩ | ⟨hn, -⟩
    · rw [hrest] at hrest'
      rw [hp', Option.some.inj hrest']
    · rw [hrest] at hn
      cases hn
  refine ⟨extension, he, rootPlace, place, hc, ⟨below, hb⟩, hroot, hl, hf, hwhole, hcut, ?_, ?_⟩
  · intro hi rest hrest
    rw [← hcut rest hrest]
    exact ⟨place, hl, hi⟩
  · intro h
    cases hn : r.files.cutShort? (r.documentPath id extension).names with
    | none =>
      obtain ⟨h1, h2⟩ := hwhole hn
      rw [h1, h2]
      exact (hb ▸ List.prefix_append r.root.names below).map listed
    | some rest =>
      obtain ⟨there, ht, hi⟩ := h rest hn
      rw [← hcut rest hn] at ht
      rw [hl.unique ht]
      exact hi

/-! ## A link that leads back to itself -/

/-- A content root with a link to a file, a link to itself and a link out of the root. -/
def loopFiles : Entry :=
  .directory true [("docs", .directory true [("guide.md", .link "real.md"), ("loop", .link "loop"),
    ("real.md", .file), ("x.md", .link "/secret.md")]), ("secret.md", .file)]

/-- The registry of that root. -/
def loopRegistry : DirectoryRegistry := ⟨loopFiles, ⟨false, ["docs"]⟩, [".md"]⟩

/-- A link inside the root is followed. -/
theorem guide_contained :
    loopRegistry.pathFor "guide" = .ok (some ⟨false, ["docs", "real.md"]⟩) ∧
      ∃ rootPlace place : List Text, loopFiles.LeadsTo [] ["docs"] rootPlace ∧
        loopFiles.LeadsTo [] ["docs", "real.md"] place ∧ rootPlace <+: place := by
  have hp : loopRegistry.pathFor "guide" = .ok (some ⟨false, ["docs", "real.md"]⟩) := by cbv
  obtain ⟨extension, he, rootPlace, place, -, -, hroot, hl, -, -, -, hin⟩ := pathFor_contained hp
  obtain rfl := List.mem_singleton.1 he
  have hn : loopFiles.cutShort? (loopRegistry.documentPath "guide" ".md").names = none := by cbv
  refine ⟨hp, rootPlace, place, hroot, hl, hin.2 fun rest hrest => ?_⟩
  rw [show loopRegistry.files = loopFiles from rfl, hn] at hrest
  cases hrest

/-- Behind the link to itself, the double dots only take its name away again, and the link out of
the root is reported as a file inside. -/
theorem loop_leaves_root :
    DirectoryRegistry.open? loopFiles [] ⟨false, ["docs"]⟩ [".md"] = .ok loopRegistry ∧
      loopRegistry.pathFor "loop/../x" = .ok (some ⟨false, ["docs", "x.md"]⟩) ∧
      loopFiles.LeadsTo [] ["docs"] ["docs"] ∧
      loopFiles.LeadsTo [] ["docs", "x.md"] ["secret.md"] ∧
      ¬ (["docs"] : List Text) <+: ["secret.md"] := by
  have hdocs : ∀ {names there : List Text}, loopFiles.LeadsTo ["docs"] names there →
      loopFiles.LeadsTo [] ("docs" :: names) there :=
    fun h => .place (show loopFiles.enter [] "docs" = .ok (.place ["docs"]) by cbv) h
  have hlink : loopFiles.enter ["docs"] "x.md" = .ok (.link "/secret.md") := by cbv
  refine ⟨by cbv, by cbv, hdocs .here, hdocs (.link hlink ?_), by decide⟩
  exact .place (show loopFiles.enter [] [] = .ok (.place []) by cbv)
    (.place (show loopFiles.enter [] "secret.md" = .ok (.place ["secret.md"]) by cbv) .here)

end DirectoryRegistry

end Sidebar
