import Sidebar.Proofs.LinkLoops

/-!
# Sidebar.Proofs.Extensions: which extension decides about a document

Each extension either decides whether there is a document, or leaves it to the next one.  There is
one when the path with this extension resolves to a file inside the root; but a path that leads out
of the root, that the system cannot express or that it refuses to look up decides that there is
none, whatever stands behind it in the list.

* `firstFile_eq`: the first extension that decides.
* `document_by_extension`: when a document exists, and that this is what the extensions say one by
  one exactly when the search is not cut off before the first of them that has a file.
* `outside_link_hides_file`: a link out of the root that hides a file with a later extension.
-/

namespace Sidebar

namespace DirectoryRegistry

variable (r : DirectoryRegistry) (id extension : Text)

/-! ## What one extension says -/

/-- With this extension the path resolves to a file inside the root. -/
def Finds (p : Location) : Prop :=
  r.files.resolve [] (r.documentPath id extension) = .ok p ∧ p.isWithin r.root = true ∧
    r.files.stat p = .ok .file

/-- With this extension the path resolves inside the root, but to no file. -/
def Lacks : Prop :=
  ∃ l, r.files.resolve [] (r.documentPath id extension) = .ok l ∧ l.isWithin r.root = true ∧
    r.files.stat l ≠ .ok .file ∧ r.files.stat l ≠ .error .nameTooLong ∧
      r.files.stat l ≠ .error .notPermitted

/-- With this extension the path cannot be expressed, leads out of the root, is too long or goes
through a directory that may not be searched. -/
def Refuses : Prop :=
  r.files.resolve [] (r.documentPath id extension) = .error .unencodable ∨
    ∃ l, r.files.resolve [] (r.documentPath id extension) = .ok l ∧
      (l.isWithin r.root = false ∨ r.files.stat l = .error .nameTooLong ∨
        r.files.stat l = .error .notPermitted)

/-- With this extension the path is refused as a loop of links. -/
def Loops (loop : LinkLoop) : Prop :=
  r.files.resolve [] (r.documentPath id extension) = .error (.linkLoop loop)

/-- What is decided with this extension: a file, none, or a failure; or nothing. -/
def decision? : Option (Except LinkLoop (Option Location)) :=
  match r.candidate id extension with
  | .ok (.found p) => some (.ok (some p))
  | .ok .absent => none
  | .ok .refused => some (.ok none)
  | .error loop => some (.error loop)

variable {r id extension}

theorem candidate_eq_found_iff {p : Location} :
    r.candidate id extension = .ok (.found p) ↔ r.Finds id extension p := by
  unfold candidate Finds documentPath
  generalize r.files.resolve [] _ = resolved
  rcases resolved with (_ | loop) | l <;> grind

theorem candidate_eq_absent_iff :
    r.candidate id extension = .ok .absent ↔ r.Lacks id extension := by
  unfold candidate Lacks documentPath
  generalize r.files.resolve [] _ = resolved
  rcases resolved with (_ | loop) | l <;> grind

theorem candidate_eq_refused_iff :
    r.candidate id extension = .ok .refused ↔ r.Refuses id extension := by
  unfold candidate Refuses documentPath
  generalize r.files.resolve [] _ = resolved
  rcases resolved with (_ | loop) | l <;> grind

theorem candidate_eq_error_iff {loop : LinkLoop} :
    r.candidate id extension = .error loop ↔ r.Loops id extension loop := by
  unfold candidate Loops documentPath
  generalize r.files.resolve [] _ = resolved
  rcases resolved with (_ | loop) | l <;> grind

theorem decision?_eq_none_iff : r.decision? id extension = none ↔ r.Lacks id extension := by
  rw [← candidate_eq_absent_iff, decision?]
  split <;> simp_all

theorem decision?_eq_found_iff {p : Location} :
    r.decision? id extension = some (.ok (some p)) ↔ r.Finds id extension p := by
  rw [← candidate_eq_found_iff, decision?]
  split <;> simp_all

theorem decision?_eq_refused_iff :
    r.decision? id extension = some (.ok none) ↔ r.Refuses id extension := by
  rw [← candidate_eq_refused_iff, decision?]
  split <;> simp_all

theorem decision?_eq_error_iff {loop : LinkLoop} :
    r.decision? id extension = some (.error loop) ↔ r.Loops id extension loop := by
  rw [← candidate_eq_error_iff, decision?]
  split <;> simp_all

theorem Finds.not_lacks {p : Location} (h : r.Finds id extension p) : ¬ r.Lacks id extension := by
  intro hn
  rw [← decision?_eq_found_iff] at h
  rw [← decision?_eq_none_iff, h] at hn
  cases hn

/-! ## The first extension that decides -/

/-- The extensions before this one in a list all leave it to the next. -/
def ReachedIn (r : DirectoryRegistry) (id extension : Text) (extensions : List Text) : Prop :=
  ∃ before behind, extensions = before ++ extension :: behind ∧ ∀ e ∈ before, r.Lacks id e

/-- **The first extension that decides** is the one that counts. -/
theorem firstFile_eq (r : DirectoryRegistry) (id : Text) (extensions : List Text) :
    r.firstFile id extensions = (extensions.findSome? (r.decision? id)).getD (.ok none) := by
  induction extensions with
  | nil => rfl
  | cons extension extensions ih =>
    rw [firstFile, List.findSome?_cons, decision?]
    cases r.candidate id extension with
    | error loop => rfl
    | ok found =>
      cases found with
      | absent => exact ih
      | _ => rfl

theorem findSome?_decision?_eq_some_iff {extensions : List Text}
    {decided : Except LinkLoop (Option Location)} :
    extensions.findSome? (r.decision? id) = some decided ↔
      ∃ extension, r.ReachedIn id extension extensions ∧
        r.decision? id extension = some decided := by
  rw [List.findSome?_eq_some_iff]
  constructor
  · rintro ⟨before, extension, behind, rfl, hd, hb⟩
    exact ⟨extension, ⟨before, behind, rfl, fun e he => decision?_eq_none_iff.1 (hb e he)⟩, hd⟩
  · rintro ⟨extension, ⟨before, behind, rfl, hb⟩, hd⟩
    exact ⟨before, extension, behind, rfl, hd, fun e he => decision?_eq_none_iff.2 (hb e he)⟩

theorem firstFile_eq_some_iff {extensions : List Text} {p : Location} :
    r.firstFile id extensions = .ok (some p) ↔
      ∃ extension, r.ReachedIn id extension extensions ∧ r.Finds id extension p := by
  simp only [← decision?_eq_found_iff, ← findSome?_decision?_eq_some_iff, firstFile_eq]
  cases extensions.findSome? (r.decision? id) <;> simp

theorem firstFile_eq_error_iff {extensions : List Text} {loop : LinkLoop} :
    r.firstFile id extensions = .error loop ↔
      ∃ extension, r.ReachedIn id extension extensions ∧ r.Loops id extension loop := by
  simp only [← decision?_eq_error_iff, ← findSome?_decision?_eq_some_iff, firstFile_eq]
  cases extensions.findSome? (r.decision? id) <;> simp

theorem firstFile_eq_none_iff {extensions : List Text} :
    r.firstFile id extensions = .ok none ↔
      (∀ e ∈ extensions, r.Lacks id e) ∨
        ∃ extension, r.ReachedIn id extension extensions ∧ r.Refuses id extension := by
  simp only [← decision?_eq_refused_iff, ← findSome?_decision?_eq_some_iff, firstFile_eq,
    ← decision?_eq_none_iff, ← List.findSome?_eq_none_iff]
  cases extensions.findSome? (r.decision? id) <;> simp

/-! ## Documents -/

theorem exists?_eq_true_iff :
    r.registry.exists? id = .ok true ↔ ∃ p, r.pathFor id = .ok (some p) := by
  show (r.pathFor id).map Option.isSome = .ok true ↔ _
  rcases r.pathFor id with loop | (_ | p) <;> simp [Except.map]

theorem exists?_eq_false_iff : r.registry.exists? id = .ok false ↔ r.pathFor id = .ok none := by
  show (r.pathFor id).map Option.isSome = .ok false ↔ _
  rcases r.pathFor id with loop | (_ | p) <;> simp [Except.map]

theorem exists?_eq_error_iff {loop : LinkLoop} :
    r.registry.exists? id = .error loop ↔ r.pathFor id = .error loop := by
  show (r.pathFor id).map Option.isSome = .error loop ↔ _
  rcases r.pathFor id with loop' | (_ | p) <;> simp [Except.map]

theorem ReachedIn.mem {extensions : List Text} (h : r.ReachedIn id extension extensions) :
    extension ∈ extensions := by
  obtain ⟨before, behind, rfl, -⟩ := h
  simp

theorem ReachedIn.append {extensions : List Text} (h : r.ReachedIn id extension extensions)
    (more : List Text) : r.ReachedIn id extension (extensions ++ more) := by
  obtain ⟨before, behind, rfl, hb⟩ := h
  exact ⟨before, behind ++ more, by simp, hb⟩

/-- With some extension there is a file, but the search ends before, at an extension that
refuses. -/
def CutOff (r : DirectoryRegistry) (id : Text) : Prop :=
  (∃ extension, r.ReachedIn id extension r.extensions ∧ r.Refuses id extension) ∧
    ∃ extension ∈ r.extensions, ∃ p, r.Finds id extension p

/-- A search that comes to an end says what the extensions say one by one, unless it is cut off. -/
theorem exists_finds_iff {known : Bool} (hk : r.registry.exists? id = .ok known)
    (hc : ¬ r.CutOff id) : known = true ↔ ∃ e ∈ r.extensions, ∃ p, r.Finds id e p := by
  cases known with
  | true =>
    obtain ⟨p, hp⟩ := exists?_eq_true_iff.1 hk
    obtain ⟨extension, hr, hf⟩ := firstFile_eq_some_iff.1 hp
    exact iff_of_true rfl ⟨extension, hr.mem, p, hf⟩
  | false =>
    refine iff_of_false Bool.false_ne_true fun hfinds => ?_
    rcases firstFile_eq_none_iff.1 (exists?_eq_false_iff.1 hk) with hlacks | hrefuses
    · obtain ⟨e, he, p, hf⟩ := hfinds
      exact hf.not_lacks (hlacks e he)
    · exact hc ⟨hrefuses, hfinds⟩

theorem CutOff.exists?_eq_false (hc : r.CutOff id) : r.registry.exists? id = .ok false :=
  exists?_eq_false_iff.2 (firstFile_eq_none_iff.2 (.inr hc.1))

/-- Extensions of which none refuses do not cut a search off. -/
theorem not_cutOff (hr : ∀ e ∈ r.extensions, ¬ r.Refuses id e) : ¬ r.CutOff id := by
  rintro ⟨⟨extension, hreached, hrefuses⟩, -⟩
  exact hr extension hreached.mem hrefuses

/-- The registry with other extensions. -/
def withExtensions (r : DirectoryRegistry) (extensions : List Text) : DirectoryRegistry :=
  { r with extensions }

/-- **Which extension decides.**  The file of a document is the one of the first extension that has
one, if all before it lead to paths inside the root without a file.  Where no lookup fails, there is
a document exactly when some extension has a file, unless the search is cut off before it.  More
extensions behind the others change nothing for a document that exists; and while none of the
extensions refuses, none that is added makes a document go missing, and their order does not
matter. -/
theorem document_by_extension (r : DirectoryRegistry) (id : Text) :
    (∀ p, r.pathFor id = .ok (some p) ↔
        ∃ extension, r.ReachedIn id extension r.extensions ∧ r.Finds id extension p) ∧
      (∀ known, r.registry.exists? id = .ok known →
        ((known = true ↔ ∃ p, r.pathFor id = .ok (some p)) ∧
          ((known = true ↔ ∃ e ∈ r.extensions, ∃ p, r.Finds id e p) ↔ ¬ r.CutOff id))) ∧
      (∀ more p, r.pathFor id = .ok (some p) →
        (r.withExtensions (r.extensions ++ more)).pathFor id = .ok (some p)) ∧
      ∀ extensions known known', (∀ e ∈ extensions, ¬ r.Refuses id e) →
        r.extensions ⊆ extensions → r.registry.exists? id = .ok known →
        (r.withExtensions extensions).registry.exists? id = .ok known' →
          (known = true → known' = true) ∧ (r.extensions.Perm extensions → known = known') := by
  refine ⟨fun p => firstFile_eq_some_iff, fun known hk => ⟨?_, ?_, ?_⟩, fun more p hp => ?_,
    fun extensions known known' hr hsub hk hk' => ?_⟩
  · rw [← exists?_eq_true_iff, hk, Except.ok.injEq]
  · intro hiff hc
    rw [hc.exists?_eq_false] at hk
    exact absurd (hiff.2 hc.2) (Except.ok.inj hk ▸ Bool.false_ne_true)
  · exact exists_finds_iff hk
  · obtain ⟨extension, hreached, hf⟩ := firstFile_eq_some_iff.1 hp
    exact firstFile_eq_some_iff.2 ⟨extension, hreached.append more, hf⟩
  · have hfinds := exists_finds_iff hk (not_cutOff fun e he => hr e (hsub he))
    have hfinds' := exists_finds_iff hk' (not_cutOff hr)
    have hmore : known = true → known' = true := by
      rw [hfinds, hfinds']
      rintro ⟨e, he, p, hp⟩
      exact ⟨e, hsub he, p, hp⟩
    refine ⟨hmore, fun hperm => Bool.eq_iff_iff.2 ⟨hmore, ?_⟩⟩
    rw [hfinds, hfinds']
    rintro ⟨e, he, p, hp⟩
    exact ⟨e, hperm.mem_iff.2 he, p, hp⟩

/-! ## A link out of the root before a file -/

/-- A content root in which two names are links with one extension and files with another: a link
out of the root, and a link into a directory that may not be searched. -/
def outsideFiles : Entry :=
  .directory true [("docs", .directory true [("private", .directory false [("y.md", .file)]),
    ("x.md", .link "/secret.md"), ("x.mdx", .file), ("y.md", .link "private/y.md"),
    ("y.mdx", .file)]), ("secret.md", .file)]

/-- The registry of that root, the extension of the link first. -/
def outsideRegistry : DirectoryRegistry := ⟨outsideFiles, ⟨false, ["docs"]⟩, [".md", ".mdx"]⟩

/-- The link ends the search, so the file behind it is no document; in the other order of the
extensions it is one, and without the first extension it is one, too. -/
theorem outside_link_hides_file :
    outsideRegistry.Finds "x" ".mdx" ⟨false, ["docs", "x.mdx"]⟩ ∧
      outsideRegistry.registry.exists? "x" = .ok false ∧
      (outsideRegistry.withExtensions [".mdx", ".md"]).registry.exists? "x" = .ok true ∧
      (outsideRegistry.withExtensions [".mdx"]).registry.exists? "x" = .ok true := by
  have hlink : outsideRegistry.candidate "x" ".md" = .ok .refused := by cbv
  have hfile : outsideRegistry.candidate "x" ".mdx" = .ok (.found ⟨false, ["docs", "x.mdx"]⟩) := by
    cbv
  have hfinds := candidate_eq_found_iff.1 hfile
  -- whatever follows, the first extension of a list is reached
  have hfirst : ∀ extension behind, outsideRegistry.ReachedIn "x" extension (extension :: behind) :=
    fun extension behind => ⟨[], behind, rfl, by simp⟩
  refine ⟨hfinds, ?_, ?_, ?_⟩
  · exact exists?_eq_false_iff.2 (firstFile_eq_none_iff.2
      (.inr ⟨".md", hfirst _ _, candidate_eq_refused_iff.1 hlink⟩))
  · exact exists?_eq_true_iff.2 ⟨_, firstFile_eq_some_iff.2 ⟨".mdx", hfirst _ _, hfinds⟩⟩
  · exact exists?_eq_true_iff.2 ⟨_, firstFile_eq_some_iff.2 ⟨".mdx", hfirst _ _, hfinds⟩⟩

/-- A link into a directory that may not be searched ends the search, too. -/
example : outsideRegistry.candidate "y" ".md" = .ok .refused ∧
    outsideRegistry.candidate "y" ".mdx" = .ok (.found ⟨false, ["docs", "y.mdx"]⟩) := by
  constructor <;> cbv

end DirectoryRegistry

end Sidebar
