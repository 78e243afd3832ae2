import Sidebar.FileSystem.Basic
import Sidebar.FileSystem.LinkLoop
import Sidebar.FileSystem.Path
import Sidebar.Unseen

/-!
# Sidebar.FileSystem.Resolve: following links

`Entry.stat` looks a path up as the system does, following every link on the way, at most forty.
`Entry.resolve` spells a path without links, as far as that is possible.  It asks the system about
one name after the other: what is no link, or cannot be looked up, is kept; double dots take away
the name before them once its link is followed; and a link that is met while it is being followed
ends the work with what is left of the path.  Main statement: each link that is entered is a new
one, so that the work ends (`unmet_cons_lt`).
-/

namespace Sidebar

/-- Why the system does not look up a path. -/
inductive StatError
  | notFound
  | notDirectory
  /-- A directory on the way may not be searched. -/
  | notPermitted
  | tooManyLinks
  | nameTooLong
deriving DecidableEq

/-- Why a path is not resolved. -/
inductive ResolveError
  /-- A name holds a code point that no file name can hold. -/
  | unencodable
  | linkLoop (loop : LinkLoop)
deriving DecidableEq

/-- The wording of an error. -/
def ResolveError.message : ResolveError → Text
  | .unencodable => "embedded null byte"
  | .linkLoop loop => loop.message

namespace Entry

/-! ### Looking up -/

/-- How many links are followed in one look-up. -/
def linkLimit : Nat := 40

/-- How many bytes a name can have. -/
def nameLimit : Nat := 255

/-- Below how many bytes the text of a path has to be. -/
def pathLimit : Nat := 4096

/-- What one name leads to. -/
inductive Onward
  | place (there : List Text)
  | link (target : Text)
deriving DecidableEq

/-- Looks one name up in the directory at `here`. -/
def enter (root : Entry) (here : List Text) (name : Text) : Except StatError Onward :=
  match root.at? here with
  | some (.directory searchable children) =>
    if name = [] then .ok (.place here)
    else if searchable = false then .error .notPermitted
    else if name = selfName then .ok (.place here)
    else if name = parentName then .ok (.place here.dropLast)
    else if nameLimit < Utf8.size name then .error .nameTooLong
    else
      match children.lookup (listed name) with
      | none => .error .notFound
      | some (.link target) => .ok (.link target)
      | some _ => .ok (.place (here ++ [listed name]))
  | _ => .error .notDirectory

/-- Where the target of a link in the directory at `here` starts. -/
def linkStart (here : List Text) (target : Text) : List Text :=
  if isAbsolute target then [] else here

/-- Looks `names` up from the directory at `here`; `links` is how many links may still be followed,
and `followLast` whether a link at the end is. -/
def walk (root : Entry) (followLast : Bool) (links : Nat) (here names : List Text) :
    Except StatError Entry :=
  match names with
  | [] =>
    match root.at? here with
    | some e => .ok e
    | none => .error .notFound
  | name :: names =>
    match root.enter here name with
    | .error e => .error e
    | .ok (.place there) => walk root followLast links there names
    | .ok (.link target) =>
      if names = [] ∧ followLast = false then .ok (.link target)
      else
        match links with
        | 0 => .error .tooManyLinks
        | links + 1 =>
          walk root followLast links (linkStart here target) (segments target ++ names)
termination_by (links, names.length)

/-- The entry that a location leads to. -/
def stat (root : Entry) (l : Location) : Except StatError Entry :=
  if pathLimit ≤ Utf8.size l.render then .error .nameTooLong
  else walk root true linkLimit [] l.names

/-! ### Spellings -/

/-- A path as it is spelled while it is followed: from the root, or from so many levels above the
working directory. -/
structure Spelled where
  above : Option Nat
  names : List Text
deriving DecidableEq

namespace Spelled

/-- The names from where the path starts. -/
def segments (s : Spelled) : List Text :=
  match s.above with
  | none => s.names
  | some k => List.replicate k parentName ++ s.names

/-- The text of the path. -/
def text (s : Spelled) : Text :=
  let body : Text := [slash].intercalate s.segments
  if s.above = none then slash :: body else body

/-- One name further. -/
def child (s : Spelled) (name : Text) : Spelled := ⟨s.above, s.names ++ [name]⟩

/-- The directory above: without the last name, or one level higher. -/
def parent (s : Spelled) : Spelled :=
  match s.above, s.names with
  | some k, [] => ⟨some (k + 1), []⟩
  | above, names => ⟨above, names.dropLast⟩

/-- Where the target of a link in the directory `s` starts. -/
def start (s : Spelled) (target : Text) : Spelled :=
  if isAbsolute target then ⟨none, []⟩ else s

/-- The path from the root. -/
def location (s : Spelled) (work : List Text) : Location :=
  match s.above with
  | none => ⟨false, s.names⟩
  | some k => ⟨false, work.take (work.length - k) ++ s.names⟩

end Spelled

/-- The entry that a path leads to, a link at its end not followed; `work` is the working
directory. -/
def lstat (root : Entry) (work : List Text) (s : Spelled) : Except StatError Entry :=
  if pathLimit ≤ Utf8.size s.text then .error .nameTooLong
  else walk root false linkLimit (if s.above = none then [] else work) s.segments

/-- The target of the link that the system finds under a path, as its bytes are read. -/
def readLink? (root : Entry) (work : List Text) (s : Spelled) : Option Text :=
  match root.lstat work s with
  | .ok (.link target) => some (listed target)
  | _ => none

/-! ### Resolving -/

/-- The links that have been met, each with where it leads unless it is being followed. -/
abbrev Met := List (Spelled × Option Spelled)

/-- The lists of at most `n` elements of `all`. -/
def listsUpTo {α : Type} (all : List α) : Nat → List (List α)
  | 0 => [[]]
  | n + 1 => [] :: all.flatMap fun a => (listsUpTo all n).map (a :: ·)

/-- Every spelling that is short enough to be looked up, and others. -/
noncomputable def spellings : List Spelled :=
  let codePoints := (List.finRange 0x110000).map fun n => CodePoint.mk n.val n.isLt
  (none :: (List.range (pathLimit + 1)).map some).flatMap fun above =>
    (listsUpTo (listsUpTo codePoints pathLimit) pathLimit).map fun names => ⟨above, names⟩

/-- How many spellings have not been met. -/
noncomputable def unmet (met : List Spelled) : Nat := unseen spellings met

theorem mem_listsUpTo {α : Type} {all : List α} {n : Nat} {as : List α} (hn : as.length ≤ n)
    (ha : ∀ a ∈ as, a ∈ all) : as ∈ listsUpTo all n := by
  induction as generalizing n with
  | nil => cases n <;> simp [listsUpTo]
  | cons a as ih =>
    rw [List.forall_mem_cons] at ha
    cases n with
    | zero => simp at hn
    | succ n =>
      rw [listsUpTo]
      refine List.mem_cons_of_mem _ (List.mem_flatMap.2 ⟨a, ha.1, List.mem_map.2 ⟨as, ?_, rfl⟩⟩)
      exact ih (by simpa using hn) ha.2

theorem length_le_of_mem_intercalate {sep p : Text} {ps : List Text} (h : p ∈ ps) :
    p.length ≤ (sep.intercalate ps).length := by
  induction ps with
  | nil => cases h
  | cons q ps ih =>
    cases ps with
    | nil => exact Nat.le_of_eq (by rw [List.mem_singleton.1 h, List.intercalate_singleton])
    | cons r ps =>
      rw [List.intercalate_cons_cons, List.length_append, List.length_append]
      rcases List.mem_cons.1 h with rfl | h
      · omega
      · have := ih h
        omega

theorem length_le_length_intercalate (c : CodePoint) (ps : List Text) :
    ps.length ≤ ([c].intercalate ps).length + 1 := by
  induction ps with
  | nil => exact Nat.zero_le _
  | cons q ps ih =>
    cases ps with
    | nil => simp
    | cons r ps =>
      rw [List.intercalate_cons_cons, List.length_append, List.length_append, List.length_cons]
      simp only [List.length_cons, List.length_nil] at ih ⊢
      omega

/-- A path that can be looked up is among the spellings. -/
theorem mem_spellings {s : Spelled} (h : Utf8.size s.text < pathLimit) : s ∈ spellings := by
  have hsize : ([slash].intercalate s.segments).length < pathLimit := by
    have ht := Nat.lt_of_le_of_lt (Utf8.length_le_size s.text) h
    unfold Spelled.text at ht
    dsimp only at ht
    split at ht
    · exact Nat.lt_of_succ_lt ht
    · exact ht
  have hcount := length_le_length_intercalate slash s.segments
  have hnames : s.names.length ≤ s.segments.length ∧ ∀ name ∈ s.names, name ∈ s.segments := by
    unfold Spelled.segments
    split
    · exact ⟨Nat.le_refl _, fun _ hn => hn⟩
    · exact ⟨by simp, fun name hn => List.mem_append_right _ hn⟩
  refine List.mem_flatMap.2 ⟨s.above, ?_, List.mem_map.2 ⟨s.names, ?_, rfl⟩⟩
  · cases habove : s.above with
    | none => exact List.mem_cons_self
    | some k =>
      have hk : k ≤ s.segments.length := by simp [Spelled.segments, habove]
      exact List.mem_cons_of_mem _ (List.mem_map.2 ⟨k, List.mem_range.2 (by omega), rfl⟩)
  · refine mem_listsUpTo (by omega) fun name hn => mem_listsUpTo ?_ fun c _ => ?_
    · have := @length_le_of_mem_intercalate [slash] _ _ (hnames.2 name hn)
      omega
    · exact List.mem_map.2 ⟨⟨c.toNat, c.isLt⟩, List.mem_finRange _, rfl⟩

/-- What can be read as a link can be looked up. -/
theorem size_of_readLink? {root : Entry} {work : List Text} {s : Spelled} {target : Text}
    (h : root.readLink? work s = some target) : Utf8.size s.text < pathLimit := by
  refine Nat.lt_of_not_le fun hs => ?_
  rw [readLink?, lstat, if_pos hs] at h
  cases h

/-- Each link that is entered is a new one. -/
theorem unmet_cons_lt {root : Entry} {work : List Text} {met : List Spelled} {s : Spelled}
    (hl : (root.readLink? work s).isSome) (hs : s ∉ met) : unmet (s :: met) < unmet met :=
  unseen_cons_lt (mem_spellings (size_of_readLink? (Option.some_get hl).symm)) hs

/-- How far a path is followed: to its end, or to a link that is being followed already, with the
rest of the path. -/
inductive Reached
  | place (s : Spelled)
  | stuck (l : Location)

/-- The links met after a step: those before it and perhaps others. -/
abbrev After (met : Met) : Type := { more : Met // ∀ s ∈ Keyed.keys met, s ∈ Keyed.keys more }

/-- Follows `names` from `here`. -/
def follow (root : Entry) (work : List Text) (met : Met) (here : Spelled) (names : List Text) :
    Except ResolveError (After met × Reached) :=
  match names with
  | [] => .ok (⟨met, fun _ h => h⟩, .place here)
  | name :: names =>
    if isIdle name then follow root work met here names
    else if name = parentName then follow root work met here.parent names
    else if isUnencodable name then .error .unencodable
    else
      let next := here.child name
      if hl : (root.readLink? work next).isSome then
        if hm : next ∈ Keyed.keys met then
          match met.lookup next with
          | some (some done) => follow root work met done names
          | _ => .ok (⟨met, fun _ h => h⟩, .stuck (.extend (next.location work) names))
        else
          have hlt := unmet_cons_lt hl hm
          let target := (root.readLink? work next).get hl
          match follow root work ((next, none) :: met) (here.start target) (segments target) with
          | .error e => .error e
          | .ok (⟨more, hmore⟩, .stuck l) =>
            .ok (⟨more, fun s hs => hmore s (List.mem_cons_of_mem _ hs)⟩, .stuck (l.extend names))
          | .ok (⟨more, hmore⟩, .place done) =>
            have : unmet (Keyed.keys ((next, some done) :: more)) < unmet (Keyed.keys met) :=
              Nat.lt_of_le_of_lt (unseen_le fun s hs => List.mem_cons_of_mem _ (hmore s hs)) hlt
            match follow root work ((next, some done) :: more) done names with
            | .error e => .error e
            | .ok (⟨all, hall⟩, reached) =>
              .ok (⟨all, fun s hs =>
                hall s (List.mem_cons_of_mem _ (hmore s (List.mem_cons_of_mem _ hs)))⟩, reached)
      else follow root work met next names
termination_by (unmet (Keyed.keys met), names.length)

/-- Spells a path without links; `work` is the working directory.  A path that leads into a loop
of links has no such spelling. -/
def resolve (root : Entry) (work : List Text) (path : Path) : Except ResolveError Location :=
  let start : Spelled := if path.absolute then ⟨none, []⟩ else ⟨some 0, []⟩
  match root.follow work [] start path.names with
  | .error e => .error e
  | .ok (_, reached) =>
    let l : Location :=
      match reached with
      | .place s => s.location work
      | .stuck l => l.normalize
    if l.names.any isUnencodable then .error .unencodable
    else
      match root.stat l with
      | .error .tooManyLinks => .error (.linkLoop ⟨l.render⟩)
      | _ => .ok l

end Entry

end Sidebar
