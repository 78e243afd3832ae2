import Sidebar.Json.Literal

/-!
# Sidebar.Json.Reader: reading a JSON document

`Json.read?` reads one value with blanks around it.  Besides the JSON words it knows `NaN`,
`Infinity` and `-Infinity`.  An error is the first one from the left.
-/

namespace Sidebar.Json

/-- The blanks between the tokens of JSON. -/
def isGap (c : Char) : Bool := c = ' ' || c = '\t' || c = '\n' || c = '\r'

/-- The text without the blanks at its start. -/
def skipGap (s : List Char) : List Char := s.dropWhile isGap

theorem length_skipGap (s : List Char) : (skipGap s).length ≤ s.length := by
  have h := congrArg List.length (List.takeWhile_append_dropWhile (p := isGap) (l := s))
  rw [List.length_append] at h
  rw [skipGap]
  omega

/-- What stands for a value by itself. -/
def words : List (List Char × Json) :=
  [(['n', 'u', 'l', 'l'], .null),
   (['t', 'r', 'u', 'e'], .bool true),
   (['f', 'a', 'l', 's', 'e'], .bool false),
   (['N', 'a', 'N'], .float .nan),
   (['I', 'n', 'f', 'i', 'n', 'i', 't', 'y'], .float (.infinite false)),
   (['-', 'I', 'n', 'f', 'i', 'n', 'i', 't', 'y'], .float (.infinite true))]

theorem words_ne_nil : ∀ w ∈ words, w.1 ≠ [] := by simp [words]

/-- Reads a word or a number. -/
def scalar (limit : Option Nat) (s : List Char) : Except Failure (Json × Left s 1) :=
  match hw : words.find? (fun w => w.1.isPrefixOf s) with
  | some w =>
    .ok (w.2, ⟨s.drop w.1.length, by
      have h1 := List.length_pos_iff.2 (words_ne_nil w (List.mem_of_find?_eq_some hw))
      have hp : w.1.isPrefixOf s = true := by simpa using List.find?_some hw
      have h2 := (List.isPrefixOf_iff_prefix.1 hp).length_le
      rw [List.length_drop]
      omega⟩)
  | none =>
    match s with
    | '-' :: r =>
      match number? limit true r with
      | none => .error (.fault .value (r.length + 1))
      | some (.error failure) => .error failure
      | some (.ok (v, ⟨left, h⟩)) => .ok (v, ⟨left, by simp; omega⟩)
    | s => (number? limit false s).getD (.error (.fault .value s.length))

mutual

/-- Reads a value at the start of a text. -/
def value (limit : Option Nat) (s : List Char) : Except Failure (Json × Left s 1) :=
  match s with
  | '"' :: r =>
    match string (r.length + 1) r with
    | .error failure => .error failure
    | .ok (t, ⟨left, h⟩) => .ok (.text t, ⟨left, by simp; omega⟩)
  | '[' :: r =>
    have hr := length_skipGap r
    if (skipGap r).head? = some ']' then
      .ok (.array [], ⟨(skipGap r).tail, by simp; omega⟩)
    else
      match elements limit (skipGap r) with
      | .error failure => .error failure
      | .ok (vs, ⟨left, h⟩) => .ok (.array vs, ⟨left, by simp; omega⟩)
  | '{' :: r =>
    have hr := length_skipGap r
    if (skipGap r).head? = some '}' then
      .ok (.object [], ⟨(skipGap r).tail, by simp; omega⟩)
    else
      match members limit (skipGap r) with
      | .error failure => .error failure
      | .ok (ms, ⟨left, h⟩) => .ok (ofMembers ms, ⟨left, by simp; omega⟩)
  | s => scalar limit s
termination_by (s.length, 0)

/-- Reads the elements of an array up to its bracket. -/
def elements (limit : Option Nat) (s : List Char) : Except Failure (List Json × Left s 1) :=
  match value limit s with
  | .error failure => .error failure
  | .ok (v, ⟨r, hr⟩) =>
    match hg : skipGap r with
    | ']' :: left =>
      .ok ([v], ⟨left, by
        have := length_skipGap r
        simp only [hg, List.length_cons] at this
        omega⟩)
    | ',' :: left =>
      have hlt : (skipGap left).length + 1 < s.length := by
        have h1 := length_skipGap r
        have h2 := length_skipGap left
        simp only [hg, List.length_cons] at h1
        omega
      match elements limit (skipGap left) with
      | .error failure => .error failure
      | .ok (vs, ⟨left, h⟩) => .ok (v :: vs, ⟨left, by omega⟩)
    | left => .error (.fault .comma left.length)
termination_by (s.length, 1)

/-- Reads the members of an object up to its brace. -/
def members (limit : Option Nat) (s : List Char) :
    Except Failure (List (Text × Json) × Left s 1) :=
  match s with
  | '"' :: r =>
    match string (r.length + 1) r with
    | .error failure => .error failure
    | .ok (key, ⟨behind, hb⟩) =>
      match hc : skipGap behind with
      | ':' :: rest =>
        have hlt : (skipGap rest).length + 2 < r.length + 1 := by
          have h1 := length_skipGap behind
          have h2 := length_skipGap rest
          simp only [hc, List.length_cons] at h1
          omega
        match value limit (skipGap rest) with
        | .error failure => .error failure
        | .ok (v, ⟨r', hr⟩) =>
          match hg : skipGap r' with
          | '}' :: left =>
            .ok ([(key, v)], ⟨left, by
              have := length_skipGap r'
              simp only [hg, List.length_cons] at this
              simp only [List.length_cons]
              omega⟩)
          | ',' :: left =>
            have hlt' : (skipGap left).length + 1 < r.length + 1 := by
              have h1 := length_skipGap r'
              have h2 := length_skipGap left
              simp only [hg, List.length_cons] at h1
              omega
            match members limit (skipGap left) with
            | .error failure => .error failure
            | .ok (ms, ⟨left, h⟩) =>
              .ok ((key, v) :: ms, ⟨left, by simp only [List.length_cons]; omega⟩)
          | left => .error (.fault .comma left.length)
      | left => .error (.fault .colon left.length)
  | s => .error (.fault .propertyName s.length)
termination_by (s.length, 1)

end

/-- Reads a document.  An integer of more digits than `limit` is refused. -/
def read? (limit : Option Nat) (source : List Char) : Except Failure Json :=
  if source.head? = some '\uFEFF' then .error (.fault .byteOrderMark source.length)
  else
    match value limit (skipGap source) with
    | .error failure => .error failure
    | .ok (v, ⟨r, _⟩) =>
      match skipGap r with
      | [] => .ok v
      | left => .error (.fault .extraData left.length)

end Sidebar.Json
