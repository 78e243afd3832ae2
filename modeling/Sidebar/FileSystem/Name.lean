import Sidebar.Text.Utf8

/-!
# Sidebar.FileSystem.Name: names and the bytes that the system knows them by

A name is written in UTF-8.  Bytes of a name that are no UTF-8 are read as surrogates from `U+DC80`
to `U+DCFF`, one for each byte, and these are written as the bytes that they stand for.  So a text
can write a name otherwise than it is read: `listed` is how the name is read.
-/

namespace Sidebar

/-- The bytes of a name. -/
def nameBytes (name : Text) : List UInt8 :=
  name.flatMap fun c =>
    if Utf8.isEscape c then [.ofNat (c.toNat - 0xDC00)] else Utf8.bytesOf c.toNat

/-- The code point as which a byte is read that is part of no character. -/
def escapeOf (b : UInt8) : CodePoint := CodePoint.ofNat (0xDC00 + b.toNat)

/-- The name that bytes are read as. -/
def readName (s : List UInt8) : Text :=
  match s with
  | [] => []
  | b :: s =>
    match h : Utf8.char? (b :: s) with
    | some (v, r) =>
      have := Utf8.length_of_char? h
      CodePoint.ofNat v :: readName r
    | none => escapeOf b :: readName s
termination_by s.length

/-- The name as a directory lists it. -/
def listed (name : Text) : Text := readName (nameBytes name)

/-- No name is written in this way: with a null, or with a surrogate that stands for no byte. -/
def isUnencodable (name : Text) : Bool :=
  name.any fun c => c.toNat == 0 || (c.isSurrogate && !Utf8.isEscape c)

end Sidebar
