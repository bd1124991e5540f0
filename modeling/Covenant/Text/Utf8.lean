import Covenant.Text.Quoted

/-!
# Bytes as text

Bytes that come from outside need not spell characters. They are cut into the characters they do
spell and the bytes that belong to none, and each use says what such a byte becomes: a replacement
mark in a text, an escape between quotes, or a stand-in that keeps it apart from other bytes.
-/

namespace Covenant

namespace Text

/-- The character with the code of a byte. -/
def charOf (b : UInt8) : Char :=
  Char.ofNat b.toNat

/-- The character that a run of bytes starts with, and how many bytes it takes. -/
def leadingChar? (bs : List UInt8) : Option (Char × Nat) :=
  [1, 2, 3, 4].findSome? fun n =>
    match String.fromUTF8? (ByteArray.mk (bs.take n).toArray) with
    | some s => s.toList.head?.bind fun c => if s.length = 1 then some (c, n) else none
    | none => none

/-- **The characters of bytes**; a byte that belongs to no character stands for itself. -/
def chars : List UInt8 → List (Char ⊕ UInt8)
  | [] => []
  | b :: rest =>
    match leadingChar? (b :: rest) with
    | some (c, n) => .inl c :: chars (rest.drop (n - 1))
    | none => .inr b :: chars rest
termination_by bs => bs.length
decreasing_by
  · exact Nat.lt_succ_of_le (List.length_drop ▸ Nat.sub_le ..)
  · exact Nat.lt_succ_self _

/-- The text of bytes, with a replacement mark for a byte that belongs to no character. -/
def ofBytes (bs : List UInt8) : String :=
  String.ofList ((chars bs).map fun
    | .inl c => c
    | .inr _ => Char.ofNat 0xfffd)

/-- Bytes in double quotes: a character as in a quoted text, any other byte by its value. -/
def quoteBytes (bs : List UInt8) : String :=
  "\"" ++ String.join ((chars bs).map fun
    | .inl c => quoteChar c
    | .inr b => "\\x" ++ hexPadded 2 b.toNat) ++ "\""

/-! ## Stand-ins

A name that is given in bytes has to stay the name it is, also where it spells no characters. Some
characters that are left to private use stand in for single bytes.
-/

/-- The character that stands in for a byte outside of ASCII. -/
def standIn (b : UInt8) : Char :=
  Char.ofNat (0x10dc00 + b.toNat)

/-- Whether a character stands in for a byte. -/
def isStandIn (c : Char) : Bool :=
  0x10dc80 ≤ c.toNat && c.toNat < 0x10dd00

/-- The text of bytes, with a stand-in for a byte that belongs to no character. -/
def keepBytes (bs : List UInt8) : String :=
  String.ofList ((chars bs).map fun
    | .inl c => c
    | .inr b => standIn b)

/-- How many bytes a text has in which characters stand in for bytes. -/
def keptSize (s : String) : Nat :=
  s.toList.foldl (fun n c => n + if isStandIn c then 1 else c.utf8Size) 0

/-- A text as it is shown: a replacement mark for every stand-in. -/
def shown (s : String) : String :=
  String.ofList (s.toList.map fun c => if isStandIn c then Char.ofNat 0xfffd else c)

end Text

end Covenant
