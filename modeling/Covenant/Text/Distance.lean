import Covenant.Text.Hex

/-!
# Edit distance

How many bytes have to be inserted, deleted or exchanged to turn one text into another, computed
row by row, and the names of a list that are near enough to another name to be suggested for it.
-/

namespace Covenant

namespace Text

/-- The cost of putting one byte in the place of another. -/
def exchangeCost (a b : UInt8) : Nat :=
  if a = b then 0 else 1

/-- The rest of a row of distances: `above` is the row above from one column to the left on, and
`left` the distance just computed. -/
def distanceRow (a : UInt8) : List UInt8 → List Nat → Nat → List Nat
  | b :: bs, diagonal :: up :: above, left =>
    let d := min (min (up + 1) (left + 1)) (diagonal + exchangeCost a b)
    d :: distanceRow a bs (up :: above) d
  | _, _, _ => []

/-- The next row of distances: one byte more of the first text against all beginnings of the
second. -/
def nextDistances (bs : List UInt8) (row : List Nat) (a : UInt8) : List Nat :=
  let first := row.headD 0 + 1
  first :: distanceRow a bs row first

/-- The distances of the first text to all beginnings of the second. -/
def distances (as bs : List UInt8) : List Nat :=
  as.foldl (nextDistances bs) (List.range (bs.length + 1))

/-- **The edit distance of two byte strings.** -/
def distance (as bs : List UInt8) : Nat :=
  (distances as bs).getLastD 0

/-- How far a name may be from another to be suggested for it: a third of its bytes, at least one
and at most three. -/
def nearLimit (name : String) : Nat :=
  min 3 (max 1 (name.utf8ByteSize / 3))

/-- **The first three candidates that are near a name**, the name itself left out. -/
def nearNames (name : String) (candidates : List String) : List String :=
  (candidates.filter fun c =>
    c ≠ name && distance (bytes name) (bytes c) ≤ nearLimit name).take 3

end Text

end Covenant
