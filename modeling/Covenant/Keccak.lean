/-!
# Keccak-256

The hash function of the machine: the Keccak sponge with a rate of 136 bytes and the padding that
was used before it became a standard. A state is 25 lanes of 64 bits, row after row.
-/

namespace Covenant

namespace Keccak

/-- A state of the sponge. -/
abbrev State := Array UInt64

/-- The lane of a state in a column and row, both counted modulo five. -/
def lane (s : State) (x y : Nat) : UInt64 :=
  s.getD (x % 5 + 5 * (y % 5)) 0

/-- The state with given lanes. -/
def ofLanes (f : Nat → Nat → UInt64) : State :=
  ((List.range 25).map fun i => f (i % 5) (i / 5)).toArray

/-- Rotates a lane to the left. -/
def rotate (w : UInt64) (n : Nat) : UInt64 :=
  if n % 64 = 0 then w
  else (w <<< UInt64.ofNat (n % 64)) ||| (w >>> UInt64.ofNat (64 - n % 64))

/-- How far each lane is rotated. -/
def offsets : Array Nat :=
  #[0, 1, 62, 28, 27, 36, 44, 6, 55, 20, 3, 10, 43, 25, 39, 41, 45, 15, 21, 8, 18, 2, 61, 56, 14]

/-- The constants that tell the rounds apart. -/
def roundConstants : List UInt64 :=
  [0x0000000000000001, 0x0000000000008082, 0x800000000000808a, 0x8000000080008000,
    0x000000000000808b, 0x0000000080000001, 0x8000000080008081, 0x8000000000008009,
    0x000000000000008a, 0x0000000000000088, 0x0000000080008009, 0x000000008000000a,
    0x000000008000808b, 0x800000000000008b, 0x8000000000008089, 0x8000000000008003,
    0x8000000000008002, 0x8000000000000080, 0x000000000000800a, 0x800000008000000a,
    0x8000000080008081, 0x8000000000008080, 0x0000000080000001, 0x8000000080008008]

/-- Mixes each column with its neighbours. -/
def theta (s : State) : State :=
  let parities := ((List.range 5).map fun x =>
    lane s x 0 ^^^ lane s x 1 ^^^ lane s x 2 ^^^ lane s x 3 ^^^ lane s x 4).toArray
  let effects := ((List.range 5).map fun x =>
    parities.getD ((x + 4) % 5) 0 ^^^ rotate (parities.getD ((x + 1) % 5) 0) 1).toArray
  ofLanes fun x y => lane s x y ^^^ effects.getD x 0

/-- Rotates the lanes and moves them about. -/
def rhoPi (s : State) : State :=
  ofLanes fun x y =>
    let source := (x + 3 * y) % 5 + 5 * x
    rotate (s.getD source 0) (offsets.getD source 0)

/-- Mixes each row; the only step that is not linear. -/
def chi (s : State) : State :=
  ofLanes fun x y => lane s x y ^^^ (~~~ lane s (x + 1) y &&& lane s (x + 2) y)

/-- One round. -/
def round (s : State) (constant : UInt64) : State :=
  let s := chi (rhoPi (theta s))
  s.modify 0 (· ^^^ constant)

/-- The permutation of the sponge. -/
def permute (s : State) : State :=
  roundConstants.foldl round s

/-- The number of bytes taken in at a time. -/
def rate : Nat := 136

/-- A number from its bytes, the lowest first. -/
def littleEndian (bytes : List UInt8) : UInt64 :=
  bytes.foldr (fun b n => (n <<< 8) ||| b.toUInt64) 0

/-- The bytes of a lane, the lowest first. -/
def laneBytes (w : UInt64) : List UInt8 :=
  (List.range 8).map fun i => (w >>> UInt64.ofNat (8 * i)).toUInt8

/-- Takes a block of bytes into the state. -/
def absorb (s : State) (block : List UInt8) : State :=
  let bytes := block.toArray
  permute (ofLanes fun x y =>
    let i := x + 5 * y
    lane s x y ^^^ littleEndian ((List.range 8).map fun k => bytes.getD (8 * i + k) 0))

/-- Fills a message up to whole blocks. -/
def pad (message : List UInt8) : List UInt8 :=
  match rate - message.length % rate with
  | 1 => message ++ [0x81]
  | missing => message ++ [0x01] ++ List.replicate (missing - 2) 0 ++ [0x80]

/-- Takes in a padded message block by block. -/
def absorbAll (s : State) (message : List UInt8) : State :=
  match message with
  | [] => s
  | b :: rest =>
    absorbAll (absorb s ((b :: rest).take rate)) (rest.drop (rate - 1))
termination_by message.length
decreasing_by simp only [List.length_drop, List.length_cons]; omega

end Keccak

/-- **The hash of a byte string**: 32 bytes. -/
def keccak256 (message : List UInt8) : List UInt8 :=
  let s := Keccak.absorbAll (Array.replicate 25 0) (Keccak.pad message)
  (s.toList.take 4).flatMap Keccak.laneBytes

end Covenant
