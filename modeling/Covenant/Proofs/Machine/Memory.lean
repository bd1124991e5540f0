import Covenant.Storage.Layout
import Mathlib.Algebra.Group.Nat.Defs
import Mathlib.Data.List.Induction

/-!
# Bytes and memory

The memory of the machine is a row of bytes. A word is written to it as 32 bytes, the highest one
first. What was written is read back, and what lies elsewhere stays.
-/

namespace Covenant

namespace Word

/-- **The bytes of a word**, the highest one first. -/
def bytes (w : Word) : List UInt8 :=
  (List.range 32).map fun i => UInt8.ofBitVec (w.extractLsb' (8 * (31 - i)) 8)

/-- **The word of some bytes**, the highest one first. -/
def ofBytes (bs : List UInt8) : Word :=
  BitVec.ofNat 256 (bs.foldl (fun n b => 256 * n + b.toNat) 0)

@[simp] theorem length_bytes (w : Word) : w.bytes.length = 32 := by
  simp [bytes]

theorem toNat_byte (w : Word) (shift : Nat) :
    (UInt8.ofBitVec (w.extractLsb' shift 8)).toNat = w.toNat / 2 ^ shift % 256 := by
  simp [Nat.shiftRight_eq_div_pow]

/-- The first bytes of a word are those of its upper part. -/
theorem foldl_bytes (w : Word) {k : Nat} (hk : k ≤ 32) :
    ((List.range k).map fun i => UInt8.ofBitVec (w.extractLsb' (8 * (31 - i)) 8)).foldl
      (fun n b => 256 * n + b.toNat) 0 = w.toNat / 2 ^ (8 * (32 - k)) := by
  induction k with
  | zero =>
    have hlt : w.toNat < 2 ^ (8 * (32 - 0)) := w.isLt
    rw [Nat.div_eq_of_lt hlt]
    rfl
  | succ k ih =>
    have hupper : w.toNat / 2 ^ (8 * (32 - k)) = w.toNat / 2 ^ (8 * (31 - k)) / 256 := by
      have hpow : 2 ^ (8 * (32 - k)) = 2 ^ (8 * (31 - k)) * 256 := by
        rw [show 8 * (32 - k) = 8 * (31 - k) + 8 by omega, Nat.pow_add]
      rw [hpow, Nat.div_div_eq_div_mul]
    have hshift : 8 * (32 - (k + 1)) = 8 * (31 - k) := by omega
    rw [List.range_succ, List.map_append, List.foldl_append, ih (by omega), hshift, hupper]
    simp only [List.map_cons, List.map_nil, List.foldl_cons, List.foldl_nil, toNat_byte]
    exact Nat.div_add_mod _ _

/-- **The bytes of a word give the word back.** -/
theorem ofBytes_bytes (w : Word) : ofBytes w.bytes = w := by
  rw [ofBytes, bytes, foldl_bytes w (Nat.le_refl 32)]
  simp

theorem bytes_injective {v w : Word} (h : v.bytes = w.bytes) : v = w := by
  rw [← ofBytes_bytes v, h, ofBytes_bytes]

theorem toNat_ofNat {n : Nat} (h : n < 2 ^ 256) : (BitVec.ofNat 256 n).toNat = n := by
  rw [BitVec.toNat_ofNat, Nat.mod_eq_of_lt h]

/-- Any byte of a number that is put together from bytes. -/
theorem foldl_div_mod (bs : List UInt8) {i : Nat} (hi : i < bs.length) :
    bs.foldl (fun n b => 256 * n + b.toNat) 0 / 256 ^ (bs.length - 1 - i) % 256 = bs[i].toNat := by
  induction bs using List.reverseRecOn with
  | nil => cases hi
  | append_singleton bs b ih =>
    have hb := b.toNat_lt
    rw [List.foldl_append, List.length_append, List.length_singleton, Nat.add_sub_cancel]
    simp only [List.foldl_cons, List.foldl_nil]
    by_cases hlast : i < bs.length
    · have hfront : (256 * bs.foldl (fun n b => 256 * n + b.toNat) 0 + b.toNat) / 256
          = bs.foldl (fun n b => 256 * n + b.toNat) 0 := by omega
      rw [List.getElem_append_left hlast, ← ih hlast,
        show bs.length - i = bs.length - 1 - i + 1 by omega, Nat.pow_succ',
        ← Nat.div_div_eq_div_mul, hfront]
    · rw [List.length_append, List.length_singleton] at hi
      obtain rfl : i = bs.length := by omega
      rw [Nat.sub_self, Nat.pow_zero, Nat.div_one, List.getElem_concat_length rfl]
      omega

theorem foldl_lt (bs : List UInt8) :
    bs.foldl (fun n b => 256 * n + b.toNat) 0 < 256 ^ bs.length := by
  induction bs using List.reverseRecOn with
  | nil => exact Nat.one_pos
  | append_singleton bs b ih =>
    have hb := b.toNat_lt
    rw [List.foldl_append, List.length_append, List.length_singleton, Nat.pow_succ]
    simp only [List.foldl_cons, List.foldl_nil]
    omega

/-- **The bytes of a word that is made of bytes** are those. -/
theorem bytes_ofBytes {bs : List UInt8} (h : bs.length = 32) : (ofBytes bs).bytes = bs := by
  refine List.ext_getElem (by simp [h]) fun i hi hi' => ?_
  have hlt := foldl_lt bs
  rw [h] at hlt
  have hbyte := foldl_div_mod bs hi'
  rw [h, show 32 - 1 - i = 31 - i by omega] at hbyte
  have hget : (ofBytes bs).bytes[i]
      = UInt8.ofBitVec ((ofBytes bs).extractLsb' (8 * (31 - i)) 8) := by
    simp [bytes]
  rw [hget, ← UInt8.toNat_inj, toNat_byte, ofBytes, toNat_ofNat hlt, ← hbyte, Nat.pow_mul]

/-- The distance from a place to the end of what stands there. -/
theorem ofNat_add_sub_ofNat (place size : Nat) :
    BitVec.ofNat 256 (place + size) - BitVec.ofNat 256 place = BitVec.ofNat 256 size := by
  rw [BitVec.ofNat_add, BitVec.add_comm, BitVec.add_sub_cancel]

end Word

namespace Machine

/-- **The memory of the machine.** -/
abbrev Memory := Nat → UInt8

namespace Memory

/-- Writes bytes from a place on. -/
def write (m : Memory) (place : Nat) (bs : List UInt8) : Memory := fun i =>
  if place ≤ i then (bs[i - place]?).getD (m i) else m i

/-- The bytes from a place on. -/
def read (m : Memory) (place count : Nat) : List UInt8 :=
  (List.range count).map fun i => m (place + i)

@[simp] theorem length_read (m : Memory) (place count : Nat) :
    (m.read place count).length = count := by
  simp [read]

/-- What lies below is not changed. -/
theorem write_of_lt (m : Memory) {place i : Nat} (bs : List UInt8) (h : i < place) :
    m.write place bs i = m i :=
  if_neg (by omega)

/-- What lies behind is not changed. -/
theorem write_of_ge (m : Memory) {place i : Nat} (bs : List UInt8) (h : place + bs.length ≤ i) :
    m.write place bs i = m i := by
  have hnone : bs[i - place]? = none := List.getElem?_eq_none (by omega)
  rw [write, if_pos (by omega), hnone, Option.getD_none]

/-- What is read depends on the bytes that are read. -/
theorem read_congr {m m' : Memory} {place count : Nat}
    (h : ∀ i, place ≤ i → i < place + count → m' i = m i) :
    m'.read place count = m.read place count := by
  refine List.map_congr_left fun i hi => ?_
  have hi := List.mem_range.1 hi
  exact h (place + i) (by omega) (by omega)

/-- What was written is read. -/
theorem read_write_self (m : Memory) (place : Nat) (bs : List UInt8) :
    (m.write place bs).read place bs.length = bs := by
  refine List.ext_getElem (by simp) fun i hi hbs => ?_
  simp [read, write, hbs]

/-- What lies below is not changed. -/
theorem read_write_of_le (m : Memory) {place count other : Nat} (bs : List UInt8)
    (h : other + count ≤ place) : (m.write place bs).read other count = m.read other count := by
  refine List.map_congr_left fun i hi => ?_
  have hi : i < count := List.mem_range.1 hi
  rw [write, if_neg (by omega)]

/-- Bytes are read part by part. -/
theorem read_append (m : Memory) (place count more : Nat) :
    m.read place (count + more) = m.read place count ++ m.read (place + count) more := by
  simp [read, List.range_add, Nat.add_assoc, Function.comp_def]

/-- Two words written one behind the other. -/
theorem read_two_words (m : Memory) (v w : Word) :
    ((m.write 0 v.bytes).write 32 w.bytes).read 0 64 = v.bytes ++ w.bytes := by
  have hfirst : ((m.write 0 v.bytes).write 32 w.bytes).read 0 32 = v.bytes := by
    rw [read_write_of_le _ _ (Nat.le_refl 32)]
    exact m.read_write_self 0 v.bytes
  have hsecond : ((m.write 0 v.bytes).write 32 w.bytes).read 32 32 = w.bytes :=
    (m.write 0 v.bytes).read_write_self 32 w.bytes
  rw [show 64 = 32 + 32 from rfl, read_append, hfirst, Nat.zero_add, hsecond]

/-- What is read from where bytes were written starts with those bytes. -/
theorem read_write_take (m : Memory) {place count : Nat} {bs : List UInt8}
    (h : count ≤ bs.length) : (m.write place bs).read place count = bs.take count := by
  have hread := m.read_write_self place bs
  rw [← Nat.add_sub_cancel' h, read_append] at hread
  have htake := congrArg (List.take count) hread
  rwa [List.take_left' (length_read _ _ _)] at htake

/-- The first four bytes of a word, and another word behind them. -/
theorem read_tagged_word (m : Memory) (v w : Word) :
    ((m.write 0 v.bytes).write 4 w.bytes).read 0 36 = v.bytes.take 4 ++ w.bytes := by
  have hfirst : ((m.write 0 v.bytes).write 4 w.bytes).read 0 4 = v.bytes.take 4 := by
    rw [read_write_of_le _ _ (Nat.le_refl 4), read_write_take m (by simp)]
  have hsecond : ((m.write 0 v.bytes).write 4 w.bytes).read 4 32 = w.bytes :=
    (m.write 0 v.bytes).read_write_self 4 w.bytes
  rw [show 36 = 4 + 32 from rfl, read_append, hfirst, Nat.zero_add, hsecond]

end Memory

end Machine

end Covenant
