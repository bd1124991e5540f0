import Covenant.Proofs.Literals.Words
import Covenant.Proofs.Machine.Decoding
import Covenant.Proofs.Resolution.Expressions
import Mathlib.Data.List.TakeWhile

/-!
# The length of a text

A text literal is packed into one word, its bytes from the left, and nothing is kept of its length.
Running code counts the bytes in front of the first zero, writes that many, and whoever reads what
was written clears all others. So of any text what stands in front of its first zero arrives, and a
text without a zero byte arrives as it was written.
-/

namespace Covenant

namespace Text

/-- **What stands in front of the first zero.** -/
def front (bs : List UInt8) : List UInt8 :=
  bs.takeWhile (· ≠ 0)

variable {bs : List UInt8}

theorem length_front_le (bs : List UInt8) : (front bs).length ≤ bs.length :=
  (List.takeWhile_sublist _).length_le

theorem length_front_le_word (h : bs.length ≤ 32) : (front bs).length ≤ 32 :=
  Nat.le_trans (length_front_le bs) h

theorem zero_notMem_front (bs : List UInt8) : 0 ∉ front bs := fun h => by
  simpa using List.mem_takeWhile_imp h

/-- What stands in front of the first zero is everything if there is none. -/
theorem front_eq_self_iff : front bs = bs ↔ 0 ∉ bs := by
  rw [front, List.takeWhile_eq_self_iff]
  refine ⟨fun h hzero => by simpa using h 0 hzero, fun h b hb => decide_eq_true ?_⟩
  rintro rfl
  exact h hb

theorem front_front (bs : List UInt8) : front (front bs) = front bs :=
  front_eq_self_iff.2 (zero_notMem_front bs)

theorem length_front_eq_iff : (front bs).length = bs.length ↔ 0 ∉ bs := by
  rw [← front_eq_self_iff]
  exact ⟨(List.takeWhile_prefix _).eq_of_length, congrArg _⟩

theorem take_length_front (bs : List UInt8) : bs.take (front bs).length = front bs :=
  (List.prefix_iff_eq_take.1 (List.takeWhile_prefix _)).symm

/-- Zeros behind bytes do not move the first zero, and are the first where there was none. -/
theorem findIdx_append_zeros (bs : List UInt8) (k : Nat) :
    (bs ++ List.replicate k 0).findIdx (· = 0) = (front bs).length := by
  induction bs with
  | nil => cases k <;> simp [front, List.replicate_succ, List.findIdx_cons]
  | cons b bs ih =>
    by_cases hb : b = 0
    · simp [front, hb, List.findIdx_cons]
    · simpa [front, hb, List.findIdx_cons] using ih

end Text

open Text

namespace Word

/-- **The word of some bytes**, from the left with zeros behind them. -/
def packed (bs : List UInt8) : Word :=
  ofBytes (bs ++ List.replicate (32 - bs.length) 0)

theorem ofText_eq_packed (text : String) : ofText text = packed (Text.bytes text) := rfl

variable {bs : List UInt8}

theorem bytes_packed (h : bs.length ≤ 32) :
    (packed bs).bytes = bs ++ List.replicate (32 - bs.length) 0 :=
  bytes_ofBytes (by simp [h])

/-- **The length of a text is counted to the first zero.** -/
theorem textLength_packed (h : bs.length ≤ 32) : (packed bs).textLength = (front bs).length := by
  rw [textLength, bytes_packed h, findIdx_append_zeros]

theorem take_packed (h : bs.length ≤ 32) :
    (packed bs).bytes.take (front bs).length = front bs := by
  rw [bytes_packed h, List.take_append_of_le_length (length_front_le bs), take_length_front]

/-- What stands in front of the first zero is a text by itself. -/
theorem isText_packed_front (h : bs.length ≤ 32) : (packed (front bs)).IsText := by
  have hfront := length_front_le_word h
  intro b hb
  rw [textLength_packed hfront, front_front, bytes_packed hfront, List.drop_left] at hb
  exact List.eq_of_mem_replicate hb

/-- Nothing is lost of a word if only zeros stand behind the first zero. -/
theorem packed_front_eq_iff (h : bs.length ≤ 32) :
    packed (front bs) = packed bs ↔ ∀ b ∈ bs.drop (front bs).length, b = 0 := by
  have hle := length_front_le bs
  have hfront := length_front_le_word h
  have hsplit : bs = front bs ++ bs.drop (front bs).length := by
    conv_lhs => rw [← List.take_append_drop (front bs).length bs, take_length_front]
  have hzeros : List.replicate (32 - (front bs).length) (0 : UInt8)
      = List.replicate (bs.length - (front bs).length) 0 ++ List.replicate (32 - bs.length) 0 := by
    rw [List.replicate_append_replicate]
    congr 1
    omega
  constructor
  · intro heq
    have hbytes := congrArg bytes heq
    rw [bytes_packed hfront, bytes_packed h, hzeros, ← List.append_assoc] at hbytes
    have hbs := List.append_cancel_right hbytes
    conv_rhs at hbs => rw [hsplit]
    rw [← List.append_cancel_left hbs]
    exact fun b => List.eq_of_mem_replicate
  · intro hall
    have hrest := List.eq_replicate_iff.2 ⟨List.length_drop, hall⟩
    refine bytes_injective ?_
    rw [bytes_packed hfront, bytes_packed h, hzeros, ← List.append_assoc, ← hrest, ← hsplit]

end Word

namespace Machine

open Emit

variable {host : Host} {code : List Yul.Function} {rounds : Nat} {s t : State}
variable {place finish v w : Word}

/-! ## What is read of a text -/

/-- **What was written to memory as a text is read as a word**, wherever a head says that it stands:
in that memory, or in the arguments of a call that hold a copy. -/
structure ReadAs (t : State) (place finish v : Word) : Prop where
  memory : ∀ host code rounds start head,
    start + Word.ofBytes (t.memory.read head.toNat 32) = place →
    runFunction host code rounds decodeStringMemory [start, head] t = .ok [v] t
  calldata : ∀ (host : Host) code rounds before after head u,
    host.calldata = before ++ t.memory.read place.toNat (finish - place).toNat ++ after →
    host.calldata.length < 2 ^ 256 →
    4#256 + callWord host head = BitVec.ofNat 256 before.length →
    runFunction host code rounds decodeStringCalldata [head] u = .ok [v] u

/-- A text that begins a word is read where that word was written. -/
theorem readAs_text (hv : v.IsText) (hlength : v.textLength = w.textLength)
    (htake : w.bytes.take w.textLength = v.bytes.take w.textLength)
    (hplace : place.toNat + 32 < 2 ^ 256)
    (ht : t.memory = textMemory s.memory place.toNat (place.toNat + 32) w) :
    ReadAs t place (place + BitVec.ofNat 256 w.textSize) v where
  memory host code rounds start head hhead := by
    have hnext : (place + 32#256).toNat = place.toNat + 32 := by
      rw [BitVec.toNat_add, BitVec.toNat_ofNat]
      omega
    refine runFunction_decodeStringMemory hv rfl ?_ ?_
    · rw [hhead, ht, read_textMemory_length, Word.ofBytes_bytes, hlength]
    · rw [hhead, hnext, ht, read_textMemory_word, Word.ofBytes_bytes, hlength, htake]
  calldata host code rounds before after head u hdata hsize hhead := by
    have hwritten : place + BitVec.ofNat 256 w.textSize - place = BitVec.ofNat 256 w.textSize := by
      rw [BitVec.add_comm, BitVec.add_sub_cancel]
    have hfits : w.textSize < 2 ^ 256 := Nat.lt_of_le_of_lt (textSize_le w) (by decide)
    rw [hwritten, Word.toNat_ofNat hfits, ht, read_textMemory] at hdata
    have hdatalength := congrArg List.length hdata
    simp only [List.length_append, length_textBytes] at hdatalength
    have hfront : (BitVec.ofNat 256 before.length).toNat = before.length :=
      Word.toNat_ofNat (by omega)
    have hshort : host.calldata = before ++ Word.bytes (BitVec.ofNat 256 w.textLength)
        ++ ((if w.textLength = 0 then [] else w.bytes) ++ after) := by
      rw [hdata, textBytes]
      simp only [List.append_assoc]
    refine runFunction_decodeStringCalldata hv rfl ?_ ?_
    · rw [hhead, hlength]
      exact callWord_eq hshort hfront
    · rw [hhead, hlength, ← htake]
      -- Anything may stand behind the length of an empty text.
      refine take_textLength fun hsome => ?_
      have hword : host.calldata
          = (before ++ Word.bytes (BitVec.ofNat 256 w.textLength)) ++ w.bytes ++ after := by
        rw [hshort, if_neg hsome]
        simp only [List.append_assoc]
      have hsize64 : w.textSize = 64 := if_neg hsome
      refine callWord_eq hword ?_
      rw [List.length_append, Word.length_bytes, BitVec.toNat_add, hfront, BitVec.toNat_ofNat]
      omega

/-- **Of some bytes in a word, running code has what stands in front of the first zero**: it counts
those bytes, writes that many, and whoever reads what was written gets those. -/
structure CutAtZero (bs : List UInt8) (w : Word) : Prop where
  /-- The bytes are in the word, with zeros behind them. -/
  packed : w.bytes = bs ++ List.replicate (32 - bs.length) 0
  /-- The length that is found is the number of bytes in front of the first zero. -/
  counted : ∀ host code rounds s, 32 < rounds →
    runFunction host code rounds stringLength [w] s
      = .ok [BitVec.ofNat 256 (Text.front bs).length] s
  /-- All bytes are counted if and only if none is zero. -/
  whole : (Text.front bs).length = bs.length ↔ 0 ∉ bs
  /-- What is written at a place in memory is read as those bytes alone. -/
  written : ∀ host code rounds s (place : Word),
    function? code "string_length" = some stringLength → 32 < rounds →
    place.toNat + 32 < 2 ^ 256 →
    ∃ finish t, runFunction host code (rounds + 1) abiEncodeString [place, w] s
        = .ok [finish] t ∧ ReadAs t place finish (Word.packed (Text.front bs))
  /-- What is read has the length that was counted. -/
  recounted : ∀ host code rounds s, 32 < rounds →
    runFunction host code rounds stringLength [Word.packed (Text.front bs)] s
      = .ok [BitVec.ofNat 256 (Text.front bs).length] s
  /-- The word that is read is the one that was written if and only if nothing but zeros stands
  behind the first zero. -/
  same : Word.packed (Text.front bs) = w ↔ ∀ b ∈ bs.drop (Text.front bs).length, b = 0

/-- **Any bytes that fit in a word are cut at their first zero.** -/
theorem cutAtZero_packed {bs : List UInt8} (h : bs.length ≤ 32) :
    CutAtZero bs (Word.packed bs) where
  packed := Word.bytes_packed h
  counted host code rounds s hrounds := by
    rw [runFunction_stringLength hrounds, Word.textLength_packed h]
  whole := Text.length_front_eq_iff
  written host code rounds s place hfound hrounds hplace := by
    have hfront := Text.length_front_le_word h
    have hnext : (place + 32).toNat = place.toNat + 32 := by
      have h32 : (32 : Word).toNat = 32 := rfl
      rw [BitVec.toNat_add]
      omega
    refine ⟨_, _, runFunction_abiEncodeString hfound hrounds place, ?_⟩
    refine readAs_text (Word.isText_packed_front h) ?_ ?_ hplace (by rw [hnext])
    · rw [Word.textLength_packed hfront, Text.front_front, Word.textLength_packed h]
    · have htake := Word.take_packed hfront
      rw [Text.front_front] at htake
      rw [Word.textLength_packed h, Word.take_packed h, htake]
  recounted host code rounds s hrounds := by
    have hfront := Text.length_front_le_word h
    rw [runFunction_stringLength hrounds, Word.textLength_packed hfront, Text.front_front]
  same := Word.packed_front_eq_iff h

end Machine

namespace Emit

/-- **A text is packed, and running code has of it what stands in front of its first zero.** For a
text without a zero byte that is the text itself, with its length. -/
theorem text_ends_at_zero {pos : Position} {value : String}
    (h : Resolve.text pos value = .ok (.literal pos .text value)) :
    ∃ numeral, textWord value = .ok numeral ∧
      Machine.CutAtZero (Text.bytes value) (Word.ofNumeral numeral) := by
  obtain ⟨-, hliteral⟩ | ⟨-, hsize, -⟩ := Resolve.text_eq_ok.1 h
  · cases hliteral
  have hlength : (Text.bytes value).length ≤ 32 := by
    rwa [show (Text.bytes value).length = value.utf8ByteSize by simp [Text.bytes]]
  obtain ⟨numeral, hnumeral, -⟩ := textWord_isWordNumeral hsize
  refine ⟨numeral, hnumeral, ?_⟩
  rw [ofNumeral_textWord hnumeral, Word.ofText_eq_packed]
  exact Machine.cutAtZero_packed hlength

/-- A text without a zero byte. -/
theorem text_ends_at_zero_hello :
    Resolve.text ⟨"", 1, 1, 0⟩ "hello" = .ok (.literal ⟨"", 1, 1, 0⟩ .text "hello") ∧
      ∃ numeral, textWord "hello" = .ok numeral ∧
        Machine.CutAtZero (Text.bytes "hello") (Word.ofNumeral numeral) := by
  have hok : Resolve.text ⟨"", 1, 1, 0⟩ "hello" = .ok (.literal ⟨"", 1, 1, 0⟩ .text "hello") :=
    rfl
  exact ⟨hok, text_ends_at_zero hok⟩

/-- **A text can lose its length.** Of three bytes with a zero in the middle, one is counted. -/
theorem inner_zero_shortens_text :
    ¬ ∀ (pos : Position) (value numeral : String) (host : Machine.Host) (code : List Yul.Function)
        (rounds : Nat) (s : Machine.State),
      Resolve.text pos value = .ok (.literal pos .text value) → textWord value = .ok numeral →
      32 < rounds → Machine.runFunction host code rounds stringLength [Word.ofNumeral numeral] s
        = .ok [BitVec.ofNat 256 (Text.bytes value).length] s := by
  intro hkept
  let host : Machine.Host := ⟨fun _ => 0, [], 0, fun _ => 0, fun _ => none⟩
  let start : Machine.State := { storage := fun _ => 0 }
  have hok : Resolve.text ⟨"", 1, 1, 0⟩ "a\x00b" = .ok (.literal ⟨"", 1, 1, 0⟩ .text "a\x00b") :=
    rfl
  have hbytes : Text.bytes "a\x00b" = [97, 0, 98] := by decide +kernel
  obtain ⟨numeral, hnumeral, -⟩ :=
    textWord_isWordNumeral (show "a\x00b".utf8ByteSize ≤ 32 by decide +kernel)
  have hthree := hkept _ _ numeral host [] 33 start hok hnumeral (by decide)
  rw [ofNumeral_textWord hnumeral, Word.ofText_eq_packed, hbytes] at hthree
  have hshort : ([97, 0, 98] : List UInt8).length ≤ 32 := by decide
  rw [(Machine.cutAtZero_packed hshort).counted host [] 33 start (by decide)] at hthree
  cases hthree

end Emit

end Covenant
