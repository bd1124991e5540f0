import Covenant.Proofs.Code.Linking
import Covenant.Proofs.Machine.Frames

/-!
# Texts and encodings

A text is one word, its bytes from the left, and its length is the number of bytes before the first
zero. The shared functions find that length, and write a text as its length and, unless it is empty,
its word.

Values are encoded as one word each, and texts behind all the words. What the generated statements
write to memory is that encoding, and nothing in front of it is touched.
-/

namespace Covenant

/-! ## Texts -/

namespace Word

/-- **The length of a text**: the number of bytes before the first zero. -/
def textLength (w : Word) : Nat :=
  w.bytes.findIdx (· = 0)

theorem textLength_le (w : Word) : w.textLength ≤ 32 := by
  have hle : w.textLength ≤ w.bytes.length := List.findIdx_le_length
  rwa [length_bytes] at hle

/-- The number of bytes that a text is written with: those of its length, and of its word unless it
is empty. -/
def textSize (w : Word) : Nat :=
  if w.textLength = 0 then 32 else 64

/-- The operation that picks a byte finds a zero where the byte is zero. -/
theorem byte_eq_zero_iff {w : Word} {i : Nat} (h : i < w.bytes.length) :
    w >>> (8 * (31 - i)) &&& 255 = 0 ↔ w.bytes[i] = 0 := by
  have hbyte : w.bytes[i] = UInt8.ofBitVec (w.extractLsb' (8 * (31 - i)) 8) := by
    simp [bytes]
  have hand : (w >>> (8 * (31 - i)) &&& 255).toNat = w.toNat / 2 ^ (8 * (31 - i)) % 256 := by
    rw [BitVec.toNat_and, BitVec.toNat_ushiftRight, Nat.shiftRight_eq_div_pow]
    exact Nat.and_two_pow_sub_one_eq_mod _ 8
  rw [← BitVec.toNat_inj, hand, ← UInt8.toNat_inj, hbyte, toNat_byte]
  rfl

end Word

namespace Machine

open Emit

section Texts

variable {host : Host} {code : List Yul.Function} {rounds p n r : Nat} {s : State} {w : Word}

/-! ### The length of a text -/

/-- The state in which the length of a text is counted. -/
def lengthState (s : State) (w length : Word) : State :=
  { s with locals := { inner := [("word", w), ("length", length)] } }

/-- Counting stops at a zero. -/
def lengthBody : List Yul.Stmt :=
  [.guard (.isZero (.binary "byte" (.var "length") (.var "word"))) .stop]

/-- The loop that counts. -/
def lengthLoop (run : Apply) (n : Nat) : Nat → Action Flow :=
  iterate (single (eval run (.binary "lt" (.var "length") (.num 32))))
    (inBlock (execAll run n lengthBody))
    (exec run n (.assign "length" (.add (.var "length") (.num 1))))

/-- The loop ends at 32 bytes. -/
theorem lengthLoop_full : lengthLoop (apply host code rounds) n (r + 1) (lengthState s w 32)
    = .ok .next (lengthState s w 32) := by
  simp [lengthLoop, iterate, lengthState, Locals.get?, Table.get?_cons, Word.truth]

section Rounds

variable {length : Word}

/-- The loop ends at a zero byte. -/
theorem lengthLoop_zero (hlength : length.toNat < 32)
    (h : w >>> (8 * (31 - length.toNat)) &&& 255#256 = 0#256) :
    lengthLoop (apply host code rounds) n (r + 1) (lengthState s w length)
      = .ok .next (lengthState s w length) := by
  have hlt : length < 32#256 := hlength
  simp [lengthLoop, lengthBody, iterate, lengthState, Locals.get?, Table.get?_cons, Word.truth, hlt,
    h, Locals.enter, Locals.leave]

/-- The loop goes on behind any other byte. -/
theorem lengthLoop_succ (hlength : length.toNat < 32)
    (h : ¬ w >>> (8 * (31 - length.toNat)) &&& 255#256 = 0#256) :
    lengthLoop (apply host code rounds) n (r + 1) (lengthState s w length)
      = lengthLoop (apply host code rounds) n r (lengthState s w (length + 1)) := by
  have hlt : length < 32#256 := hlength
  simp [lengthLoop, lengthBody, iterate, lengthState, Locals.get?, Table.get?_cons, Word.truth, hlt,
    h, Locals.enter, Locals.leave, Locals.set, Table.set]

/-- **The loop counts the bytes before the first zero.** By induction on the number of bytes to
come; those before have been found not to be zero. -/
theorem lengthLoop_spec {k : Nat} (hk : length.toNat + k = 32) (hr : k < r)
    (hbefore : ∀ i (hi : i < w.bytes.length), i < length.toNat → w.bytes[i] ≠ 0) :
    lengthLoop (apply host code rounds) n r (lengthState s w length)
      = .ok .next (lengthState s w (BitVec.ofNat 256 w.textLength)) := by
  obtain ⟨r, rfl⟩ := Nat.exists_eq_add_of_lt hr
  induction k generalizing length r with
  | zero =>
    -- no byte is zero
    have hall : w.textLength = 32 := by
      rw [Word.textLength, ← w.length_bytes, List.findIdx_eq_length]
      intro b hb
      obtain ⟨i, hi, rfl⟩ := List.getElem_of_mem hb
      rw [Word.length_bytes] at hi
      exact decide_eq_false (hbefore i (by rwa [Word.length_bytes]) (by omega))
    have hlength : length = 32 := BitVec.eq_of_toNat_eq (by simpa using hk)
    rw [hall, hlength]
    exact lengthLoop_full
  | succ k ih =>
    have hlt : length.toNat < 32 := by omega
    have hindex : length.toNat < w.bytes.length := by rwa [Word.length_bytes]
    -- the loop stops at the first zero, and goes on behind any other byte
    by_cases hzero : w.bytes[length.toNat] = 0
    · have hfound : w.textLength = length.toNat := by
        rw [Word.textLength, List.findIdx_eq hindex]
        refine ⟨decide_eq_true hzero, fun j hj => decide_eq_false (hbefore j (by omega) hj)⟩
      rw [hfound, BitVec.ofNat_toNat, BitVec.setWidth_eq]
      exact lengthLoop_zero hlt ((Word.byte_eq_zero_iff hindex).2 hzero)
    · have hnext : (length + 1).toNat = length.toNat + 1 := by
        rw [BitVec.toNat_add]
        have hone : (1 : Word).toNat = 1 := rfl
        omega
      rw [Nat.add_right_comm k 1 r,
        lengthLoop_succ hlt (mt (Word.byte_eq_zero_iff hindex).1 hzero)]
      refine ih (by omega) (fun i hi hlow => ?_) r (by omega)
      rcases Nat.lt_succ_iff_lt_or_eq.1 (hnext ▸ hlow) with hlow | rfl
      · exact hbefore i hi hlow
      · exact hzero

end Rounds

/-- **The length of a text is found.** -/
theorem runFunction_stringLength (hrounds : 32 < rounds) :
    runFunction host code rounds stringLength [w] s = .ok [BitVec.ofNat 256 w.textLength] s := by
  have hloop := @lengthLoop_spec host code rounds rounds rounds s w 0 32 rfl hrounds
    (fun _ _ hlow => absurd hlow (Nat.not_lt_zero _))
  have hexec : exec (apply host code rounds) rounds
      (.loop (.binary "lt" (.var "length") (.num 32))
        (.assign "length" (.add (.var "length") (.num 1))) lengthBody) (lengthState s w 0)
      = .ok .next (lengthState s w (BitVec.ofNat 256 w.textLength)) := by
    rw [exec]
    exact hloop
  have hbody : execAll (apply host code rounds) rounds stringLength.body (lengthState s w 0)
      = .ok .next (lengthState s w (BitVec.ofNat 256 w.textLength)) :=
    (execAll_of_next hexec).trans rfl
  exact @invoke_of_ok stringLength [w] _ s _ _ rfl hbody

/-! ### Writing a text -/

theorem apply_stringLength (hlength : function? code "string_length" = some stringLength)
    (names : List String) (words : List Word) :
    apply host code (rounds + 1) names "string_length" words
      = runFunction host code rounds stringLength words :=
  apply_of_function (by simp [operationNames]) hlength

/-- The memory in which a text was written, its length at one place and its word at the next. -/
def textMemory (m : Memory) (place next : Nat) (w : Word) : Memory :=
  (m.write place (Word.bytes (BitVec.ofNat 256 w.textLength))).write next w.bytes

/-- **A text is written.** The word stands behind the length even if the text is empty, and is not
counted then. -/
theorem runFunction_abiEncodeString (hlength : function? code "string_length" = some stringLength)
    (hrounds : 32 < rounds) (place : Word) :
    runFunction host code (rounds + 1) abiEncodeString [place, w] s
      = .ok [place + BitVec.ofNat 256 w.textSize]
        { s with memory := textMemory s.memory place.toNat (place + 32).toNat w } := by
  have hle := w.textLength_le
  have hzero : BitVec.ofNat 256 w.textLength = 0#256 ↔ w.textLength = 0 := by
    rw [← BitVec.toNat_inj, BitVec.toNat_ofNat]
    simp only [BitVec.toNat_ofNat]
    omega
  rw [runFunction]
  by_cases hempty : w.textLength = 0
  · simp [invoke, abiEncodeString, Yul.Stmt.define, Locals.get?, Locals.set, Locals.declareAll,
      Table.get?_cons, Table.set, Word.truth, apply_stringLength hlength,
      runFunction_stringLength hrounds, hempty, Word.textSize, textMemory]
  · simp [invoke, abiEncodeString, Yul.Stmt.define, Locals.get?, Locals.set, Locals.declareAll,
      Table.get?_cons, Table.set, Word.truth, apply_stringLength hlength,
      runFunction_stringLength hrounds, hempty, hzero, Word.textSize, textMemory]
    exact BitVec.add_assoc place 32 32

end Texts

variable {host : Host} {code : List Yul.Function} {rounds p n : Nat} {s : State}

/-! ## Values in memory -/

/-- The bytes that a text is written with. -/
def textBytes (w : Word) : List UInt8 :=
  Word.bytes (BitVec.ofNat 256 w.textLength) ++ if w.textLength = 0 then [] else w.bytes

/-- The words in front of an encoding: a value itself, or the distance to a text. -/
def encodedHeads (distance : Nat) : List (Ty × Word) → List UInt8
  | [] => []
  | (type, w) :: rest =>
    if isDynamic type then
      Word.bytes (BitVec.ofNat 256 distance) ++ encodedHeads (distance + w.textSize) rest
    else w.bytes ++ encodedHeads distance rest

/-- The texts of an encoding, one behind the other. -/
def encodedTexts (values : List (Ty × Word)) : List UInt8 :=
  (values.filter fun v => isDynamic v.1).flatMap fun v => textBytes v.2

/-- **The encoding of values**: one word for each, and the texts behind all the words. -/
def encoded (values : List (Ty × Word)) : List UInt8 :=
  encodedHeads (32 * values.length) values ++ encodedTexts values

/-- **Values were encoded** from a number on: their words stand behind the place where the encoding
starts, their texts behind where it ended so far, and nothing in front or between was written. -/
structure Encoded (start index finish : Nat) (values : List (Ty × Word)) (before after : Memory) :
    Prop where
  heads : after.read (start + 32 * index) (32 * values.length) =
    encodedHeads (finish - start) values
  texts : after.read finish (encodedTexts values).length = encodedTexts values
  kept : ∀ i, i < start + 32 * index ∨ start + 32 * (index + values.length) ≤ i ∧ i < finish →
    after i = before i

section Encodings

variable {start index finish : Nat} {type : Ty} {values : List (Ty × Word)} {before after : Memory}

theorem length_textBytes (w : Word) : (textBytes w).length = w.textSize := by
  unfold textBytes Word.textSize
  split <;> simp

theorem textSize_le (w : Word) : w.textSize ≤ 64 := by
  unfold Word.textSize
  split <;> omega

theorem length_encodedTexts_le (values : List (Ty × Word)) :
    (encodedTexts values).length ≤ 64 * values.length := by
  induction values with
  | nil => exact Nat.le_refl 0
  | cons v values ih =>
    unfold encodedTexts at ih ⊢
    rw [List.filter_cons]
    split
    · have hsize := textSize_le v.2
      rw [List.flatMap_cons, List.length_append, length_textBytes, List.length_cons]
      omega
    · rw [List.length_cons]
      omega

theorem Encoded.nil : Encoded start index finish [] before before :=
  ⟨rfl, rfl, fun _ _ => rfl⟩

/-- One more value in front: what is written at its place stays there. -/
theorem read_head {bytes : List UInt8} {m : Memory}
    (hbytes : bytes.length = 32)
    (hkept : ∀ i, i < start + 32 * (index + 1) → after i = m.write (start + 32 * index) bytes i) :
    after.read (start + 32 * index) 32 = bytes := by
  rw [Memory.read_congr fun i _ hi => hkept i (by omega), ← hbytes]
  exact m.read_write_self _ _

/-- A word is written at its head. -/
theorem Encoded.word {w : Word} (htype : isDynamic type = false)
    (h : Encoded start (index + 1) finish values (before.write (start + 32 * index) w.bytes)
      after) :
    Encoded start index finish ((type, w) :: values) before after where
  heads := by
    have hfirst := read_head (m := before) w.length_bytes fun i hi => h.kept i (.inl hi)
    have hrest := h.heads
    rw [show start + 32 * (index + 1) = start + 32 * index + 32 by omega] at hrest
    rw [List.length_cons, show 32 * (values.length + 1) = 32 + 32 * values.length by omega,
      Memory.read_append, hfirst, hrest, encodedHeads, if_neg (by simp [htype])]
  texts := by
    have htexts : encodedTexts ((type, w) :: values) = encodedTexts values := by
      simp [encodedTexts, htype]
    rw [htexts]
    exact h.texts
  kept i hi := by
    rw [List.length_cons] at hi
    have hbytes := w.length_bytes
    rcases hi with hi | ⟨hlow, hhigh⟩
    · rw [h.kept i (.inl (by omega)), Memory.write_of_lt _ _ hi]
    · rw [h.kept i (.inr ⟨by omega, hhigh⟩), Memory.write_of_ge _ _ (by omega)]

/-- The length of a text is read from where the text was written. -/
theorem read_textMemory_length (m : Memory) (place : Nat) (w : Word) :
    (textMemory m place (place + 32) w).read place 32 =
      Word.bytes (BitVec.ofNat 256 w.textLength) := by
  have hbytes : (Word.bytes (BitVec.ofNat 256 w.textLength)).length = 32 := Word.length_bytes _
  rw [textMemory, Memory.read_write_of_le _ _ (Nat.le_refl _), ← hbytes]
  exact m.read_write_self _ _

/-- The word of a text is read from behind its length. -/
theorem read_textMemory_word (m : Memory) (place : Nat) (w : Word) :
    (textMemory m place (place + 32) w).read (place + 32) 32 = w.bytes :=
  (m.write place _).read_write_self (place + 32) w.bytes

/-- A text that was written is read. -/
theorem read_textMemory (m : Memory) (place : Nat) (w : Word) :
    (textMemory m place (place + 32) w).read place w.textSize = textBytes w := by
  unfold Word.textSize textBytes
  split
  · rw [read_textMemory_length, List.append_nil]
  · rw [show 64 = 32 + 32 from rfl, Memory.read_append, read_textMemory_length,
      read_textMemory_word]

theorem textMemory_of_lt {m : Memory} {place i : Nat} (w : Word) (h : i < place) :
    textMemory m place (place + 32) w i = m i := by
  rw [textMemory, Memory.write_of_lt _ _ (by omega), Memory.write_of_lt _ _ h]

/-- A text is written behind the heads, and its place at its head. -/
theorem Encoded.text {w : Word} (htype : isDynamic type = true)
    (hle : start + 32 * (index + 1 + values.length) ≤ finish)
    (h : Encoded start (index + 1) (finish + w.textSize) values
      (textMemory (before.write (start + 32 * index)
        (Word.bytes (BitVec.ofNat 256 (finish - start)))) finish (finish + 32) w) after) :
    Encoded start index finish ((type, w) :: values) before after where
  heads := by
    have hkept (i : Nat) (hi : i < start + 32 * (index + 1)) : after i =
        before.write (start + 32 * index) (Word.bytes (BitVec.ofNat 256 (finish - start))) i := by
      rw [h.kept i (.inl hi), textMemory_of_lt w (by omega)]
    have hfirst := read_head (Word.length_bytes _) hkept
    have hrest := h.heads
    rw [show start + 32 * (index + 1) = start + 32 * index + 32 by omega] at hrest
    rw [List.length_cons, show 32 * (values.length + 1) = 32 + 32 * values.length by omega,
      Memory.read_append, hfirst, hrest, encodedHeads, if_pos htype]
    congr 2
    omega
  texts := by
    have htexts : encodedTexts ((type, w) :: values) = textBytes w ++ encodedTexts values := by
      simp [encodedTexts, htype]
    have hfirst : after.read finish w.textSize = textBytes w := by
      rw [← read_textMemory (before.write (start + 32 * index)
        (Word.bytes (BitVec.ofNat 256 (finish - start)))) finish w]
      exact Memory.read_congr fun i hlow hhigh => h.kept i (.inr ⟨by omega, hhigh⟩)
    rw [htexts, List.length_append, length_textBytes, Memory.read_append, hfirst, h.texts]
  kept i hi := by
    rw [List.length_cons] at hi
    have hbytes := Word.length_bytes (BitVec.ofNat 256 (finish - start))
    rcases hi with hi | ⟨hlow, hhigh⟩
    · rw [h.kept i (.inl (by omega)), textMemory_of_lt w (by omega), Memory.write_of_lt _ _ hi]
    · rw [h.kept i (.inr ⟨by omega, by omega⟩), textMemory_of_lt w hhigh,
        Memory.write_of_ge _ _ (by omega)]

end Encodings

/-! ## The generated statements -/

section Operands

variable {run : Apply} {e f : Yul.Expr} {v w : Word}

theorem evalArgs_single (hunquoted : ∀ name, e ≠ .quoted name)
    (h : eval run e s = .ok [w] s) : evalArgs run [e] s = .ok [w] s := by
  rw [evalArgs_cons _ _ hunquoted]
  simp [h]

theorem evalArgs_pair (hunquoted : ∀ name, e ≠ .quoted name)
    (hunquoted' : ∀ name, f ≠ .quoted name) (h : eval run e s = .ok [v] s)
    (h' : eval run f s = .ok [w] s) : evalArgs run [e, f] s = .ok [v, w] s := by
  rw [evalArgs_cons _ _ hunquoted, bind_apply, evalArgs_single hunquoted' h']
  simp [h]

theorem eval_add (hunquoted : ∀ name, e ≠ .quoted name) (hunquoted' : ∀ name, f ≠ .quoted name)
    (h : eval (apply host code rounds) e s = .ok [v] s)
    (h' : eval (apply host code rounds) f s = .ok [w] s) :
    eval (apply host code rounds) (.add e f) s = .ok [v + w] s := by
  rw [Yul.Expr.add, Yul.Expr.binary, eval, bind_apply, evalArgs_pair hunquoted hunquoted' h h']
  simp

theorem eval_sub (hunquoted : ∀ name, e ≠ .quoted name) (hunquoted' : ∀ name, f ≠ .quoted name)
    (h : eval (apply host code rounds) e s = .ok [v] s)
    (h' : eval (apply host code rounds) f s = .ok [w] s) :
    eval (apply host code rounds) (.sub e f) s = .ok [v - w] s := by
  rw [Yul.Expr.sub, Yul.Expr.binary, eval, bind_apply, evalArgs_pair hunquoted hunquoted' h h']
  simp

theorem exec_mstore {place value : Word} (hunquoted : ∀ name, e ≠ .quoted name)
    (hunquoted' : ∀ name, f ≠ .quoted name)
    (he : eval (apply host code rounds) e s = .ok [place] s)
    (hf : eval (apply host code rounds) f s = .ok [value] s) :
    exec (apply host code rounds) n (.mstore e f) s
      = .ok .next { s with memory := s.memory.write place.toNat value.bytes } := by
  rw [Yul.Stmt.mstore, Yul.Stmt.run, exec, bind_apply, eval, bind_apply,
    evalArgs_pair hunquoted hunquoted' he hf]
  simp

theorem head_ne_quoted (h : ∀ name, e ≠ .quoted name) (index : Nat) (name : String) :
    head e index ≠ .quoted name := by
  unfold head
  split
  · exact h name
  · simp

/-- The place of the word of a number. -/
theorem eval_head (hunquoted : ∀ name, e ≠ .quoted name)
    (h : eval (apply host code rounds) e s = .ok [v] s) (index : Nat) :
    eval (apply host code rounds) (head e index) s
      = .ok [v + BitVec.ofNat 256 (32 * index)] s := by
  unfold head
  split
  · rename_i hindex
    simpa [hindex] using h
  · exact eval_add hunquoted (by simp) h (by simp)

end Operands

/-- **An expression keeps its word**, whatever is written to memory and to one variable. -/
structure Steady (run : Apply) (stop : String) (s : State) (e : Yul.Expr) (w : Word) : Prop where
  unquoted : ∀ name, e ≠ .quoted name
  word : ∀ t : State, (∀ name, name ≠ stop → t.locals.get? name = s.locals.get? name) →
    eval run e t = .ok [w] t

namespace Steady

variable {stop name : String} {t : State} {e f : Yul.Expr} {v w : Word}

theorem eval_eq {run : Apply} (h : Steady run stop s e w) : eval run e s = .ok [w] s :=
  h.word s fun _ _ => rfl

theorem congr {run : Apply} (h : Steady run stop s e w)
    (ht : ∀ name, name ≠ stop → t.locals.get? name = s.locals.get? name) :
    Steady run stop t e w :=
  ⟨h.unquoted, fun u hu => h.word u fun name hname => (hu name hname).trans (ht name hname)⟩

theorem var {run : Apply} (hname : name ≠ stop) (hw : s.locals.get? name = some w) :
    Steady run stop s (.var name) w :=
  ⟨by simp, fun t ht => by simp [ht name hname, hw]⟩

theorem num {run : Apply} (n : Nat) : Steady run stop s (.num n) (BitVec.ofNat 256 n) :=
  ⟨by simp, fun t _ => by simp⟩

theorem add (he : Steady (apply host code rounds) stop s e v)
    (hf : Steady (apply host code rounds) stop s f w) :
    Steady (apply host code rounds) stop s (.add e f) (v + w) :=
  ⟨by simp, fun t ht => eval_add he.unquoted hf.unquoted (he.word t ht) (hf.word t ht)⟩

end Steady

theorem toNat_head {start : Word} {index : Nat} (h : start.toNat + 32 * index < 2 ^ 256) :
    (start + BitVec.ofNat 256 (32 * index)).toNat = start.toNat + 32 * index := by
  rw [BitVec.toNat_add, BitVec.toNat_ofNat]
  omega

/-- The functions for texts are there if there is a text to write. -/
def HasTexts (code : List Yul.Function) (types : List Ty) : Prop :=
  types.any isDynamic →
    function? code "abi_encode_string" = some abiEncodeString ∧
      function? code "string_length" = some stringLength

/-- Texts are encoded by a function. -/
theorem mem_calls_encodeFrom {stop : String} {start : Yul.Expr} {values : List (Ty × Yul.Expr)}
    (index : Nat) (h : values.any fun value => isDynamic value.1) :
    "abi_encode_string" ∈ Yul.Stmt.callsAll (encodeFrom stop start index values) := by
  induction values generalizing index with
  | nil => cases h
  | cons value values ih =>
    obtain ⟨type, value⟩ := value
    rw [encodeFrom, Yul.Stmt.mem_callsAll]
    rw [List.any_cons, Bool.or_eq_true] at h
    rcases h with h | h
    · refine ⟨.assign stop (.binary "abi_encode_string" (.var stop) value), ?_, ?_⟩
      · simp [encodeOne, h]
      · simp [Yul.Stmt.calls, Yul.Expr.calls]
    · obtain ⟨c, hc, hname⟩ := Yul.Stmt.mem_callsAll.1 (ih (index + 1) h)
      exact ⟨c, List.mem_append_right _ hc, hname⟩

section Statements

variable {stop name : String} {e : Yul.Expr} {start finish w : Word} {index : Nat} {type : Ty}

/-- A value that is one word is written at its place. -/
theorem execAll_encodeOne_word (htype : isDynamic type = false)
    (hstart : Steady (apply host code rounds) stop s e start)
    (hw : s.locals.get? name = some w) (hroom : start.toNat + 32 * index < 2 ^ 256) :
    execAll (apply host code rounds) n (encodeOne stop e index type (.var name)) s
      = .ok .next { s with memory := s.memory.write (start.toNat + 32 * index) w.bytes } := by
  have hread : eval (apply host code rounds) (.var name) s = .ok [w] s := by
    simp [hw]
  have hstore := exec_mstore (n := n) (head_ne_quoted hstart.unquoted index) (by simp)
    (eval_head hstart.unquoted hstart.eval_eq index) hread
  rw [toNat_head hroom] at hstore
  rw [encodeOne, if_neg (by simp [htype])]
  exact execAll_of_next hstore

/-- **A text is written behind what was encoded so far**, and the distance to it at its place. -/
theorem execAll_encodeOne_text (htype : isDynamic type = true)
    (hencode : function? code "abi_encode_string" = some abiEncodeString)
    (hlength : function? code "string_length" = some stringLength) (hrounds : 32 < rounds)
    (hstart : Steady (apply host code (rounds + 2)) stop s e start)
    (hfinish : s.locals.get? stop = some finish) (hw : s.locals.get? name = some w)
    (hle : start.toNat + 32 * index ≤ finish.toNat) (hroom : finish.toNat + 32 < 2 ^ 256) :
    execAll (apply host code (rounds + 2)) n (encodeOne stop e index type (.var name)) s
      = .ok .next { s with
          memory := textMemory (s.memory.write (start.toNat + 32 * index)
            (Word.bytes (BitVec.ofNat 256 (finish.toNat - start.toNat)))) finish.toNat
            (finish.toNat + 32) w
          locals := s.locals.set stop (finish + BitVec.ofNat 256 w.textSize) } := by
  have hnext : (finish + 32).toNat = finish.toNat + 32 := by
    rw [BitVec.toNat_add]
    exact Nat.mod_eq_of_lt hroom
  have hdistance : finish - start = BitVec.ofNat 256 (finish.toNat - start.toNat) := by
    apply BitVec.eq_of_toNat_eq
    rw [BitVec.toNat_sub, BitVec.toNat_ofNat]
    omega
  have hread : eval (apply host code (rounds + 2)) (.sub (.var stop) e) s
      = .ok [finish - start] s :=
    eval_sub (by simp) hstart.unquoted (by simp [hfinish]) hstart.eval_eq
  have hstore := exec_mstore (n := n) (head_ne_quoted hstart.unquoted index)
    (by simp [Yul.Expr.sub]) (eval_head hstart.unquoted hstart.eval_eq index) hread
  rw [toNat_head (by omega), hdistance] at hstore
  rw [encodeOne, if_pos htype, execAll_of_next hstore]
  have hrun (t : State) := @runFunction_abiEncodeString host code rounds t w hlength hrounds finish
  rw [hnext] at hrun
  simp [hfinish, hw, hrun,
    apply_of_function (show "abi_encode_string" ∉ operationNames by decide) hencode]

end Statements

/-- **The generated statements encode values.** -/
theorem execAll_encodeFrom {stop : String} {e : Yul.Expr} (hrounds : 32 < rounds)
    {start finish : Word} {index : Nat} {values : List (Ty × String × Word)}
    (htexts : HasTexts code (values.map Prod.fst))
    (hstart : Steady (apply host code (rounds + 2)) stop s e start)
    (hfinish : s.locals.get? stop = some finish)
    (hvars : ∀ v ∈ values, v.2.1 ≠ stop ∧ s.locals.get? v.2.1 = some v.2.2)
    (hle : start.toNat + 32 * (index + values.length) ≤ finish.toNat)
    (hroom : finish.toNat + 64 * values.length < 2 ^ 256) :
    ∃ memory locals, execAll (apply host code (rounds + 2)) n
        (encodeFrom stop e index (values.map fun v => (v.1, .var v.2.1))) s
          = .ok .next { s with memory, locals } ∧
      (∀ name, name ≠ stop → locals.get? name = s.locals.get? name) ∧
      locals.get? stop = some (BitVec.ofNat 256 (finish.toNat +
        (encodedTexts (values.map fun v => (v.1, v.2.2))).length)) ∧
      Encoded start.toNat index finish.toNat (values.map fun v => (v.1, v.2.2)) s.memory
        memory := by
  induction values generalizing s finish index with
  | nil =>
    refine ⟨s.memory, s.locals, rfl, fun _ _ => rfl, ?_, .nil⟩
    rw [hfinish]
    simp [encodedTexts]
  | cons v values ih =>
    obtain ⟨type, name, w⟩ := v
    obtain ⟨⟨hname, hw⟩, hrest⟩ := List.forall_mem_cons.1 hvars
    rw [List.length_cons] at hle hroom
    have hmore : HasTexts code (values.map Prod.fst) := fun h => htexts (by simp_all)
    rw [List.map_cons, List.map_cons, encodeFrom]
    cases htype : isDynamic type with
    | false =>
      have hfirst := @execAll_encodeOne_word host code (rounds + 2) n s stop name e start w index
        type htype hstart hw (by omega)
      obtain ⟨memory, locals, hexec, hkept, hstop', hencoded⟩ := @ih
        { s with memory := s.memory.write (start.toNat + 32 * index) w.bytes } finish (index + 1)
        hmore (hstart.congr fun _ _ => rfl) hfinish hrest (by omega) (by omega)
      refine ⟨memory, locals, (execAll_append hfirst _).trans hexec, hkept, ?_,
        .word htype hencoded⟩
      rw [hstop']
      simp [encodedTexts, htype]
    | true =>
      obtain ⟨hencode, hlength⟩ := htexts (by simp [htype])
      have hsize := textSize_le w
      have hend : (finish + BitVec.ofNat 256 w.textSize).toNat = finish.toNat + w.textSize := by
        rw [BitVec.toNat_add, BitVec.toNat_ofNat]
        omega
      have hfirst := @execAll_encodeOne_text host code rounds n s stop name e start finish w index
        type htype hencode hlength hrounds hstart hfinish hw (by omega) (by omega)
      -- the variable for the end is the only one that was set
      have hset {other : String} (hother : other ≠ stop) :
          (s.locals.set stop (finish + BitVec.ofNat 256 w.textSize)).get? other
            = s.locals.get? other :=
        s.locals.get?_set_of_ne _ hother
      obtain ⟨memory, locals, hexec, hkept, hstop', hencoded⟩ := @ih
        { s with
          memory := textMemory (s.memory.write (start.toNat + 32 * index)
            (Word.bytes (BitVec.ofNat 256 (finish.toNat - start.toNat)))) finish.toNat
            (finish.toNat + 32) w
          locals := s.locals.set stop (finish + BitVec.ofNat 256 w.textSize) }
        (finish + BitVec.ofNat 256 w.textSize) (index + 1) hmore
        (hstart.congr fun _ => hset) (s.locals.get?_set_self _ hfinish)
        (fun v hv => ⟨(hrest v hv).1, (hset (hrest v hv).1).trans (hrest v hv).2⟩)
        (by omega) (by omega)
      rw [hend] at hstop' hencoded
      refine ⟨memory, locals, (execAll_append hfirst _).trans hexec,
        fun name hname => (hkept name hname).trans (hset hname), ?_,
        .text htype (by simp; omega) hencoded⟩
      rw [hstop']
      simp [encodedTexts, htype, length_textBytes, Nat.add_assoc]

/-- The length of an encoding, texts included. -/
theorem length_encodedHeads (distance : Nat) (values : List (Ty × Word)) :
    (encodedHeads distance values).length = 32 * values.length := by
  induction values generalizing distance with
  | nil => rfl
  | cons v values ih =>
    obtain ⟨type, w⟩ := v
    rw [encodedHeads]
    split <;> simp only [List.length_append, Word.length_bytes, ih, List.length_cons] <;> omega

theorem length_encoded (values : List (Ty × Word)) :
    (encoded values).length = 32 * values.length + (encodedTexts values).length := by
  rw [encoded, List.length_append, length_encodedHeads]

/-- **What was encoded in full is read.** -/
theorem Encoded.read_eq {start : Nat} {values : List (Ty × Word)} {before after : Memory}
    (h : Encoded start 0 (start + 32 * values.length) values before after) :
    after.read start (encoded values).length = encoded values := by
  have hheads := h.heads
  rw [Nat.mul_zero, Nat.add_zero, Nat.add_sub_cancel_left] at hheads
  rw [length_encoded, Memory.read_append, hheads, h.texts, encoded]

/-- A name that was declared last is found, and the others are as they were. -/
theorem get?_declareAll_singleton (l : Locals Word) (name other : String) (w : Word) :
    (l.declareAll [(name, w)]).get? other = if other = name then some w else l.get? other := by
  simp [Locals.get?, Locals.declareAll, Table.get?_cons]

/-- **An encoding is written where it is to start**, and one variable tells where it ends. Nothing
in front of it is touched. -/
theorem execAll_encode {stop : String} {e : Yul.Expr} (hrounds : 32 < rounds) {start : Word}
    {values : List (Ty × String × Word)} (htexts : HasTexts code (values.map Prod.fst))
    (hstart : Steady (apply host code (rounds + 2)) stop s e start)
    (hvars : ∀ v ∈ values, v.2.1 ≠ stop ∧ s.locals.get? v.2.1 = some v.2.2)
    (hroom : start.toNat + 96 * values.length < 2 ^ 256) :
    ∃ memory locals, execAll (apply host code (rounds + 2)) n
        (encode stop e (values.map fun v => (v.1, .var v.2.1))) s
          = .ok .next { s with memory, locals } ∧
      (∀ name, name ≠ stop → locals.get? name = s.locals.get? name) ∧
      locals.get? stop = some (start + BitVec.ofNat 256
        (encoded (values.map fun v => (v.1, v.2.2))).length) ∧
      memory.read start.toNat (encoded (values.map fun v => (v.1, v.2.2))).length
        = encoded (values.map fun v => (v.1, v.2.2)) ∧
      ∀ i, i < start.toNat → memory i = s.memory i := by
  have hfinish : (start + BitVec.ofNat 256 (32 * values.length)).toNat
      = start.toNat + 32 * values.length :=
    toNat_head (by omega)
  have hlength := length_encoded (values.map fun v => (v.1, v.2.2))
  rw [List.length_map] at hlength
  have hdefine : exec (apply host code (rounds + 2)) n
      (.define stop (.add e (.num (32 * values.length)))) s = .ok .next { s with
        locals := s.locals.declareAll [(stop, start + BitVec.ofNat 256 (32 * values.length))] } :=
    exec_define_of_ok (hstart.add (.num _)).eval_eq
  -- the variable for the end is the only one that is new
  have hnew {name : String} (hname : name ≠ stop) :
      (s.locals.declareAll [(stop, start + BitVec.ofNat 256 (32 * values.length))]).get? name
        = s.locals.get? name := by
    rw [get?_declareAll_singleton, if_neg hname]
  obtain ⟨memory, locals, hexec, hkept, hstop, hencoded⟩ := @execAll_encodeFrom host code rounds n
    { s with locals :=
        s.locals.declareAll [(stop, start + BitVec.ofNat 256 (32 * values.length))] }
    stop e hrounds start _ 0 values htexts (hstart.congr fun _ => hnew)
    (by rw [get?_declareAll_singleton, if_pos rfl])
    (fun v hv => ⟨(hvars v hv).1, (hnew (hvars v hv).1).trans (hvars v hv).2⟩)
    (by rw [hfinish]; omega) (by rw [hfinish]; omega)
  rw [hfinish] at hstop hencoded
  refine ⟨memory, locals, ?_, fun name hname => (hkept name hname).trans (hnew hname), ?_,
    Encoded.read_eq (by simpa using hencoded), fun i hi => hencoded.kept i (.inl (by omega))⟩
  · rw [encode, List.length_map, execAll_of_next hdefine, ← hexec]
  · rw [hstop, hlength, Nat.add_assoc, BitVec.ofNat_add, BitVec.ofNat_toNat, BitVec.setWidth_eq]

/-! ## Logging -/

/-- The values that an event is logged with, by the names of its parameters. -/
def eventValues (e : Event) (words : List Word) : List (Ty × String × Word) :=
  (e.params.zip words).map fun v => (v.1.type, localName v.1.name, v.2)

section Events

variable {e : Event} {words : List Word}

theorem eventValues_vars (hcount : e.params.length = words.length) :
    (eventValues e words).map (fun v => (v.1, Yul.Expr.var v.2.1)) =
      typedVars (e.params.map Typed.type) (Context.paramNames e.params) := by
  have hfst : (e.params.zip words).map Prod.fst = e.params :=
    List.map_fst_zip (Nat.le_of_eq hcount)
  simp only [eventValues, List.map_map, typedVars, Context.paramNames]
  rw [List.zip_map', ← congrArg (List.map _) hfst, List.map_map]
  rfl

theorem eventValues_types (hcount : e.params.length = words.length) :
    (eventValues e words).map Prod.fst = e.params.map Typed.type := by
  have hfst : (e.params.zip words).map Prod.fst = e.params :=
    List.map_fst_zip (Nat.le_of_eq hcount)
  rw [eventValues, List.map_map, ← congrArg (List.map Typed.type) hfst, List.map_map]
  rfl

theorem eventValues_words (e : Event) (words : List Word) :
    (eventValues e words).map (fun v => (v.1, v.2.2)) = (e.params.map Typed.type).zip words := by
  rw [eventValues, List.map_map, List.zip_map_left]
  rfl

theorem length_eventValues (hcount : e.params.length = words.length) :
    (eventValues e words).length = words.length := by
  rw [eventValues, List.length_map, List.length_zip, hcount, Nat.min_self]

/-- The variable for the end of an encoding is no other one. -/
theorem endName_ne (number : Nat) (name : String) :
    endName number ≠ "ptr" ∧ localName name ≠ endName number ∧ localName name ≠ "ptr" := by
  refine ⟨fun h => ?_, fun h => ?_, fun h => ?_⟩ <;>
    · have hlist := congrArg String.toList h
      simp [endName, localName] at hlist

/-- The parameters are found, also when the place where the encoding starts has been declared. -/
theorem get?_eventValues {number : Nat} {start : Word} (hcount : e.params.length = words.length)
    (hnames : (Context.paramNames e.params).Nodup) :
    ∀ v ∈ eventValues e words, v.2.1 ≠ endName number ∧
      Locals.get? { inner := ("ptr", start) :: (Context.paramNames e.params).zip words } v.2.1
        = some v.2.2 := by
  intro v hv
  obtain ⟨⟨q, w⟩, hq, rfl⟩ := List.mem_map.1 hv
  obtain ⟨-, hend, hptr⟩ := endName_ne number q.name
  refine ⟨hend, ?_⟩
  have hmem : (localName q.name, w) ∈ (Context.paramNames e.params).zip words := by
    rw [Context.paramNames, List.zip_map_left]
    exact List.mem_map.2 ⟨(q, w), hq, rfl⟩
  have hfst : ((Context.paramNames e.params).zip words).map Prod.fst
      = Context.paramNames e.params :=
    List.map_fst_zip (by simp [Context.paramNames, hcount])
  simp only [Locals.get?, List.flatten_nil, List.append_nil, Table.get?_cons, if_neg hptr]
  exact Table.get?_of_mem (by rwa [hfst]) hmem

/-- The encoding of an event is found where the two variables say. -/
structure EventEncoded (p : Nat) (e : Event) (number : Nat) (words : List Word) (before : Memory)
    (memory : Memory) (locals : Locals Word) : Prop where
  start : locals.get? "ptr" = some (BitVec.ofNat 256 p)
  finish : locals.get? (endName number) = some (BitVec.ofNat 256
    (p + (encoded ((e.params.map Typed.type).zip words)).length))
  data : memory.read p (encoded ((e.params.map Typed.type).zip words)).length
    = encoded ((e.params.map Typed.type).zip words)
  kept : ∀ i, i < p → memory i = before i

theorem execAll_eventEncoding (number : Nat) (hcount : e.params.length = words.length)
    (hnames : (Context.paramNames e.params).Nodup)
    (htexts : HasTexts code (e.params.map Typed.type)) (hrounds : 32 < rounds)
    (hfree : s.memory.read 64 32 = Word.bytes (BitVec.ofNat 256 p))
    (hroom : p + 96 * words.length < 2 ^ 256)
    (hlocals : s.locals = { inner := (Context.paramNames e.params).zip words }) :
    ∃ memory locals, execAll (apply host code (rounds + 2)) n
        (.define "ptr" .free :: encode (endName number) (.var "ptr")
          (typedVars (e.params.map Typed.type) (Context.paramNames e.params))) s
        = .ok .next { s with memory, locals } ∧
      EventEncoded p e number words s.memory memory locals := by
  have hp : (BitVec.ofNat 256 p).toNat = p := Word.toNat_ofNat (by omega)
  have hend := (endName_ne number "").1
  have hfirst : exec (apply host code (rounds + 2)) n (.define "ptr" .free) s
      = .ok .next { s with locals :=
          { inner := ("ptr", BitVec.ofNat 256 p) :: (Context.paramNames e.params).zip words } } := by
    simp [Yul.Stmt.define, Yul.Expr.free, hfree, Word.ofBytes_bytes, Locals.declareAll, hlocals]
  have hptr : Locals.get? { inner := ("ptr", BitVec.ofNat 256 p)
      :: (Context.paramNames e.params).zip words } "ptr" = some (BitVec.ofNat 256 p) := by
    simp [Locals.get?, Table.get?_cons]
  rw [← eventValues_types hcount] at htexts
  obtain ⟨memory, locals, hencode, hkept, hstop, hread, hbefore⟩ := @execAll_encode host code
    rounds n { s with locals :=
        { inner := ("ptr", BitVec.ofNat 256 p) :: (Context.paramNames e.params).zip words } }
    (endName number) (.var "ptr") hrounds (BitVec.ofNat 256 p) (eventValues e words) htexts
    (.var hend.symm hptr) (get?_eventValues hcount hnames)
    (by rwa [hp, length_eventValues hcount])
  rw [hp] at hread hbefore
  rw [eventValues_words] at hstop hread
  refine ⟨memory, locals, ?_, (hkept "ptr" hend.symm).trans hptr, ?_, hread, hbefore⟩
  · rw [execAll_of_next hfirst, ← eventValues_vars hcount, hencode]
  · rw [hstop, BitVec.ofNat_add]

/-- **The function of an event logs it**: its arguments are encoded behind the free place, and what
lies below stays. -/
theorem runFunction_eventDefinition (number : Nat) (hcount : e.params.length = words.length)
    (hnames : (Context.paramNames e.params).Nodup)
    (htexts : HasTexts code (e.params.map Typed.type)) (hrounds : 32 < rounds)
    (hfree : s.memory.read 64 32 = Word.bytes (BitVec.ofNat 256 p))
    (hroom : p + 96 * words.length < 2 ^ 256) :
    ∃ memory, runFunction host code (rounds + 2) (eventDefinition e number) words s
        = .ok [] { s with
            memory
            logs := s.logs ++ [(encoded ((e.params.map Typed.type).zip words),
              [Word.ofNumeral (Abi.topic (Abi.eventSignature e))])] } ∧
      ∀ i, i < p → memory i = s.memory i := by
  obtain ⟨memory, locals, hencode, hencoded⟩ := @execAll_eventEncoding host code rounds p
    (rounds + 2) { s with locals := { inner := (Context.paramNames e.params).zip words } } e words
    number hcount hnames htexts hrounds hfree hroom rfl
  refine ⟨memory, ?_, hencoded.kept⟩
  have hvalues := length_encoded ((e.params.map Typed.type).zip words)
  have htextBytes := length_encodedTexts_le ((e.params.map Typed.type).zip words)
  have hle : ((e.params.map Typed.type).zip words).length = words.length := by
    simp [hcount]
  have hp : (BitVec.ofNat 256 p).toNat = p := Word.toNat_ofNat (by omega)
  have hsize : (BitVec.ofNat 256 (p + (encoded ((e.params.map Typed.type).zip words)).length)
      - BitVec.ofNat 256 p).toNat = (encoded ((e.params.map Typed.type).zip words)).length := by
    rw [Word.ofNat_add_sub_ofNat, Word.toNat_ofNat (by omega)]
  have hbody : execAll (apply host code (rounds + 2)) (rounds + 2) (eventDefinition e number).body
      { s with locals := { inner := (Context.paramNames e.params).zip words } }
      = .ok .next { s with
          memory
          logs := s.logs ++ [(encoded ((e.params.map Typed.type).zip words),
            [Word.ofNumeral (Abi.topic (Abi.eventSignature e))])]
          locals } := by
    refine (execAll_append hencode _).trans ?_
    simp [hencoded.start, hencoded.finish, logOne, Yul.Expr.sub, hp, hsize, hencoded.data]
  rw [runFunction, invoke_of_ok (by simp [eventDefinition, Context.paramNames, hcount])
    (by simpa [eventDefinition] using hbody)]
  rfl

end Events

/-! ## Messages -/

/-- **Throwing reverts**, whatever the message is and wherever it is written. -/
theorem reverts_revertError (hencode : function? code "abi_encode_string" = some abiEncodeString)
    (hlength : function? code "string_length" = some stringLength) (hrounds : 32 < rounds)
    (message : Word) : Reverts (runFunction host code (rounds + 2) revertError [message]) s := by
  have hrun (t : State) (place : Word) :=
    @runFunction_abiEncodeString host code rounds t message hlength hrounds place
  refine Reverts.invoke rfl ?_
  unfold Reverts
  simp [revertError, Yul.Stmt.define, Yul.Expr.free, Yul.Expr.sub, Locals.declareAll, Locals.get?,
    Table.get?_cons, hrun,
    apply_of_function (show "abi_encode_string" ∉ operationNames by decide) hencode]

end Machine

end Covenant
