import Covenant.Proofs.Machine.Encoding

/-!
# Decoding

Reading an encoding gives back what was written. Both ways to read one, from the arguments of a call
and from memory, look at words at some distance from where the encoding starts (`Shows`); so what
stands at which distance is found out once.
-/

namespace Covenant

namespace Word

/-- **A word is a text**: its bytes from the first zero on are all zero. -/
def IsText (w : Word) : Prop :=
  ∀ b ∈ w.bytes.drop w.textLength, b = 0

variable {w : Word}

/-- A text is its bytes with zeros behind them. -/
theorem IsText.bytes_eq (hw : w.IsText) :
    w.bytes = w.bytes.take w.textLength ++ List.replicate (32 - w.textLength) 0 := by
  have hzeros : w.bytes.drop w.textLength = List.replicate (32 - w.textLength) 0 :=
    List.eq_replicate_iff.2 ⟨by simp, hw⟩
  rw [← hzeros, List.take_append_drop]

/-- Clearing all bits below a byte leaves the bytes in front of them. -/
theorem bytes_and_mask (w : Word) {k : Nat} (hk : k ≤ 32) :
    (w &&& (BitVec.allOnes 256 <<< (8 * (32 - k)))).bytes
      = w.bytes.take k ++ List.replicate (32 - k) 0 := by
  refine List.ext_getElem (by simp [hk]) fun i hi hi' => ?_
  rw [length_bytes] at hi
  have hget (v : Word) (h : i < v.bytes.length) :
      v.bytes[i] = UInt8.ofBitVec (v.extractLsb' (8 * (31 - i)) 8) := by
    simp [bytes]
  by_cases hfront : i < k
  · rw [List.getElem_append_left (by simp; omega), List.getElem_take, hget, hget]
    congr 1
    refine BitVec.eq_of_getLsbD_eq fun j hj => ?_
    simp only [BitVec.getLsbD_extractLsb', BitVec.getLsbD_and, BitVec.getLsbD_shiftLeft,
      BitVec.getLsbD_allOnes]
    have h1 : 8 * (31 - i) + j < 256 := by omega
    have h2 : ¬ 8 * (31 - i) + j < 8 * (32 - k) := by omega
    have h3 : 8 * (31 - i) + j - 8 * (32 - k) < 256 := by omega
    simp [h1, h2, h3]
  · rw [List.getElem_append_right (by simp; omega), List.getElem_replicate, hget]
    refine congrArg UInt8.ofBitVec (BitVec.eq_of_getLsbD_eq fun j hj => ?_)
    simp only [BitVec.getLsbD_extractLsb', BitVec.getLsbD_and, BitVec.getLsbD_shiftLeft,
      BitVec.getLsbD_allOnes]
    have h2 : 8 * (31 - i) + j < 8 * (32 - k) := by omega
    simp [h2]

end Word

namespace Machine

open Emit

variable {host : Host} {code : List Yul.Function} {rounds n : Nat} {s : State} {w : Word}

/-- **A word is a value of a type**: a truth value, an address or a text, where the type asks for
one. -/
def Fits : Ty → Word → Prop
  | .boolean, w => w.toNat ≤ 1
  | .address _, w => w.toNat < 2 ^ 160
  | .text, w => w.IsText
  | _, _ => True

/-! ## The functions that decode -/

theorem runFunction_validateAddress (h : w.toNat < 2 ^ 160) :
    runFunction host code rounds validateAddress [w] s = .ok [w] s := by
  have hshift : w >>> 160 = 0#256 := by
    apply BitVec.eq_of_toNat_eq
    rw [BitVec.toNat_ushiftRight, Nat.shiftRight_eq_div_pow]
    exact Nat.div_eq_of_lt h
  simp [runFunction, invoke, validateAddress, revertIf, Locals.get?, Table.get?_cons, Locals.set,
    Table.set, hshift]

theorem runFunction_validateBool (h : w.toNat ≤ 1) :
    runFunction host code rounds validateBool [w] s = .ok [w] s := by
  have hle : ¬ 1#256 < w := by
    rw [BitVec.lt_def]
    simpa using h
  simp [runFunction, invoke, validateBool, revertIf, Locals.get?, Table.get?_cons, Locals.set,
    Table.set, Word.truth, hle]

/-- What is left of a word when the bytes behind a length are cleared. -/
def masked (w length : Word) : Word :=
  w &&& if 8#256 * (32#256 - length) < 256#256 then
    (~~~0#256) <<< (8#256 * (32#256 - length)).toNat else 0#256

theorem masked_ofNat (w : Word) {k : Nat} (hk : k ≤ 32) :
    masked w (BitVec.ofNat 256 k) = w &&& (BitVec.allOnes 256 <<< (8 * (32 - k))) := by
  have hshift : (8#256 * (32#256 - BitVec.ofNat 256 k)).toNat = 8 * (32 - k) := by
    rw [BitVec.toNat_mul, BitVec.toNat_sub]
    simp only [BitVec.toNat_ofNat]
    omega
  rw [masked]
  by_cases hempty : k = 0
  · rw [if_neg (by rw [BitVec.lt_def, hshift]; simp; omega), hempty, Nat.sub_zero,
      BitVec.shiftLeft_eq_zero (Nat.le_refl 256)]
  · rw [if_pos (by rw [BitVec.lt_def, hshift]; simp; omega), hshift]
    rfl

/-- **A text is what is left of a word** that begins with it. -/
theorem masked_eq {v : Word} (hw : w.IsText)
    (hv : v.bytes.take w.textLength = w.bytes.take w.textLength) :
    masked v (BitVec.ofNat 256 w.textLength) = w := by
  apply Word.bytes_injective
  rw [masked_ofNat v w.textLength_le, Word.bytes_and_mask v w.textLength_le, hv]
  exact hw.bytes_eq.symm

/-- A word that stands where a text was written begins with it. Nothing stands there if it is
empty. -/
theorem take_textLength {v : Word} (h : w.textLength ≠ 0 → v = w) :
    v.bytes.take w.textLength = w.bytes.take w.textLength := by
  by_cases hempty : w.textLength = 0
  · rw [hempty, List.take_zero, List.take_zero]
  · rw [h hempty]

/-- No text is longer than a word, so no length of one is refused. -/
theorem not_lt_textLength (w : Word) : ¬ 32#256 < BitVec.ofNat 256 w.textLength := by
  have := w.textLength_le
  rw [BitVec.lt_def, BitVec.toNat_ofNat, BitVec.toNat_ofNat]
  omega

/-- **A text is read from the arguments of a call.** -/
theorem runFunction_decodeStringCalldata {head distance : Word} (hw : w.IsText)
    (hhead : callWord host head = distance)
    (hlength : callWord host (4#256 + distance) = BitVec.ofNat 256 w.textLength)
    (hword : (callWord host (4#256 + distance + 32#256)).bytes.take w.textLength
      = w.bytes.take w.textLength) :
    runFunction host code rounds decodeStringCalldata [head] s = .ok [w] s := by
  have hle := not_lt_textLength w
  have hmasked := masked_eq hw hword
  simpa [runFunction, invoke, decodeStringCalldata, maskedText, revertIf, Locals.get?,
    Table.get?_cons, Locals.set, Table.set, Word.truth, Yul.Stmt.define, Yul.Expr.sub,
    Locals.declareAll, hhead, hlength, hle, masked] using hmasked

/-- **A text is read from memory.** -/
theorem runFunction_decodeStringMemory {start head distance : Word} (hw : w.IsText)
    (hhead : Word.ofBytes (s.memory.read head.toNat 32) = distance)
    (hlength : Word.ofBytes (s.memory.read (start + distance).toNat 32)
      = BitVec.ofNat 256 w.textLength)
    (hword : (Word.ofBytes (s.memory.read (start + distance + 32#256).toNat 32)).bytes.take
      w.textLength = w.bytes.take w.textLength) :
    runFunction host code rounds decodeStringMemory [start, head] s = .ok [w] s := by
  have hle := not_lt_textLength w
  have hmasked := masked_eq hw hword
  simpa [runFunction, invoke, decodeStringMemory, maskedText, revertIf, Locals.get?,
    Table.get?_cons, Locals.set, Table.set, Word.truth, Yul.Stmt.define, Yul.Expr.sub,
    Locals.declareAll, hhead, hlength, hle, masked, -BitVec.toNat_add] using hmasked

/-! ## What stands where -/

section Places

variable {front back : List (Ty × Word)} {type : Ty} {word : Nat → Word} {image : List UInt8}

/-- Words are shown at their distance from where an image starts. -/
def Shows (word : Nat → Word) (image : List UInt8) : Prop :=
  ∀ front w back, image = front ++ Word.bytes w ++ back → word front.length = w

/-- **The distance of a text** that stands behind the texts of other values. -/
def textPlace (count : Nat) (front : List (Ty × Word)) : Nat :=
  32 * count + (encodedTexts front).length

theorem encodedTexts_append (front back : List (Ty × Word)) :
    encodedTexts (front ++ back) = encodedTexts front ++ encodedTexts back := by
  simp [encodedTexts]

theorem encodedTexts_cons (type : Ty) (w : Word) (back : List (Ty × Word)) :
    encodedTexts ((type, w) :: back)
      = (if isDynamic type then textBytes w else []) ++ encodedTexts back := by
  by_cases htype : isDynamic type <;> simp [encodedTexts, htype]

theorem encodedHeads_cons (distance : Nat) (type : Ty) (w : Word) (back : List (Ty × Word)) :
    encodedHeads distance ((type, w) :: back)
      = Word.bytes (if isDynamic type then BitVec.ofNat 256 distance else w)
        ++ encodedHeads (distance + (encodedTexts [(type, w)]).length) back := by
  rw [encodedHeads]
  by_cases htype : isDynamic type <;> simp [htype, encodedTexts, length_textBytes]

theorem encodedHeads_append (distance : Nat) (front back : List (Ty × Word)) :
    encodedHeads distance (front ++ back) = encodedHeads distance front ++
      encodedHeads (distance + (encodedTexts front).length) back := by
  induction front generalizing distance with
  | nil => simp [encodedHeads, encodedTexts]
  | cons v front ih =>
    have hlength : (encodedTexts (v :: front)).length
        = (encodedTexts [v]).length + (encodedTexts front).length := by
      rw [← List.singleton_append, encodedTexts_append, List.length_append]
    rw [List.cons_append, encodedHeads_cons, encodedHeads_cons, ih, hlength, List.append_assoc,
      Nat.add_assoc]

/-- **The word of a value stands at its number.** -/
theorem encoded_eq_head (type : Ty) (w : Word) (front back : List (Ty × Word)) :
    ∃ rest, encoded (front ++ (type, w) :: back) =
      encodedHeads (32 * (front ++ (type, w) :: back).length) front
        ++ Word.bytes (if isDynamic type then
          BitVec.ofNat 256 (textPlace (front ++ (type, w) :: back).length front) else w)
        ++ rest := by
  refine ⟨encodedHeads (textPlace (front ++ (type, w) :: back).length front
    + (encodedTexts [(type, w)]).length) back ++ encodedTexts (front ++ (type, w) :: back), ?_⟩
  rw [encoded, encodedHeads_append, encodedHeads_cons, textPlace]
  simp only [List.append_assoc]

theorem Shows.head (h : Shows word (encoded (front ++ (type, w) :: back))) :
    word (32 * front.length) = if isDynamic type then
      BitVec.ofNat 256 (textPlace (front ++ (type, w) :: back).length front) else w := by
  obtain ⟨rest, himage⟩ := encoded_eq_head type w front back
  rw [← length_encodedHeads (32 * (front ++ (type, w) :: back).length) front]
  exact h _ _ rest himage

/-- **A text stands behind all words and the texts in front of it.** -/
theorem encoded_eq_of_dynamic (htype : isDynamic type = true) :
    encoded (front ++ (type, w) :: back) =
      (encodedHeads (32 * (front ++ (type, w) :: back).length) (front ++ (type, w) :: back)
        ++ encodedTexts front) ++ textBytes w ++ encodedTexts back := by
  rw [encoded, encodedTexts_append, encodedTexts_cons, if_pos htype]
  simp only [List.append_assoc]

theorem length_front_encoded (values front : List (Ty × Word)) :
    (encodedHeads (32 * values.length) values ++ encodedTexts front).length
      = textPlace values.length front := by
  rw [List.length_append, length_encodedHeads, textPlace]

theorem Shows.text (h : Shows word (encoded (front ++ (type, w) :: back)))
    (htype : isDynamic type = true) :
    word (textPlace (front ++ (type, w) :: back).length front)
        = BitVec.ofNat 256 w.textLength ∧
      (w.textLength ≠ 0 →
        word (textPlace (front ++ (type, w) :: back).length front + 32) = w) := by
  have himage := @encoded_eq_of_dynamic w front back type htype
  rw [← length_front_encoded]
  constructor
  · refine h _ _ ((if w.textLength = 0 then [] else w.bytes) ++ encodedTexts back) ?_
    rw [himage, textBytes]
    simp only [List.append_assoc]
  · intro hlong
    have hlength : (encodedHeads (32 * (front ++ (type, w) :: back).length)
        (front ++ (type, w) :: back) ++ encodedTexts front
        ++ Word.bytes (BitVec.ofNat 256 w.textLength)).length
      = (encodedHeads (32 * (front ++ (type, w) :: back).length)
        (front ++ (type, w) :: back) ++ encodedTexts front).length + 32 := by
      rw [List.length_append, Word.length_bytes]
    rw [← hlength]
    refine h _ _ (encodedTexts back) ?_
    rw [himage, textBytes, if_neg hlong]
    simp only [List.append_assoc]

/-- Where the texts of values stand that are written from a place on, and how long they are. -/
def textParts (place : Nat) : List (Ty × Word) → List (Nat × Nat)
  | [] => []
  | (type, w) :: rest =>
    if isDynamic type then (place, w.textSize) :: textParts (place + w.textSize) rest
    else textParts place rest

/-- **Where the parts of an encoding stand**, and how long they are: the words, then the texts. -/
def parts (values : List (Ty × Word)) : List (Nat × Nat) :=
  (List.range values.length).map (fun i => (32 * i, 32)) ++ textParts (32 * values.length) values

theorem le_of_mem_textParts {values : List (Ty × Word)} {place : Nat} {part : Nat × Nat}
    (h : part ∈ textParts place values) :
    place ≤ part.1 ∧ part.1 + part.2 ≤ place + (encodedTexts values).length := by
  induction values generalizing place with
  | nil => cases h
  | cons v values ih =>
    obtain ⟨type, w⟩ := v
    rw [textParts] at h
    rw [encodedTexts_cons, List.length_append]
    split at h
    · rename_i htype
      rw [if_pos htype, length_textBytes]
      rcases List.mem_cons.1 h with rfl | h
      · exact ⟨Nat.le_refl _, by omega⟩
      · have := ih h
        exact ⟨by omega, by omega⟩
    · have := ih h
      exact ⟨this.1, by omega⟩

theorem textParts_pairwise (place : Nat) (values : List (Ty × Word)) :
    (textParts place values).Pairwise fun part other => part.1 + part.2 ≤ other.1 := by
  induction values generalizing place with
  | nil => exact .nil
  | cons v values ih =>
    rw [textParts]
    split
    · exact .cons (fun other hother => (le_of_mem_textParts hother).1) (ih _)
    · exact ih _

/-- **The parts of an encoding lie apart**, each behind those in front of it. -/
theorem parts_pairwise (values : List (Ty × Word)) :
    (parts values).Pairwise fun part other => part.1 + part.2 ≤ other.1 := by
  refine List.pairwise_append.2 ⟨?_, textParts_pairwise _ _, ?_⟩
  · refine List.pairwise_map.2 (List.pairwise_lt_range.imp fun {i j} hij => ?_)
    dsimp only
    omega
  · rintro part hpart other hother
    obtain ⟨i, hi, rfl⟩ := List.mem_map.1 hpart
    have hi := List.mem_range.1 hi
    have hother := (le_of_mem_textParts hother).1
    dsimp only
    omega

/-- No part of an encoding reaches beyond its end. -/
theorem le_length_of_mem_parts {values : List (Ty × Word)} {part : Nat × Nat}
    (h : part ∈ parts values) : part.1 + part.2 ≤ (encoded values).length := by
  rw [length_encoded]
  rcases List.mem_append.1 h with h | h
  · obtain ⟨i, hi, rfl⟩ := List.mem_map.1 h
    have hi := List.mem_range.1 hi
    dsimp only
    omega
  · exact (le_of_mem_textParts h).2

/-- A text is the part at its distance. -/
theorem mem_textParts (htype : isDynamic type = true) (place : Nat) :
    (place + (encodedTexts front).length, w.textSize)
      ∈ textParts place (front ++ (type, w) :: back) := by
  induction front generalizing place with
  | nil => simp [textParts, htype, encodedTexts]
  | cons v front ih =>
    obtain ⟨other, v⟩ := v
    rw [List.cons_append, textParts, encodedTexts_cons, List.length_append]
    split
    · have := ih (place + v.textSize)
      rw [length_textBytes, ← Nat.add_assoc]
      exact List.mem_cons_of_mem _ this
    · rw [List.length_nil, Nat.zero_add]
      exact ih place

end Places

/-! ## Images that are shown -/

section Sources

variable {image before bytes after : List UInt8} {start place : Word} {m : Memory}

/-- The arguments of a call show the word that stands in them. -/
theorem callWord_eq (h : host.calldata = before ++ w.bytes ++ after)
    (hplace : place.toNat = before.length) : callWord host place = w := by
  have hbytes : (List.range 32).map (fun i => (host.calldata[place.toNat + i]?).getD 0)
      = w.bytes := by
    refine List.ext_getElem (by simp) fun i hi hi' => ?_
    have hget : host.calldata[place.toNat + i]? = some w.bytes[i] := by
      rw [h, hplace, List.append_assoc, List.getElem?_append_right (by omega),
        Nat.add_sub_cancel_left, List.getElem?_append_left hi', List.getElem?_eq_getElem hi']
    simp [hget]
  rw [callWord, hbytes, Word.ofBytes_bytes]

/-- Part of what is read is read from where it stands. -/
theorem read_part (h : m.read n (before ++ bytes ++ after).length = before ++ bytes ++ after) :
    m.read (n + before.length) bytes.length = bytes := by
  rw [List.length_append, List.length_append, Memory.read_append, Memory.read_append] at h
  have hfront := (List.append_inj h (by simp)).1
  exact (List.append_inj hfront (by simp)).2

/-- **The arguments of a call show what stands behind the selector.** -/
theorem shows_calldata {selector rest : List UInt8}
    (h : host.calldata = selector ++ image ++ rest) (hselector : selector.length = 4)
    (hsize : host.calldata.length < 2 ^ 256) :
    Shows (fun k => callWord host (4#256 + BitVec.ofNat 256 k)) image := by
  rintro before w after rfl
  have hlength := congrArg List.length h
  simp only [List.length_append, Word.length_bytes] at hlength
  refine @callWord_eq host w (selector ++ before) (after ++ rest) _ ?_ ?_
  · rw [h]
    simp only [List.append_assoc]
  · rw [BitVec.toNat_add, BitVec.toNat_ofNat, BitVec.toNat_ofNat, List.length_append]
    omega

/-- **Memory shows what stands from a place on.** -/
theorem shows_memory (h : m.read start.toNat image.length = image)
    (hsize : start.toNat + image.length < 2 ^ 256) :
    Shows (fun k => Word.ofBytes (m.read (start + BitVec.ofNat 256 k).toNat 32)) image := by
  rintro before w after rfl
  have hplace : (start + BitVec.ofNat 256 before.length).toNat = start.toNat + before.length := by
    simp only [List.length_append, Word.length_bytes] at hsize
    rw [BitVec.toNat_add, BitVec.toNat_ofNat]
    omega
  have hread := read_part h
  rw [Word.length_bytes] at hread
  dsimp only
  rw [hplace, hread, Word.ofBytes_bytes]

end Sources

/-! ## Reading values -/

/-- **Code supports some names**: each function is found by its name, and the shared functions that
the names or the code itself apply are there. -/
structure Supports (code : List Yul.Function) (names : List String) : Prop where
  distinct : (code.map Yul.Function.name).Nodup
  named : ∀ f ∈ shared, f.name ∈ names → f ∈ code
  closed : ∀ g ∈ code, ∀ f ∈ shared, f.name ∈ g.calls → f ∈ code

namespace Supports

variable {names more : List String}

theorem function? (h : Supports code names) {f : Yul.Function} (hf : f ∈ shared)
    (hname : f.name ∈ names) : function? code f.name = some f :=
  function?_of_mem h.distinct (h.named f hf hname)

theorem mono (h : Supports code names) (hmore : ∀ name ∈ more, name ∈ names) :
    Supports code more :=
  ⟨h.distinct, fun f hf hname => h.named f hf (hmore _ hname), h.closed⟩

/-- Code that supports the encoding of values has what it takes to write texts. -/
theorem hasTexts {stop : String} {start : Yul.Expr} {values : List (Ty × Yul.Expr)}
    (h : Supports code (Yul.Stmt.callsAll (encode stop start values))) :
    HasTexts code (values.map Prod.fst) := by
  intro htexts
  rw [List.any_map] at htexts
  have hname : abiEncodeString.name ∈ Yul.Stmt.callsAll (encode stop start values) :=
    List.mem_append_right _ (mem_calls_encodeFrom 0 htexts)
  have hencode := h.named abiEncodeString (by simp [shared]) hname
  exact ⟨function?_of_mem h.distinct hencode, function?_of_mem h.distinct
    (h.closed _ hencode stringLength (by simp [shared]) (by decide))⟩

end Supports

section Values

variable {front back : List (Ty × Word)} {type : Ty}

/-- A shared function is run where its name is applied. -/
theorem apply_shared {names quoted : List String} (hsupports : Supports code names)
    {f : Yul.Function} (hf : f ∈ shared) (hname : f.name ∈ names) (words : List Word) :
    apply host code (rounds + 1) quoted f.name words = runFunction host code rounds f words := by
  exact apply_of_function (isFunctionName_shared f hf).not_mem_operationNames
    (hsupports.function? hf hname)

theorem eval_shared {names : List String} (hsupports : Supports code names) {f : Yul.Function}
    (hf : f ∈ shared) (hname : f.name ∈ names) {ys : List Yul.Expr} {words results : List Word}
    {t : State} (hargs : evalArgs (apply host code (rounds + 1)) ys s = .ok words s)
    (hrun : runFunction host code rounds f words s = .ok results t) :
    eval (apply host code (rounds + 1)) (.call f.name ys) s = .ok results t := by
  rw [eval, bind_apply, hargs, andThen_ok, apply_shared hsupports hf hname, hrun]

theorem exec_shared {names : List String} (hsupports : Supports code names) {f : Yul.Function}
    (hf : f ∈ shared) (hname : f.name ∈ names) {ys : List Yul.Expr} {words : List Word} {t : State}
    (hargs : evalArgs (apply host code (rounds + 1)) ys s = .ok words s)
    (hrun : runFunction host code rounds f words s = .ok [] t) :
    exec (apply host code (rounds + 1)) n (.run f.name ys) s = .ok .next t :=
  exec_run_of_ok hargs (by rw [apply_shared hsupports hf hname, hrun])

/-- **A value is read from the arguments of a call** as it was written. -/
theorem eval_decodeCalldata
    (hsupports : Supports code (decodeCalldata type (4 + 32 * front.length)).calls)
    (hfits : Fits type w)
    (hshows : Shows (fun k => callWord host (4#256 + BitVec.ofNat 256 k))
      (encoded (front ++ (type, w) :: back))) :
    eval (apply host code (rounds + 1)) (decodeCalldata type (4 + 32 * front.length)) s
      = .ok [w] s := by
  have hhead := hshows.head
  rw [← BitVec.ofNat_add] at hhead
  have hload (hstatic : isDynamic type = false) :
      eval (apply host code (rounds + 1))
        (.call "calldataload" [.num (4 + 32 * front.length)]) s = .ok [w] s := by
    simp [hhead, hstatic]
  cases type with
  | text =>
    obtain ⟨hlength, hword⟩ := hshows.text rfl
    rw [BitVec.ofNat_add, ← BitVec.add_assoc] at hword
    exact eval_shared hsupports (show decodeStringCalldata ∈ shared by simp [shared])
      List.mem_cons_self (by simp)
      (runFunction_decodeStringCalldata hfits hhead hlength (take_textLength hword))
  | address contract =>
    exact eval_shared hsupports (show validateAddress ∈ shared by simp [shared])
      List.mem_cons_self (evalArgs_single (by simp) (hload rfl)) (runFunction_validateAddress hfits)
  | boolean =>
    exact eval_shared hsupports (show validateBool ∈ shared by simp [shared])
      List.mem_cons_self (evalArgs_single (by simp) (hload rfl)) (runFunction_validateBool hfits)
  | _ => exact hload rfl

/-- **A value is read from memory** as it was written. -/
theorem eval_decodeMemory {e f : Yul.Expr} {start : Word}
    (hsupports : Supports code (decodeMemory type e f).calls) (hfits : Fits type w)
    (hshows : Shows (fun k => Word.ofBytes (s.memory.read (start + BitVec.ofNat 256 k).toNat 32))
      (encoded (front ++ (type, w) :: back)))
    (hunquoted : ∀ name, e ≠ .quoted name) (hunquoted' : ∀ name, f ≠ .quoted name)
    (hstart : eval (apply host code (rounds + 1)) e s = .ok [start] s)
    (hhead : eval (apply host code (rounds + 1)) f s
      = .ok [start + BitVec.ofNat 256 (32 * front.length)] s) :
    eval (apply host code (rounds + 1)) (decodeMemory type e f) s = .ok [w] s := by
  have hword := hshows.head
  have hload (hstatic : isDynamic type = false) :
      eval (apply host code (rounds + 1)) (.mload f) s = .ok [w] s := by
    rw [Yul.Expr.mload, eval, bind_apply, evalArgs_single hunquoted' hhead]
    simp [hword, hstatic, -BitVec.toNat_add]
  cases type with
  | text =>
    obtain ⟨hlength, htext⟩ := hshows.text rfl
    rw [BitVec.ofNat_add, ← BitVec.add_assoc] at htext
    exact eval_shared hsupports (show decodeStringMemory ∈ shared by simp [shared])
      List.mem_cons_self (evalArgs_pair hunquoted hunquoted' hstart hhead)
      (runFunction_decodeStringMemory hfits hword hlength (take_textLength htext))
  | address contract =>
    exact eval_shared hsupports (show validateAddress ∈ shared by simp [shared])
      List.mem_cons_self (evalArgs_single (by simp) (hload rfl)) (runFunction_validateAddress hfits)
  | boolean =>
    exact eval_shared hsupports (show validateBool ∈ shared by simp [shared])
      List.mem_cons_self (evalArgs_single (by simp) (hload rfl)) (runFunction_validateBool hfits)
  | _ => exact hload rfl

/-- **Variables are defined one by one**, each by what reads the value of its number. Only their own
names get new words. -/
theorem execAll_defines {run : Apply} {reader : Nat → Ty → Yul.Expr} {values : List (Ty × Word)}
    {names : List String} (hnames : names.Nodup) (hcount : names.length = values.length)
    (hreads : ∀ front type w back, values = front ++ (type, w) :: back → ∀ locals : Locals Word,
      (∀ name, name ∉ names → locals.get? name = s.locals.get? name) →
      eval run (reader front.length type) { s with locals } = .ok [w] { s with locals }) :
    ∃ locals, execAll run n (((values.map Prod.fst).zip names).mapIdx fun i (type, name) =>
        .define name (reader i type)) s = .ok .next { s with locals } ∧
      (∀ pair ∈ names.zip (values.map Prod.snd), locals.get? pair.1 = some pair.2) ∧
      ∀ name, name ∉ names → locals.get? name = s.locals.get? name := by
  induction values generalizing s names reader with
  | nil =>
    obtain rfl := List.length_eq_zero_iff.1 hcount
    exact ⟨s.locals, rfl, by simp, fun _ _ => rfl⟩
  | cons v values ih =>
    obtain ⟨type, w⟩ := v
    obtain _ | ⟨name, names⟩ := names
    · cases hcount
    obtain ⟨hname, hnodup⟩ := List.nodup_cons.1 hnames
    have hfirst : exec run n (.define name (reader 0 type)) s
        = .ok .next { s with locals := s.locals.declareAll [(name, w)] } :=
      exec_define_of_ok (hreads [] type w values rfl s.locals fun _ _ => rfl)
    obtain ⟨locals, hexec, hfound, hkept⟩ := @ih
      { s with locals := s.locals.declareAll [(name, w)] } (fun i => reader (i + 1)) names hnodup
      (Nat.succ.inj hcount) fun front other v back hvalues locals hlocals =>
        hreads ((type, w) :: front) other v back (by rw [hvalues, List.cons_append]) locals
          fun m hm => by
            rw [List.mem_cons, not_or] at hm
            rw [hlocals m hm.2, get?_declareAll_singleton, if_neg hm.1]
    refine ⟨locals, ?_, fun pair hpair => ?_, fun m hm => ?_⟩
    · rw [List.map_cons, List.zip_cons_cons, List.mapIdx_cons, execAll_of_next hfirst, ← hexec]
    · rw [List.map_cons, List.zip_cons_cons] at hpair
      rcases List.mem_cons.1 hpair with rfl | hpair
      · rw [hkept name hname, get?_declareAll_singleton, if_pos rfl]
      · exact hfound pair hpair
    · rw [List.mem_cons, not_or] at hm
      rw [hkept m hm.2, get?_declareAll_singleton, if_neg hm.1]

end Values

end Machine

end Covenant
