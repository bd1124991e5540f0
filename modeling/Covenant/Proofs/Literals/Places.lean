import Covenant.Proofs.Literals.Words
import Covenant.Proofs.Resolution.Classes
import Covenant.Proofs.Resolution.Invocations

/-!
# The places of texts

A text is written where bytes or an address are wanted: it is stored in a local, in a property or in
an entry of one, or it is the result of a method. It takes the type of its place where that is known
and the text stands there by itself. In an entry, in a property that the class inherits, and as one
side of a conditional it stays a text; and a text that spells an address is an address everywhere
(`texts_take_known_types`).

The words differ for two kinds of texts (`wordOf_storedType_eq_iff`). One that spells bytes in
hexadecimal digits is packed digit by digit as bytes and character by character as a text, and one
that is to be an address and spells none is refused as an address and packed as a text.
-/

namespace Covenant

/-! ## Words of bytes and of texts -/

namespace Emit

theorem bytes_eq_flatMap (text : String) :
    Text.bytes text = text.toList.flatMap String.utf8EncodeChar := by
  obtain ⟨cs, rfl⟩ : ∃ cs, text = String.ofList cs := ⟨text.toList, String.ofList_toList.symm⟩
  rw [Text.bytes, String.toUTF8, String.toByteArray_ofList, String.toList_ofList, List.utf8Encode,
    List.data_toByteArray, List.toList_toArray]

theorem utf8EncodeChar_of_isHexDigit {c : Char} (h : Text.isHexDigit c) :
    ∃ b, String.utf8EncodeChar c = [b] ∧ b ≠ 0 := by
  have hall : ∀ n < 128, Text.isHexDigit (Char.ofNat n) →
      String.utf8EncodeChar (Char.ofNat n) = [UInt8.ofNat n] ∧ UInt8.ofNat n ≠ 0 := by
    decide
  have hc := hall c.toNat (toNat_lt_of_isHexDigit h)
  rw [Char.ofNat_toNat] at hc
  exact ⟨_, hc h⟩

/-- Hexadecimal digits are one byte each. -/
theorem length_flatMap_utf8EncodeChar {digits : List Char} (h : digits.all Text.isHexDigit) :
    (digits.flatMap String.utf8EncodeChar).length = digits.length := by
  induction digits with
  | nil => rfl
  | cons c digits ih =>
    rw [List.all_cons, Bool.and_eq_true] at h
    obtain ⟨b, hb, -⟩ := utf8EncodeChar_of_isHexDigit h.1
    rw [List.flatMap_cons, List.length_append, ih h.2, hb, List.length_singleton, Nat.add_comm,
      List.length_cons]

/-- **The bytes of a text that spells some**: two for the mark and one for each digit, of which the
last one is not zero. -/
theorem bytes_of_isHexWord {digits : List Char} {text : String}
    (htext : text.toList = '0' :: 'x' :: digits) (hsome : digits ≠ [])
    (hdigits : digits.all Text.isHexDigit) :
    ∃ front last, Text.bytes text = front ++ [last] ∧ last ≠ 0 ∧
      front.length = digits.length + 1 := by
  have hbytes : Text.bytes text = [48, 120] ++ digits.flatMap String.utf8EncodeChar := by
    rw [bytes_eq_flatMap, htext]
    rfl
  obtain ⟨others, c, rfl⟩ : ∃ others c, digits = others ++ [c] :=
    ⟨_, _, (List.dropLast_append_getLast hsome).symm⟩
  rw [List.all_append, Bool.and_eq_true] at hdigits
  obtain ⟨b, hb, hzero⟩ := utf8EncodeChar_of_isHexDigit (c := c) (by simpa using hdigits.2)
  refine ⟨[48, 120] ++ others.flatMap String.utf8EncodeChar, b, ?_, hzero, ?_⟩
  · rw [hbytes, List.flatMap_append, List.flatMap_singleton, hb, List.append_assoc]
  · rw [List.length_append, length_flatMap_utf8EncodeChar hdigits.1, List.length_append]
    simp
    omega

/-- **A text that spells bytes is another word than they are.** Its characters fill more of the word
than the bytes they spell, and the last of them is not zero. -/
theorem literalMeaning_bytes_ne_text {text : String} (hhex : isHexWord 64 text)
    (hsize : text.utf8ByteSize ≤ 32) : literalMeaning .bytes text ≠ literalMeaning .text text := by
  obtain ⟨digits, htext, hsome, -, hdigits⟩ := isHexWord_iff.1 hhex
  obtain ⟨front, last, hbytes, hlast, hfront⟩ := bytes_of_isHexWord htext hsome hdigits
  have hlength : (Text.bytes text).length = digits.length + 2 := by
    rw [hbytes, List.length_append, hfront]
    rfl
  have hle : digits.length + 2 ≤ 32 := by
    rw [← hlength, Text.bytes]
    simpa using hsize
  intro heq
  have hbytesWord : literalMeaning .bytes text =
      BitVec.ofNat 256 (hexNumber digits * 16 ^ (64 - digits.length)) := by
    rw [literalMeaning, if_pos hhex, htext]
    rfl
  have htextWord : literalMeaning .text text = BitVec.ofNat 256
      ((256 * front.foldl (fun n b => 256 * n + b.toNat) 0 + last.toNat) *
        256 ^ (30 - digits.length)) := by
    change Word.ofText text = _
    rw [Word.ofText, ofBytes_zeros, hlength, hbytes, List.foldl_append, Nat.sub_add_eq,
      Nat.sub_right_comm]
    rfl
  have hmod := congrArg BitVec.toNat (hbytesWord.symm.trans (heq.trans htextWord))
  rw [BitVec.toNat_ofNat, BitVec.toNat_ofNat] at hmod
  -- both numbers are compared up to and with the last byte of the text
  have hpow (k : Nat) : 256 ^ k = 2 ^ (8 * k) := by rw [Nat.pow_mul]
  have hword : 256 ^ (31 - digits.length) ∣ 2 ^ 256 :=
    hpow _ ▸ Nat.pow_dvd_pow 2 (by omega)
  have hspelled : 256 ^ (31 - digits.length) ∣ hexNumber digits * 16 ^ (64 - digits.length) := by
    rw [hpow, show (16 : Nat) = 2 ^ 4 from rfl, ← Nat.pow_mul]
    exact Nat.dvd_mul_left_of_dvd (Nat.pow_dvd_pow 2 (by omega)) _
  have hpacked := (Nat.dvd_mod_iff hword).1 (hmod ▸ (Nat.dvd_mod_iff hword).2 hspelled)
  rw [show 31 - digits.length = 30 - digits.length + 1 by omega, Nat.pow_succ,
    Nat.mul_comm _ 256] at hpacked
  have hdvd := Nat.dvd_of_mul_dvd_mul_right (Nat.pow_pos (by omega)) hpacked
  have hzero : last.toNat = 0 := by
    have := last.toNat_lt
    omega
  exact hlast (UInt8.toNat_inj.1 hzero)

/-- **The word that code has for a literal**, if it has one. -/
def wordOf (pos : Position) (type : Ty) (text : String) : Except Failure Word :=
  (literalWord pos type text).map Word.ofNumeral

end Emit

/-! ## What is stored where -/

/-- Whether a text that stands for a value of the type is kept with it: the type is bytes or an
address. -/
def Ty.takesTexts : Ty → Bool
  | .bytes | .address _ => true
  | _ => false

/-- **What an expression comes to**: one side of each conditional that it is. -/
def Expr.choices : Expr → List Expr
  | .conditional _ _ yes no => yes.choices ++ no.choices
  | e => [e]

/-- **What a statement stores a value in**: a local, a property as a whole, an entry of one, or the
result of the method. -/
inductive Target where
  | localVar (name : String)
  | property (name : String)
  | entry (property : String)
  | result
deriving DecidableEq, Repr

/-- **Whether the type of a place is known** where a value is put there: that of an inherited
property is not yet, and that of an entry is not looked up. -/
def Target.knowsType (scope : Scope) : Target → Bool
  | .localVar _ | .result => true
  | .property x => scope.properties.has x
  | .entry _ => false

namespace Stmt

/-- The value that a statement stores, and where. -/
def stored? : Stmt → Option (Target × Expr)
  | declare _ x _ (some value) => some (.localVar x, value)
  | setVariable _ x value => some (.localVar x, value)
  | setProperty _ x value => some (.property x, value)
  | setEntry _ x _ value => some (.entry x, value)
  | exit _ (some value) => some (.result, value)
  | _ => none

/-- A value is stored by a statement within a body. -/
def Stores (body : List Stmt) (value : Expr) : Prop :=
  ∃ s ∈ substatementsAll body, ∃ target, s.stored? = some (target, value)

@[simp] theorem stores_append {first second : List Stmt} {value : Expr} :
    Stores (first ++ second) value ↔ Stores first value ∨ Stores second value := by
  simp [Stores, substatementsAll_eq_flatMap, or_and_right, exists_or]

theorem stores_cons {s : Stmt} {body : List Stmt} {value : Expr} :
    Stores (s :: body) value ↔ (∃ target, s.stored? = some (target, value)) ∨
      Stores s.inner value ∨ Stores body value := by
  simp [Stores, substatementsAll, substatements_eq, or_and_right, exists_or]

end Stmt

namespace Resolve

open Source (Expression Statement)

variable {scope : Scope}

/-! ## The type of a stored text -/

/-- **The type that a text is stored with** in a place of some type, which is known or not. -/
def storedType (known : Bool) (type : Ty) (value : String) : Ty :=
  if isAddressLiteral value then .address none else if known then type else .text

variable {type : Ty} {pos : Position} {value : String} {v : Expr}

theorem eq_storedType_of_text (h : text pos value = .ok v) (type : Ty) :
    v = .literal pos (storedType false type value) value := by
  obtain ⟨haddress, rfl⟩ | ⟨haddress, -, rfl⟩ := text_eq_ok.1 h <;> simp [storedType, haddress]

theorem retag_of_text (htype : type.takesTexts) (h : text pos value = .ok v) :
    retag type v = .literal pos (storedType true type value) value := by
  obtain ⟨haddress, rfl⟩ | ⟨haddress, -, rfl⟩ := text_eq_ok.1 h
  · simp [storedType, haddress, retag]
  · cases type <;> simp_all [storedType, retag, Ty.takesTexts]

theorem retag_of_isConditional {e : Expr} (h : e.isConditional) (type : Ty) : retag type e = e := by
  cases e <;> first | rfl | cases h

/-- A text has the type of its place if that is known, unless it spells an address. -/
theorem storedType_eq_iff (htype : type.takesTexts) (known : Bool) (value : String) :
    storedType known type value = type ↔
      if isAddressLiteral value then type = .address none else known := by
  unfold storedType
  split
  · exact eq_comm
  · cases known
    · cases type <;> simp_all [Ty.takesTexts]
    · simp

theorem isAddressLiteral_iff {value : String} :
    isAddressLiteral value ↔
      ∃ digits, value.toList = '0' :: 'x' :: digits ∧ digits.length = 40 ∧
        digits.all Text.isHexDigit := by
  unfold isAddressLiteral
  split
  · rename_i digits h
    simp [h]
  · rename_i h
    refine ⟨fun hfalse => (nomatch hfalse), fun ⟨digits, heq, _⟩ => ?_⟩
    exact absurd heq (h digits)

/-- What is read as an address is written as one. -/
theorem isAddressLiteral_eq (value : String) :
    isAddressLiteral value = (Emit.isHexWord 40 value && value.length = 42) := by
  rw [Bool.eq_iff_iff, Bool.and_eq_true, isAddressLiteral_iff, Emit.isHexWord_iff,
    decide_eq_true_iff, ← String.length_toList]
  constructor
  · rintro ⟨digits, h, hlength, hdigits⟩
    refine ⟨⟨digits, h, fun hnil => ?_, Nat.le_of_eq hlength, hdigits⟩, by simp [h, hlength]⟩
    rw [hnil] at hlength
    cases hlength
  · rintro ⟨⟨digits, h, -, -, hdigits⟩, hlength⟩
    exact ⟨digits, h, by simpa [h] using hlength, hdigits⟩

/-- **A text is one word in all places of a type** if it spells an address, or if the type is bytes
and the text spells none. A text that spells bytes is another word where the type is known, and a
text that is to be an address and spells none has a word only where the type is not known. -/
theorem wordOf_storedType_eq_iff (htype : type.takesTexts) (h : text pos value = .ok v)
    (pos : Position) :
    Emit.wordOf pos (storedType true type value) value =
        Emit.wordOf pos (storedType false type value) value ↔
      isAddressLiteral value ∨ type = .bytes ∧ Emit.isHexWord 64 value = false := by
  obtain ⟨haddress, -⟩ | ⟨haddress, hsize, -⟩ := text_eq_ok.1 h
  · simp [storedType, haddress]
  obtain ⟨packed, hpacked, -⟩ := Emit.textWord_isWordNumeral hsize
  have htext : Emit.literalWord pos .text value = .ok packed := hpacked
  cases type with
  | bytes =>
    by_cases hhex : Emit.isHexWord 64 value
    · have hbytes : Emit.literalWord pos .bytes value =
          .ok (Emit.padWord (Emit.lowerCase (value.drop 2).toString)) := if_pos hhex
      have hne := Emit.literalMeaning_bytes_ne_text hhex hsize
      have hbytesLiteral : WordLiteral .bytes value := Or.inl hhex
      have htextLiteral : WordLiteral .text value := hsize
      rw [← Emit.ofNumeral_literalWord hbytesLiteral hbytes,
        ← Emit.ofNumeral_literalWord htextLiteral htext] at hne
      simpa [storedType, haddress, hhex, Emit.wordOf, hbytes, htext, Except.map] using hne
    · have hbytes : Emit.literalWord pos .bytes value = Emit.literalWord pos .text value :=
        if_neg hhex
      simp [storedType, haddress, hhex, Emit.wordOf, hbytes]
  | address contract =>
    have hrefused : Emit.literalWord pos (.address contract) value =
        .error (.malformed pos (.notAddress value)) := by
      rw [isAddressLiteral_eq] at haddress
      simp [Emit.literalWord, haddress]
    simp [storedType, haddress, Emit.wordOf, hrefused, htext, Except.map]
  | _ => cases htype

/-! ## Places -/

/-- The type of the entries of a property. -/
def entryType? : Ty → Option Ty
  | .mapping _ value => some value
  | .array item => some item
  | _ => none

/-- The type of a property that the class declares or inherits. -/
def typeOfProperty? (scope : Scope) (inherited : Table Ty) (x : String) : Option Ty :=
  (scope.properties.get? x).or (inherited.get? x)

/-- **A statement puts a value in a place of a type**: it declares a local with the type or sets
one, sets a property or an entry of one, or returns from a method. -/
inductive Puts (scope : Scope) (inherited : Table Ty) (returns : Ty) (e : Expression) (type : Ty) :
    Statement → Target → Prop
  | declared {pos : Position} {kind x written v} (h : Denotes scope e v)
      (htype : resolveType scope (literalOf v) written = .ok type) :
      Puts scope inherited returns e type (.declaration pos kind x (some written) (some e))
        (.localVar x)
  | assigned {pos : Position} {target targetPos p x}
      (htarget : soleOperand? target = some (.mk targetPos (.name p x) []))
      (htype : scope.locals.get? x = some type) :
      Puts scope inherited returns e type (.assign pos target .replace e) (.localVar x)
  | property {pos : Position} {target targetPos p memberPos x}
      (htarget : soleOperand? target = some (.mk targetPos (.this p) [.member memberPos x]))
      (htype : typeOfProperty? scope inherited x = some type) :
      Puts scope inherited returns e type (.assign pos target .replace e) (.property x)
  | entry {pos : Position} {target targetPos p memberPos x suffix suffixes}
      (htarget : soleOperand? target =
        some (.mk targetPos (.this p) (.member memberPos x :: suffix :: suffixes)))
      (htype : (typeOfProperty? scope inherited x).bind entryType? = some type) :
      Puts scope inherited returns e type (.assign pos target .replace e) (.entry x)
  | result {pos : Position} (htype : returns = type) :
      Puts scope inherited returns e type (.returns pos (some e)) .result

variable {inherited : Table Ty} {returns : Ty} {e : Expression} {s : Statement} {target : Target}

theorem Denotes.unique {v w : Expr} (h : Denotes scope e v) (h' : Denotes scope e w) : v = w :=
  Except.ok.inj (h.eq_ok.symm.trans h'.eq_ok)

/-- What a statement stores that puts a value in a place. -/
theorem States.stored {t : Stmt} {after : Scope} (htype : type.takesTexts)
    (hputs : Puts scope inherited returns e type s target) (he : Denotes scope e v)
    (h : States scope returns s t after) :
    t.stored? = some (target, if target.knowsType scope then retag type v else v) := by
  -- Both relations say where the value is put; a pair that disagrees is refuted by the target,
  -- which has one reading.
  cases hputs with
  | declared h' htype' =>
    cases h with
    | annotated _ h hresolved =>
      cases he.unique h
      cases he.unique h'
      cases htype'.symm.trans hresolved
      rfl
  | assigned htarget hlocal =>
    cases h with
    | setVariable htarget' hlocal' h =>
      cases htarget.symm.trans htarget'
      cases hlocal.symm.trans hlocal'
      cases he.unique h
      rfl
    | setProperty htarget' | setUnknown htarget' | setEntry htarget' =>
      cases htarget.symm.trans htarget'
  | property htarget hproperty =>
    cases h with
    | setProperty htarget' hproperty' _ h =>
      cases htarget.symm.trans htarget'
      rw [typeOfProperty?, hproperty'] at hproperty
      cases hproperty
      cases he.unique h
      simp [Stmt.stored?, Target.knowsType, Table.has, hproperty', assigned]
    | setUnknown htarget' hproperty' h =>
      cases htarget.symm.trans htarget'
      cases he.unique h
      simp [Stmt.stored?, Target.knowsType, Table.has, hproperty', assigned]
    | setVariable htarget' | setEntry htarget' => cases htarget.symm.trans htarget'
  | entry htarget _ =>
    cases h with
    | setEntry htarget' _ _ _ h =>
      cases htarget.symm.trans htarget'
      cases he.unique h
      rfl
    | setVariable htarget' | setProperty htarget' | setUnknown htarget' =>
      cases htarget.symm.trans htarget'
  | result hreturns =>
    cases h with
    | exitWord _ h =>
      cases he.unique h
      rw [hreturns]
      rfl
    | exitRecord hrecord =>
      rw [← hreturns, hrecord] at htype
      cases htype

theorem states_of_puts {next : Nat} {r : Resolved}
    (hputs : Puts scope inherited returns e type s target)
    (h : statement returns s scope next = .ok r) :
    ∃ t after, States scope returns s t after ∧ r = finish after next t := by
  cases hputs with
  | declared =>
    rw [statement] at h
    obtain ⟨⟨t, after⟩, ht, h⟩ := bind_eq_ok.1 h
    cases pure_eq_ok.1 h
    exact ⟨t, after, states_of_declaration ht, rfl⟩
  | assigned | property | entry =>
    rw [statement] at h
    obtain ⟨t, ht, h⟩ := bind_eq_ok.1 h
    cases pure_eq_ok.1 h
    exact ⟨t, scope, states_of_assignStatement ht, rfl⟩
  | result =>
    rw [statement] at h
    obtain ⟨t, ht, h⟩ := bind_eq_ok.1 h
    cases pure_eq_ok.1 h
    exact ⟨t, scope, states_of_returnStatement ht, rfl⟩

/-! ## Taking the conditionals out -/

/-- What a statement stores is stored last, without its conditionals. -/
theorem finish_stored {t : Stmt} {w : Expr} (h : t.stored? = some (target, w)) (scope : Scope)
    (next : Nat) : ∃ before temps last,
      (finish scope next t).body = before ++ (hoist scope w temps).1 ++ [last] ∧
      last.stored? = some (target, (hoist scope w temps).2.1) := by
  match t, h with
  | .declare pos x type (some _), h =>
    cases h
    exact ⟨[], { next }, _, rfl, rfl⟩
  | .setVariable pos x _, h | .setProperty pos x _, h | .exit pos (some _), h =>
    cases h
    exact ⟨[], { next }, _, rfl, rfl⟩
  | .setEntry pos x indices _, h =>
    cases h
    exact ⟨_, _, _, rfl, rfl⟩

theorem choices_of_isConditional_eq_false {w : Expr} (h : w.isConditional = false) :
    w.choices = [w] := by
  cases w <;> first | rfl | cases h

/-- **What a conditional comes to is stored by a statement in front.** The sides of the conditionals
are what its temporaries start with and are set to. -/
theorem hoist_stores {w : Expr} {text : String} (hw : w.isConditional)
    (h : .literal pos type text ∈ w.choices) (t : Temps) :
    Stmt.Stores (hoist scope w t).1 (.literal pos type text) := by
  fun_induction Expr.choices w generalizing t with
  | case1 conditionPos condition yes no ihYes ihNo =>
    -- a side is the literal itself, or a conditional that comes to it
    have hside {side : Expr} (t : Temps) (hmem : .literal pos type text ∈ side.choices)
        (ih : side.isConditional → Stmt.Stores (hoist scope side t).1 (.literal pos type text)) :
        Stmt.Stores (hoist scope side t).1 (.literal pos type text) ∨
          (hoist scope side t).2.1 = .literal pos type text := by
      cases hconditional : side.isConditional with
      | true => exact .inl (ih hconditional)
      | false =>
        rw [choices_of_isConditional_eq_false hconditional, List.mem_singleton] at hmem
        subst hmem
        exact .inr rfl
    rcases hc : hoist scope condition t with ⟨before, c, t₁⟩
    rcases hy : hoist scope yes t₁ with ⟨beforeYes, y, t₂⟩
    rcases hn : hoist scope no t₂ with ⟨beforeNo, n, t₃⟩
    simp only [hoist, hc, hy, hn, Stmt.stores_append, Stmt.stores_cons, Stmt.inner, Stmt.stored?]
    rcases List.mem_append.1 h with h | h
    · have hstored := hside t₁ h fun hyes => ihYes hyes h t₁
      rw [hy] at hstored
      rcases hstored with hbefore | rfl
      · simp [hbefore]
      · simp
    · have hstored := hside t₂ h fun hno => ihNo hno h t₂
      rw [hn] at hstored
      rcases hstored with hbefore | rfl
      · simp [hbefore]
      · simp
  | case2 w hother =>
    cases w with
    | conditional => exact (hother _ _ _ _ rfl).elim
    | _ => cases hw

theorem hasConditional_of_isConditional {w : Expr} (h : w.isConditional) : w.hasConditional := by
  rw [Expr.hasConditional_eq, h, Bool.true_or]

/-! ## Texts -/

/-- A statement that puts an expression in a place stores last what the expression comes to. -/
theorem stored_of_puts {next : Nat} {r : Resolved} {w : Expr} (htype : type.takesTexts)
    (he : Denotes scope e w) (hv : v ∈ w.choices) (hvalue : text pos value = .ok v)
    (hputs : Puts scope inherited returns e type s target)
    (h : statement returns s scope next = .ok r) :
    ∃ before last x, r.body = before ++ [last] ∧ last.stored? = some (target, x) ∧
      if w.isConditional then Stmt.Stores before (.literal pos (storedType false type value) value)
      else x = .literal pos (storedType (target.knowsType scope) type value) value := by
  obtain ⟨t, after, hstates, rfl⟩ := states_of_puts hputs h
  have hstored := hstates.stored htype hputs he
  cases hconditional : w.isConditional with
  | true =>
    rw [retag_of_isConditional hconditional, ite_self] at hstored
    obtain ⟨before, temps, last, hbody, hlast⟩ := finish_stored hstored after next
    rw [eq_storedType_of_text hvalue type] at hv
    refine ⟨before ++ (hoist after w temps).1, last, _, hbody, hlast, ?_⟩
    exact Stmt.stores_append.2 (.inr (hoist_stores hconditional hv temps))
  | false =>
    rw [choices_of_isConditional_eq_false hconditional, List.mem_singleton] at hv
    subst hv
    have hliteral : (if target.knowsType scope then retag type v else v) =
        .literal pos (storedType (target.knowsType scope) type value) value := by
      cases target.knowsType scope with
      | true => exact retag_of_text htype hvalue
      | false => exact eq_storedType_of_text hvalue type
    rw [hliteral] at hstored
    obtain ⟨before, temps, last, hbody, hlast⟩ := finish_stored hstored after next
    exact ⟨_, last, _, hbody, hlast, rfl⟩

/-- What a property starts with. -/
theorem initial_of_stateVar {modifiers : List Source.Modifier} {property : Source.Property}
    {sv : StateVar} {w : Expr} (htype : type.takesTexts) (he : Denotes scope e w)
    (hv : v ∈ w.choices) (hvalue : text pos value = .ok v)
    (hproperty : scope.properties.get? property.name = some type)
    (hinitial : property.initializer = some (.value e))
    (h : stateVar scope modifiers property = .ok sv) :
    sv.initial = some (.literal pos (storedType true type value) value) := by
  rw [stateVar, check_eq_ok] at h
  obtain ⟨-, h⟩ := h
  rw [hinitial, hproperty] at h
  dsimp only at h
  rw [check_eq_ok] at h
  obtain ⟨w', hw', h⟩ := bind_eq_ok.1 h.2
  cases he.unique (denotes_of_expression hw')
  rw [check_eq_ok] at h
  cases pure_eq_ok.1 h.2
  have hconditional : w.isConditional = false :=
    Bool.eq_false_iff.2 fun hw => h.1 (hasConditional_of_isConditional hw)
  rw [choices_of_isConditional_eq_false hconditional, List.mem_singleton] at hv
  subst hv
  exact congrArg some (retag_of_text htype hvalue)

/-- **A text takes the type of its place where that is known.** Take an expression that comes to a
text, by itself, by the name of a constant or as one side of a conditional, and a place of bytes or
of an address.

A statement that puts the expression there stores it last. A text that stands by itself is stored
with the type of the place if that is known: in a local, in a property of the class, as a result. In
an entry and in a property that the class inherits it stays a text. The sides of a conditional stay
texts in every place; the statements in front store them. A text that a property starts with
has the type of the property. A text that spells an address is an address in every place.

So just in these cases is the type that of the place, and just if the text spells an address, or is
put in a place of bytes and spells none, is it one word whether the type is known or not. -/
theorem texts_take_known_types {w : Expr} (htype : type.takesTexts) (he : Denotes scope e w)
    (hv : v ∈ w.choices) (hvalue : text pos value = .ok v) :
    (∀ inherited returns s target next r, Puts scope inherited returns e type s target →
      statement returns s scope next = .ok r →
      ∃ before last x, r.body = before ++ [last] ∧ last.stored? = some (target, x) ∧
        if w.isConditional then
          Stmt.Stores before (.literal pos (storedType false type value) value)
        else x = .literal pos (storedType (target.knowsType scope) type value) value) ∧
    (∀ modifiers property sv, scope.properties.get? property.name = some type →
      property.initializer = some (.value e) → stateVar scope modifiers property = .ok sv →
      sv.initial = some (.literal pos (storedType true type value) value)) ∧
    (∀ known, storedType known type value = type ↔
      if isAddressLiteral value then type = .address none else known) ∧
    ∀ p, Emit.wordOf p (storedType true type value) value =
        Emit.wordOf p (storedType false type value) value ↔
      isAddressLiteral value ∨ type = .bytes ∧ Emit.isHexWord 64 value = false :=
  ⟨fun _ _ _ _ _ _ => stored_of_puts htype he hv hvalue,
    fun _ _ _ => initial_of_stateVar htype he hv hvalue,
    fun known => storedType_eq_iff htype known value,
    wordOf_storedType_eq_iff htype hvalue⟩

/-! ## A seal -/

/-- The scope of a body: a property of bytes, and a mapping to bytes. -/
def sealScope : Scope where
  properties := [("seal", .bytes), ("seals", .mapping [.number] .bytes)]

/-- The text of two bytes. -/
def sealText : Expression :=
  onLine 3 (.text { line := 3 } "0x1234") []

/-- The assignment `this.seal = "0x1234"`. -/
def sealProperty : Statement :=
  .assign { line := 1 } (onLine 2 (.this { line := 2 }) [.member { line := 2 } "seal"]) .replace
    sealText

/-- The assignment `this.seals[1] = "0x1234"`. -/
def sealEntry : Statement :=
  .assign { line := 1 } (onLine 2 (.this { line := 2 }) [.member { line := 2 } "seals",
    .index { line := 2 } (onLine 2 (.number { line := 2 } "1") [])]) .replace sealText

/-- **Two bytes in a property are four digits in an entry.** Both places are of bytes: the property
is set to the two bytes that the text spells, and the entry to its six characters. -/
theorem texts_take_known_types_seal :
    (∃ r, statement .void sealProperty sealScope 0 = .ok r ∧
      ∃ before last, r.body = before ++ [last] ∧
        last.stored? = some (.property "seal", .literal { line := 3 } .bytes "0x1234")) ∧
    (∃ r, statement .void sealEntry sealScope 0 = .ok r ∧
      ∃ before last, r.body = before ++ [last] ∧
        last.stored? = some (.entry "seals", .literal { line := 3 } .text "0x1234")) ∧
    Emit.wordOf {} .bytes "0x1234" ≠ Emit.wordOf {} .text "0x1234" := by
  have hvalue : text { line := 3 } "0x1234" = .ok (.literal { line := 3 } .text "0x1234") :=
    text_eq_ok.2 (.inr ⟨by decide +kernel, by decide +kernel, rfl⟩)
  have he : Denotes sealScope sealText (.literal { line := 3 } .text "0x1234") :=
    (denotes_of_soleOperand rfl).2 (.text hvalue)
  have hbytes : Ty.bytes.takesTexts := rfl
  obtain ⟨hputs, -, -, hwords⟩ :=
    texts_take_known_types hbytes he (List.mem_singleton_self _) hvalue
  have haccepted (s : Statement) (hs : (statement .void s sealScope 0).toOption.isSome) :
      ∃ r, statement .void s sealScope 0 = .ok r := by
    obtain ⟨r, hr⟩ := Option.isSome_iff_exists.1 hs
    exact ⟨r, toOption_eq_some.1 hr⟩
  refine ⟨?_, ?_, ?_⟩
  · obtain ⟨r, hr⟩ := haccepted sealProperty (by decide +kernel)
    obtain ⟨before, last, x, hbody, hlast, rfl⟩ :=
      hputs [] .void sealProperty (.property "seal") 0 r (.property rfl rfl) hr
    exact ⟨r, hr, before, last, hbody, hlast⟩
  · obtain ⟨r, hr⟩ := haccepted sealEntry (by decide +kernel)
    obtain ⟨before, last, x, hbody, hlast, rfl⟩ :=
      hputs [] .void sealEntry (.entry "seals") 0 r (.entry rfl rfl) hr
    exact ⟨r, hr, before, last, hbody, hlast⟩
  · intro heq
    rcases (hwords {}).1 heq with haddress | ⟨-, hhex⟩
    · exact absurd haddress (by decide +kernel)
    · exact absurd hhex (by decide +kernel)

end Resolve

end Covenant
