import Covenant.Proofs.Execution.Run
import Covenant.Proofs.Machine.Frames
import Covenant.Proofs.Storage.Access
import Mathlib.Algebra.Group.Int.Defs

/-!
# Checked arithmetic

The shared functions for arithmetic give the exact result where it fits in a word, and revert where
it does not or where the divisor is zero. A power is computed by squaring; that a square is taken
only while it is still needed makes the test exact.
-/

namespace Covenant

namespace Machine

open Emit Execution Storage

variable {host : Host} {code : List Yul.Function} {rounds p : Nat} {s : State} {a b : Word}

/-- The words of a result. -/
def oneWord (r : Except Panic Word) : Except Panic (List Word) :=
  r.map ([·])

/-- The code with which checked arithmetic reverts. -/
def arithmeticCode : Panic → Word
  | .division => 0x12
  | _ => 0x11

/-- **A run gives the one word of a result and changes nothing**, or it reverts with the code of
what went wrong. -/
def Settles (x : Action (List Word)) (s : State) : Except Panic Word → Prop
  | .ok w => x s = .ok [w] s
  | .error why => RevertsWith (panicData (arithmeticCode why)) x s

theorem Settles.yields {x : Action (List Word)} {r : Except Panic Word} (h : Settles x s r) :
    Yields p x s (oneWord r) := by
  cases r with
  | ok w => exact ⟨s, h, .refl p s⟩
  | error why => exact RevertsWith.reverts h

theorem ofNumeral_overflowCode : Word.ofNumeral "0x11" = 0x11 := by
  decide

theorem ofNumeral_divisionCode : Word.ofNumeral "0x12" = 0x12 := by
  decide

/-! ## Sums and differences -/

/-- A sum that wrapped is below its first summand, and no other is. -/
theorem add_lt_iff : a + b < a ↔ ¬ a.toNat + b.toNat < 2 ^ 256 := by
  have ha := a.isLt
  have hb := b.isLt
  rw [BitVec.lt_def, BitVec.toNat_add]
  omega

theorem fit_of_lt {n : Nat} (h : n < 2 ^ 256) : fit n = .ok (BitVec.ofNat 256 n) :=
  if_pos h

theorem fit_of_not_lt {n : Nat} (h : ¬ n < 2 ^ 256) : fit n = .error .overflow :=
  if_neg h

/-- **The checked sum is exact, or it panics.** -/
theorem settles_checkedAdd (hpanic : function? code "panic_error" = some panicError) :
    Settles (runFunction host code (rounds + 1) checkedAdd [a, b]) s (operate .add a b) := by
  rw [operate]
  by_cases h : a.toNat + b.toNat < 2 ^ 256
  · have hsum : ¬ a + b < a := fun hlt => add_lt_iff.1 hlt h
    have hword : BitVec.ofNat 256 (a.toNat + b.toNat) = a + b := by
      rw [BitVec.ofNat_add, BitVec.ofNat_toNat, BitVec.ofNat_toNat]
      rfl
    rw [fit_of_lt h, hword]
    simp [Settles, runFunction, invoke, checkedAdd, Locals.get?, Locals.set, Table.get?_cons,
      Table.set, Word.truth, hsum]
  · rw [fit_of_not_lt h]
    refine ⟨panicked 0x11 s, ?_⟩
    rw [runFunction]
    simp [arithmeticCode, invoke, checkedAdd, Locals.get?, Locals.set, Table.get?_cons, Table.set,
      Word.truth, add_lt_iff.2 h, overflowCode, ofNumeral_overflowCode, apply_panicError host
      rounds hpanic, runFunction_panicError, panicked]

/-- **The checked difference is exact, or it panics.** -/
theorem settles_checkedSub (hpanic : function? code "panic_error" = some panicError) :
    Settles (runFunction host code (rounds + 1) checkedSub [a, b]) s (operate .sub a b) := by
  rw [operate]
  by_cases h : b.toNat ≤ a.toNat
  · have hlt : ¬ a < b := by
      rw [BitVec.lt_def]
      omega
    rw [if_pos h]
    simp [Settles, runFunction, invoke, checkedSub, Locals.get?, Locals.set, Table.get?_cons,
      Table.set, Word.truth, hlt, Yul.Expr.sub]
  · have hlt : a < b := by
      rw [BitVec.lt_def]
      omega
    rw [if_neg h]
    refine ⟨panicked 0x11 s, ?_⟩
    rw [runFunction]
    simp [arithmeticCode, invoke, checkedSub, Locals.get?, Table.get?_cons, Word.truth, hlt,
      overflowCode, ofNumeral_overflowCode, apply_panicError host rounds hpanic,
      runFunction_panicError, panicked]

/-! ## Products -/

/-- The test for a product: dividing by the first factor gives the second one back. -/
theorem mul_div_eq_iff (ha : a ≠ 0) : a * b / a = b ↔ a.toNat * b.toNat < 2 ^ 256 := by
  have hpos : 0 < a.toNat := by
    rcases Nat.eq_zero_or_pos a.toNat with h | h
    · exact absurd (BitVec.eq_of_toNat_eq h) ha
    · exact h
  rw [← BitVec.toNat_inj, BitVec.toNat_udiv, BitVec.toNat_mul]
  constructor
  · intro h
    have hle : a.toNat * (a.toNat * b.toNat % 2 ^ 256 / a.toNat) ≤ a.toNat * b.toNat % 2 ^ 256 :=
      Nat.mul_div_le _ _
    rw [h] at hle
    have hlt : a.toNat * b.toNat % 2 ^ 256 < 2 ^ 256 := Nat.mod_lt _ (by omega)
    omega
  · intro h
    rw [Nat.mod_eq_of_lt h, Nat.mul_div_cancel_left _ hpos]

/-- A product that wrapped does not divide back. -/
theorem mul_fits_iff : a = 0 ∨ a * b / a = b ↔ a.toNat * b.toNat < 2 ^ 256 := by
  by_cases ha : a = 0
  · simp [ha]
  · rw [or_iff_right ha, mul_div_eq_iff ha]

/-- **The product of two words**, with its exact result. -/
theorem runFunction_checkedMul_of_lt (h : a.toNat * b.toNat < 2 ^ 256) :
    runFunction host code rounds checkedMul [a, b] s = .ok [a * b] s := by
  by_cases ha : a = 0#256
  · simp [runFunction, invoke, checkedMul, Locals.get?, Locals.set, Table.get?_cons, Table.set,
      Word.truth, ha]
  · have hb := (mul_fits_iff.2 h).resolve_left ha
    simp [runFunction, invoke, checkedMul, Locals.get?, Locals.set, Table.get?_cons, Table.set,
      Word.truth, ha, hb]

/-- **A product that does not fit** is refused. -/
theorem runFunction_checkedMul_of_ge (hpanic : function? code "panic_error" = some panicError)
    (h : ¬ a.toNat * b.toNat < 2 ^ 256) :
    runFunction host code (rounds + 1) checkedMul [a, b] s
      = .error (.reverted (panicData 0x11)) (panicked 0x11 s) := by
  obtain ⟨ha, hb⟩ := not_or.1 (mt mul_fits_iff.1 h)
  change ¬ a = 0#256 at ha
  rw [runFunction]
  simp [invoke, checkedMul, Locals.get?, Locals.set, Table.get?_cons, Table.set, Word.truth, ha, hb,
    overflowCode, ofNumeral_overflowCode, apply_panicError host rounds hpanic,
    runFunction_panicError, panicked]

theorem ofNat_mul_toNat (a b : Word) : BitVec.ofNat 256 (a.toNat * b.toNat) = a * b := by
  rw [BitVec.ofNat_mul, BitVec.ofNat_toNat, BitVec.ofNat_toNat]
  rfl

/-- **The checked product is exact, or it panics.** -/
theorem settles_checkedMul (hpanic : function? code "panic_error" = some panicError) :
    Settles (runFunction host code (rounds + 1) checkedMul [a, b]) s (operate .mul a b) := by
  rw [operate]
  by_cases h : a.toNat * b.toNat < 2 ^ 256
  · rw [fit_of_lt h, ofNat_mul_toNat]
    exact runFunction_checkedMul_of_lt h
  · rw [fit_of_not_lt h]
    exact ⟨_, runFunction_checkedMul_of_ge hpanic h⟩

/-! ## Quotients and remainders -/

/-- **A checked division** gives what its operation gives on a divisor that is not zero, and
reverts on zero. -/
theorem settles_checkedDivision {name result operation : String} {w : Word}
    (hresult : result ≠ "x" ∧ result ≠ "y")
    (hoperation : b ≠ 0 → apply host code (rounds + 1) [] operation [a, b] = pure [w])
    (hpanic : function? code "panic_error" = some panicError) :
    Settles (runFunction host code (rounds + 1) (checkedDivision name result operation) [a, b]) s
      (if b = 0 then .error .division else .ok w) := by
  by_cases h : b = 0
  · rw [if_pos h]
    refine ⟨panicked 0x12 s, ?_⟩
    rw [runFunction]
    simp [arithmeticCode, invoke, checkedDivision, Locals.get?, Table.get?_cons, Word.truth, h,
      divisionCode, ofNumeral_divisionCode, apply_panicError host rounds hpanic,
      runFunction_panicError, panicked]
  · rw [if_neg h]
    have hgives := hoperation h
    obtain ⟨hx, hy⟩ := hresult
    change ¬ b = 0#256 at h
    simp [Settles, runFunction, invoke, checkedDivision, quotedNames, Locals.get?, Locals.set,
      Table.get?_cons, Table.set, Word.truth, h, hgives, hx, hx.symm,
      hy, hy.symm]

/-- **The checked quotient is that of plain numbers, or it panics.** -/
theorem settles_checkedDiv (hpanic : function? code "panic_error" = some panicError) :
    Settles (runFunction host code (rounds + 1) checkedDiv [a, b]) s (operate .div a b) :=
  settles_checkedDivision (by decide) (fun _ => apply_div a b) hpanic

/-- **The checked remainder is that of plain numbers, or it panics**: the machine gives zero for the
divisor zero, which is refused before. -/
theorem settles_checkedMod (hpanic : function? code "panic_error" = some panicError) :
    Settles (runFunction host code (rounds + 1) checkedMod [a, b]) s (operate .mod a b) :=
  settles_checkedDivision (by decide) (fun h => by rw [apply_mod, if_neg h]) hpanic

/-! ## Powers -/

/-- The variables of the function for powers. -/
def powerLocals (base exponent power : Word) : Locals Word :=
  { inner := [("base", base), ("exponent", exponent), ("power", power)] }

/-- The state in which a power is computed. -/
def powerState (s : State) (base exponent power : Word) : State :=
  { s with locals := powerLocals base exponent power }

section Powers

variable {base exponent power : Word} {n r : Nat}

theorem and_one_eq_zero_iff : exponent &&& 1 = 0 ↔ exponent.toNat % 2 = 0 := by
  rw [← BitVec.toNat_inj, BitVec.toNat_and]
  exact iff_of_eq (congrArg (· = 0) (Nat.and_one_is_mod _))

theorem apply_checkedMul (hmul : function? code "checked_mul" = some checkedMul)
    (names : List String) (words : List Word) :
    apply host code (rounds + 1) names "checked_mul" words
      = runFunction host code rounds checkedMul words :=
  apply_of_function (by simp [operationNames]) hmul

/-- The function multiplies by the base where the exponent is odd. -/
def powerMultiply : Yul.Stmt :=
  .guard (.binary "and" (.var "exponent") (.num 1))
    (.assign "power" (.binary "checked_mul" (.var "power") (.var "base")))

/-- It squares the base where more of the exponent is to come. -/
def powerSquare : Yul.Stmt :=
  .guard (.binary "gt" (.var "exponent") (.num 1))
    (.assign "base" (.binary "checked_mul" (.var "base") (.var "base")))

/-- The state within a round. -/
def inRound (s : State) (base exponent power : Word) : State :=
  { s with locals := (powerLocals base exponent power).enter }

/-- What the power is multiplied by in a round. -/
def roundFactor (base exponent : Word) : Nat :=
  if exponent.toNat % 2 = 0 then 1 else base.toNat

theorem exec_powerMultiply (hmul : function? code "checked_mul" = some checkedMul)
    (hfits : power.toNat * roundFactor base exponent < 2 ^ 256) :
    ∃ next : Word, next.toNat = power.toNat * roundFactor base exponent ∧
      exec (apply host code (rounds + 1)) n powerMultiply (inRound s base exponent power)
        = .ok .next (inRound s base exponent next) := by
  unfold roundFactor at hfits ⊢
  split
  · rename_i heven
    have hand : exponent &&& 1#256 = 0#256 := and_one_eq_zero_iff.2 heven
    refine ⟨power, (Nat.mul_one _).symm, ?_⟩
    simp [powerMultiply, inRound, powerLocals, Locals.get?, Locals.enter, Table.get?_cons, hand]
  · rename_i hodd
    rw [if_neg hodd] at hfits
    have hand : ¬ exponent &&& 1#256 = 0#256 := mt and_one_eq_zero_iff.1 hodd
    refine ⟨power * base, by rw [BitVec.toNat_mul, Nat.mod_eq_of_lt hfits], ?_⟩
    simp [powerMultiply, inRound, powerLocals, Locals.get?, Table.get?_cons, hand,
      apply_checkedMul hmul, runFunction_checkedMul_of_lt hfits, Locals.enter, Locals.leave,
      Locals.set, Locals.setFirst, Table.set]

theorem reverts_powerMultiply (hmul : function? code "checked_mul" = some checkedMul)
    (hpanic : function? code "panic_error" = some panicError)
    (hfits : ¬ power.toNat * roundFactor base exponent < 2 ^ 256) :
    RevertsWith (panicData 0x11) (exec (apply host code (rounds + 2)) n powerMultiply)
      (inRound s base exponent power) := by
  unfold roundFactor at hfits
  split at hfits
  · rw [Nat.mul_one] at hfits
    exact absurd power.isLt hfits
  · rename_i hodd
    have hand : ¬ exponent &&& 1#256 = 0#256 := mt and_one_eq_zero_iff.1 hodd
    simp [RevertsWith, powerMultiply, inRound, powerLocals, Locals.get?, Table.get?_cons, hand,
      apply_checkedMul hmul, runFunction_checkedMul_of_ge hpanic hfits, Locals.enter]

/-- What the base is replaced by in a round. -/
def roundBase (base exponent : Word) : Nat :=
  if 1 < exponent.toNat then base.toNat * base.toNat else base.toNat

theorem exec_powerSquare (hmul : function? code "checked_mul" = some checkedMul)
    (hfits : roundBase base exponent < 2 ^ 256) :
    ∃ next : Word, next.toNat = roundBase base exponent ∧
      exec (apply host code (rounds + 1)) n powerSquare (inRound s base exponent power)
        = .ok .next (inRound s next exponent power) := by
  unfold roundBase at hfits ⊢
  split
  · rename_i hmore
    rw [if_pos hmore] at hfits
    have hlt : 1#256 < exponent := hmore
    refine ⟨base * base, by rw [BitVec.toNat_mul, Nat.mod_eq_of_lt hfits], ?_⟩
    simp [powerSquare, inRound, powerLocals, Locals.get?, Table.get?_cons, Word.truth, hlt,
      apply_checkedMul hmul, runFunction_checkedMul_of_lt hfits, Locals.enter, Locals.leave,
      Locals.set, Locals.setFirst, Table.set]
  · rename_i hlast
    have hlt : ¬ 1#256 < exponent := hlast
    refine ⟨base, rfl, ?_⟩
    simp [powerSquare, inRound, powerLocals, Locals.get?, Locals.enter, Table.get?_cons, Word.truth,
      hlt]

theorem reverts_powerSquare (hmul : function? code "checked_mul" = some checkedMul)
    (hpanic : function? code "panic_error" = some panicError)
    (hfits : ¬ roundBase base exponent < 2 ^ 256) :
    RevertsWith (panicData 0x11) (exec (apply host code (rounds + 2)) n powerSquare)
      (inRound s base exponent power) := by
  unfold roundBase at hfits
  split at hfits
  · rename_i hmore
    have hlt : 1#256 < exponent := hmore
    simp [RevertsWith, powerSquare, inRound, powerLocals, Locals.get?, Table.get?_cons, Word.truth,
      hlt, apply_checkedMul hmul, runFunction_checkedMul_of_ge hpanic hfits, Locals.enter]
  · exact absurd base.isLt hfits

/-- **A round does not change the power that is left to compute.** -/
theorem round_power (base exponent power : Word) (h : exponent.toNat ≠ 0) :
    power.toNat * roundFactor base exponent * roundBase base exponent ^ (exponent.toNat / 2)
      = power.toNat * base.toNat ^ exponent.toNat := by
  unfold roundFactor roundBase
  obtain ⟨e, he⟩ : ∃ e, exponent.toNat = e := ⟨_, rfl⟩
  rw [he] at h ⊢
  have hsplit := Nat.div_add_mod e 2
  rw [Nat.mul_assoc]
  congr 1
  rcases Nat.mod_two_eq_zero_or_one e with heven | hodd
  · rw [if_pos heven, if_pos (by omega), Nat.one_mul, ← Nat.pow_two, ← Nat.pow_mul]
    congr 1
    omega
  · rw [if_neg (by omega)]
    split
    · rw [← Nat.pow_two, ← Nat.pow_mul, ← Nat.pow_succ']
      congr 1
      omega
    · have hone : e = 1 := by omega
      subst hone
      simp

/-- A factor that is too large makes the power too large. -/
theorem le_of_roundFactor (h : exponent.toNat ≠ 0)
    (hfits : ¬ power.toNat * roundFactor base exponent < 2 ^ 256) :
    ¬ power.toNat * base.toNat ^ exponent.toNat < 2 ^ 256 := by
  unfold roundFactor at hfits
  split at hfits
  · rw [Nat.mul_one] at hfits
    exact absurd power.isLt hfits
  · have hbase : 0 < base.toNat := by
      rcases Nat.eq_zero_or_pos base.toNat with hzero | hpos
      · rw [hzero, Nat.mul_zero] at hfits
        exact absurd (by decide) hfits
      · exact hpos
    have hle : base.toNat ≤ base.toNat ^ exponent.toNat := Nat.le_self_pow h _
    have hmul := Nat.mul_le_mul_left power.toNat hle
    omega

/-- A base that is too large makes the power too large, as long as nothing was multiplied by
zero. -/
theorem le_of_roundBase (h : exponent.toNat ≠ 0) (hzero : power.toNat = 0 → base.toNat = 0)
    (hfits : ¬ roundBase base exponent < 2 ^ 256) :
    ¬ power.toNat * base.toNat ^ exponent.toNat < 2 ^ 256 := by
  rw [← round_power base exponent power h]
  have hbase : base.toNat ≠ 0 := by
    intro hbase
    unfold roundBase at hfits
    rw [hbase] at hfits
    split at hfits <;> exact absurd (by decide) hfits
  have hmore : 1 < exponent.toNat := by
    by_contra hlast
    rw [roundBase, if_neg hlast] at hfits
    exact hfits base.isLt
  have hfactor : 0 < power.toNat * roundFactor base exponent := by
    refine Nat.mul_pos (Nat.pos_of_ne_zero (mt hzero hbase)) ?_
    unfold roundFactor
    split <;> omega
  have hpow : roundBase base exponent ≤ roundBase base exponent ^ (exponent.toNat / 2) :=
    Nat.le_self_pow (by omega) _
  have hle := Nat.mul_le_mul hfactor hpow
  omega

/-- It goes on with the other half of the exponent. -/
def powerHalve : Yul.Stmt :=
  .assign "exponent" (.binary "shr" (.num 1) (.var "exponent"))

/-- The loop of the function for powers. -/
def powerLoop (run : Apply) (n : Nat) : Nat → Action Flow :=
  iterate (single (eval run (.var "exponent")))
    (inBlock (execAll run n [powerMultiply, powerSquare])) (exec run n powerHalve)

theorem exec_loop {run : Apply} : exec run n
    (.loop (.var "exponent") powerHalve [powerMultiply, powerSquare]) = powerLoop run n n := by
  rw [exec, powerLoop]

theorem powerLoop_zero {run : Apply} :
    powerLoop run n (r + 1) (powerState s base 0 power)
      = .ok .next (powerState s base 0 power) := by
  simp [powerLoop, iterate, powerState, powerLocals, Locals.get?, Table.get?_cons]

/-- The body of the loop, if it reaches its end. -/
theorem inBlock_round (hmul : function? code "checked_mul" = some checkedMul)
    (hfactor : power.toNat * roundFactor base exponent < 2 ^ 256)
    (hbase : roundBase base exponent < 2 ^ 256) :
    ∃ base' power' : Word, base'.toNat = roundBase base exponent ∧
      power'.toNat = power.toNat * roundFactor base exponent ∧
      inBlock (execAll (apply host code (rounds + 1)) n [powerMultiply, powerSquare])
          (powerState s base exponent power)
        = .ok .next (powerState s base' exponent power') := by
  obtain ⟨power', hpower', hfirst⟩ := exec_powerMultiply (n := n) (s := s) hmul hfactor
  obtain ⟨base', hbase', hsecond⟩ := exec_powerSquare (n := n) (s := s) hmul hbase
  refine ⟨base', power', hbase', hpower', ?_⟩
  have hall : execAll (apply host code (rounds + 1)) n [powerMultiply, powerSquare]
      (inRound s base exponent power) = .ok .next (inRound s base' exponent power') :=
    (execAll_of_next hfirst).trans ((execAll_of_next hsecond).trans rfl)
  exact inBlock_of_ok (s := powerState s base exponent power) hall

theorem reverts_round (hmul : function? code "checked_mul" = some checkedMul)
    (hpanic : function? code "panic_error" = some panicError)
    (h : power.toNat * roundFactor base exponent < 2 ^ 256 → ¬ roundBase base exponent < 2 ^ 256) :
    RevertsWith (panicData 0x11)
      (inBlock (execAll (apply host code (rounds + 2)) n [powerMultiply, powerSquare]))
      (powerState s base exponent power) := by
  refine RevertsWith.inBlock ?_
  by_cases hfactor : power.toNat * roundFactor base exponent < 2 ^ 256
  · obtain ⟨power', -, hfirst⟩ := exec_powerMultiply (n := n) (s := s) hmul hfactor
    exact .execAll_of_next hfirst (.execAll (reverts_powerSquare hmul hpanic (h hfactor)))
  · exact .execAll (reverts_powerMultiply hmul hpanic hfactor)

/-- A round ends by halving the exponent. -/
theorem exec_halve :
    exec (apply host code rounds) n powerHalve (powerState s base exponent power)
      = .ok .next (powerState s base (exponent >>> 1) power) := by
  simp [powerHalve, powerState, powerLocals, Locals.get?, Table.get?_cons, Locals.set, Table.set]

/-- The loop goes on with what a round leaves. -/
theorem powerLoop_succ (h : exponent.toNat ≠ 0)
    (hround : inBlock (execAll (apply host code rounds) n [powerMultiply, powerSquare])
      (powerState s base exponent power) = .ok .next (powerState s a exponent b)) :
    powerLoop (apply host code rounds) n (r + 1) (powerState s base exponent power)
      = powerLoop (apply host code rounds) n r (powerState s a (exponent >>> 1) b) := by
  have hexponent : ¬ exponent = 0 := fun hzero => h (by rw [hzero]; rfl)
  have hcondition : single (eval (apply host code rounds) (.var "exponent"))
      (powerState s base exponent power) = .ok exponent (powerState s base exponent power) := by
    simp [powerState, powerLocals, Locals.get?, Table.get?_cons]
  rw [powerLoop, iterate, bind_apply, hcondition, andThen_ok, if_neg hexponent, bind_apply, hround,
    andThen_ok]
  dsimp only
  rw [bind_apply, exec_halve, andThen_ok]

theorem reverts_powerLoop (h : exponent.toNat ≠ 0)
    (hround : RevertsWith (panicData 0x11)
      (inBlock (execAll (apply host code rounds) n [powerMultiply, powerSquare]))
      (powerState s base exponent power)) :
    RevertsWith (panicData 0x11) (powerLoop (apply host code rounds) n (r + 1))
      (powerState s base exponent power) := by
  have hexponent : ¬ exponent = 0 := fun hzero => h (by rw [hzero]; rfl)
  have hcondition : single (eval (apply host code rounds) (.var "exponent"))
      (powerState s base exponent power) = .ok exponent (powerState s base exponent power) := by
    simp [powerState, powerLocals, Locals.get?, Table.get?_cons]
  rw [powerLoop, iterate]
  refine .bind_of_ok hcondition ?_
  rw [if_neg hexponent]
  exact hround.bind _

theorem powerLoop_done {run : Apply} (h : exponent.toNat = 0) :
    (∀ total : Word, total.toNat = power.toNat * base.toNat ^ exponent.toNat →
      ∃ base', powerLoop run n (r + 1) (powerState s base exponent power)
        = .ok .next (powerState s base' 0 total)) ∧
    (¬ power.toNat * base.toNat ^ exponent.toNat < 2 ^ 256 →
      RevertsWith (panicData 0x11) (powerLoop run n (r + 1))
        (powerState s base exponent power)) := by
  obtain rfl : exponent = 0 := BitVec.eq_of_toNat_eq h
  rw [h, Nat.pow_zero, Nat.mul_one]
  refine ⟨fun total htotal => ⟨base, ?_⟩, fun hlarge => absurd power.isLt hlarge⟩
  rw [BitVec.eq_of_toNat_eq htotal]
  exact powerLoop_zero

/-- **The loop computes a power**: where it fits in a word the loop ends with it, else it reverts.
By induction on the number of digits that the exponent has left; that a power of zero comes with a
base of zero is what makes every square that does not fit matter. -/
theorem powerLoop_spec (hmul : function? code "checked_mul" = some checkedMul)
    (hpanic : function? code "panic_error" = some panicError) {k : Nat}
    (hdigits : exponent.toNat < 2 ^ k) (hr : k < r) (hzero : power.toNat = 0 → base.toNat = 0) :
    (∀ total : Word, total.toNat = power.toNat * base.toNat ^ exponent.toNat →
      ∃ base', powerLoop (apply host code (rounds + 2)) n r (powerState s base exponent power)
        = .ok .next (powerState s base' 0 total)) ∧
    (¬ power.toNat * base.toNat ^ exponent.toNat < 2 ^ 256 →
      RevertsWith (panicData 0x11) (powerLoop (apply host code (rounds + 2)) n r)
        (powerState s base exponent power)) := by
  induction k generalizing r base exponent power with
  | zero =>
    obtain ⟨r, rfl⟩ := Nat.exists_eq_add_of_lt hr
    exact powerLoop_done (by omega)
  | succ k ih =>
    obtain ⟨r, rfl⟩ := Nat.exists_eq_add_of_lt hr
    by_cases he : exponent.toNat = 0
    · exact powerLoop_done he
    -- one more round, unless the factor or the square of the base does not fit
    by_cases hfits : power.toNat * roundFactor base exponent < 2 ^ 256 ∧
        roundBase base exponent < 2 ^ 256
    · obtain ⟨base', power', hbase', hpower', hround⟩ :=
        inBlock_round (n := n) (s := s) hmul hfits.1 hfits.2
      have hhalf : (exponent >>> 1).toNat = exponent.toNat / 2 := by
        rw [BitVec.toNat_ushiftRight, Nat.shiftRight_eq_div_pow, Nat.pow_one]
      have hzero' : power'.toNat = 0 → base'.toNat = 0 := by
        intro hpower
        rw [hpower', Nat.mul_eq_zero] at hpower
        have hbase : base.toNat = 0 := by
          rcases hpower with hpower | hfactor
          · exact hzero hpower
          · unfold roundFactor at hfactor
            split at hfactor
            · cases hfactor
            · exact hfactor
        rw [hbase', roundBase, hbase]
        split <;> rfl
      have hnext := ih (show (exponent >>> 1).toNat < 2 ^ k by omega)
        (show k < k + 1 + r by omega) hzero'
      rw [hhalf, hpower', hbase', round_power base exponent power he] at hnext
      rw [RevertsWith, powerLoop_succ he hround]
      exact hnext
    · -- what does not fit in this round does not fit at the end
      have hlarge : ¬ power.toNat * base.toNat ^ exponent.toNat < 2 ^ 256 := by
        by_cases hfactor : power.toNat * roundFactor base exponent < 2 ^ 256
        · exact le_of_roundBase he hzero fun hbase => hfits ⟨hfactor, hbase⟩
        · exact le_of_roundFactor he hfactor
      refine ⟨fun total htotal => absurd (htotal ▸ total.isLt) hlarge, fun _ => ?_⟩
      exact reverts_powerLoop he
        (reverts_round hmul hpanic fun hfactor hbase => hfits ⟨hfactor, hbase⟩)

/-- The function begins with the power one, and the rest is the loop. -/
theorem exec_powerBegin :
    exec (apply host code rounds) n (.assign "power" (.num 1)) (powerState s a b 0)
      = .ok .next (powerState s a b 1) := by
  simp [powerState, powerLocals, Locals.get?, Table.get?_cons, Locals.set, Table.set]

/-- **The power of two words**, where it fits in a word. -/
theorem settles_checkedExp (hmul : function? code "checked_mul" = some checkedMul)
    (hpanic : function? code "panic_error" = some panicError) (hrounds : 256 < rounds) :
    Settles (runFunction host code rounds checkedExp [a, b]) s (operate .pow a b) := by
  obtain ⟨r, rfl⟩ := Nat.exists_eq_add_of_lt hrounds
  have hspec := @powerLoop_spec host code (255 + r) s a b 1 (256 + r + 1) (256 + r + 1) hmul hpanic
    256 b.isLt hrounds (fun h => absurd h (by decide))
  rw [show (1 : Word).toNat = 1 from rfl, Nat.one_mul, show 255 + r + 2 = 256 + r + 1 by omega,
    ← exec_loop] at hspec
  rw [operate]
  by_cases h : a.toNat ^ b.toNat < 2 ^ 256
  · obtain ⟨base', hloop⟩ := hspec.1 (BitVec.ofNat 256 (a.toNat ^ b.toNat))
      (by rw [BitVec.toNat_ofNat, Nat.mod_eq_of_lt h])
    have hbody : execAll (apply host code (256 + r + 1)) (256 + r + 1) checkedExp.body
        (powerState s a b 0)
        = .ok .next (powerState s base' 0 (BitVec.ofNat 256 (a.toNat ^ b.toNat))) :=
      (execAll_of_next exec_powerBegin).trans ((execAll_of_next hloop).trans rfl)
    rw [fit_of_lt h]
    exact @invoke_of_ok checkedExp [a, b] _ s _ _ rfl hbody
  · rw [fit_of_not_lt h]
    refine RevertsWith.invoke rfl ?_
    exact .execAll_of_next (s := powerState s a b 0) exec_powerBegin (.execAll (hspec.2 h))

end Powers

/-! ## The exact results -/

/-- **The run gives an exact value** and changes nothing where a word can hold the value; where none
can, it reverts as an overflow. -/
structure Exact (x : Action (List Word)) (s : State) (value : Int) : Prop where
  gives : 0 ≤ value → value < 2 ^ 256 → ∃ w : Word, (w.toNat : Int) = value ∧ x s = .ok [w] s
  refuses : ¬ (0 ≤ value ∧ value < 2 ^ 256) → RevertsWith (panicData 0x11) x s

/-- **The run gives a value** that is there unless a divisor is zero, and changes nothing; where the
divisor is zero, it reverts as a division by zero. -/
structure Divides (x : Action (List Word)) (s : State) (divisor : Word) (value : Nat) : Prop where
  gives : divisor ≠ 0 → ∃ w : Word, w.toNat = value ∧ x s = .ok [w] s
  refuses : divisor = 0 → RevertsWith (panicData 0x12) x s

variable {x : Action (List Word)}

theorem Settles.exact_fit {n : Nat} (h : Settles x s (fit n)) : Exact x s n := by
  by_cases hfits : n < 2 ^ 256
  · rw [fit_of_lt hfits] at h
    refine ⟨fun _ _ => ⟨BitVec.ofNat 256 n, ?_, h⟩, fun hlarge => absurd hfits (by omega)⟩
    rw [BitVec.toNat_ofNat, Nat.mod_eq_of_lt hfits]
  · rw [fit_of_not_lt hfits] at h
    exact ⟨fun _ hlt => absurd hfits (by omega), fun _ => h⟩

theorem Settles.exact_sub (h : Settles x s (operate .sub a b)) :
    Exact x s ((a.toNat : Int) - b.toNat) := by
  have ha := a.isLt
  rw [operate] at h
  by_cases hle : b.toNat ≤ a.toNat
  · rw [if_pos hle] at h
    refine ⟨fun _ _ => ⟨a - b, ?_, h⟩, fun hlarge => absurd hle (by omega)⟩
    rw [BitVec.toNat_sub_of_le (BitVec.le_def.2 hle)]
    omega
  · rw [if_neg hle] at h
    exact ⟨fun hneg _ => absurd hle (by omega), fun _ => h⟩

theorem Settles.divides {w : Word} (h : Settles x s (if b = 0 then .error .division else .ok w)) :
    Divides x s b w.toNat := by
  refine ⟨fun hb => ⟨w, rfl, ?_⟩, fun hb => ?_⟩
  · rwa [if_neg hb] at h
  · rwa [if_pos hb] at h

/-- **Checked arithmetic is exact**, on all words. A sum, a difference, a product and a power are
the mathematical ones where these are words, and otherwise the code reverts as an overflow. A
quotient and a remainder are given unless the divisor is zero, and then the code reverts as a
division by zero. The rounds that are enough do not depend on the exponent, so the loop for a power
always ends. -/
theorem checked_arithmetic_exact (host : Host) {code : List Yul.Function} {rounds : Nat}
    (hpanic : function? code "panic_error" = some panicError)
    (hmul : function? code "checked_mul" = some checkedMul) (hrounds : 256 < rounds) (a b : Word)
    (s : State) :
    Exact (runFunction host code rounds checkedAdd [a, b]) s ((a.toNat : Int) + b.toNat) ∧
    Exact (runFunction host code rounds checkedSub [a, b]) s ((a.toNat : Int) - b.toNat) ∧
    Exact (runFunction host code rounds checkedMul [a, b]) s ((a.toNat : Int) * b.toNat) ∧
    Exact (runFunction host code rounds checkedExp [a, b]) s ((a.toNat : Int) ^ b.toNat) ∧
    Divides (runFunction host code rounds checkedDiv [a, b]) s b (a.toNat / b.toNat) ∧
    Divides (runFunction host code rounds checkedMod [a, b]) s b (a.toNat % b.toNat) := by
  have hexp := @settles_checkedExp host code rounds s a b hmul hpanic hrounds
  obtain ⟨rounds, rfl⟩ : ∃ r, rounds = r + 1 := ⟨rounds - 1, by omega⟩
  refine ⟨?_, (settles_checkedSub hpanic).exact_sub, ?_, ?_, ?_, ?_⟩
  · exact_mod_cast (settles_checkedAdd hpanic).exact_fit
  · exact_mod_cast (settles_checkedMul hpanic).exact_fit
  · exact_mod_cast hexp.exact_fit
  · rw [← BitVec.toNat_udiv]
    exact (settles_checkedDiv hpanic).divides
  · rw [← BitVec.toNat_umod]
    exact (settles_checkedMod hpanic).divides

/-- The square of 2¹²⁸ would not fit, but the power 2²⁵⁵ is computed without it; 2²⁵⁶ is refused. -/
theorem checked_arithmetic_exact_at_edge :
    (∃ w : Word, (w.toNat : Int) = 2 ^ 255 ∧
      runFunction ⟨fun _ => 0, [], 0, fun _ => 0, fun _ => none⟩ shared 257 checkedExp [2, 255]
        { storage := fun _ => 0 } = .ok [w] { storage := fun _ => 0 }) ∧
    RevertsWith (panicData 0x11)
      (runFunction ⟨fun _ => 0, [], 0, fun _ => 0, fun _ => none⟩ shared 257 checkedExp [2, 256])
        { storage := fun _ => 0 } := by
  have hexact := fun b : Word => (@checked_arithmetic_exact ⟨fun _ => 0, [], 0, fun _ => 0,
    fun _ => none⟩ shared 257 (by rfl) (by rfl) (by decide) 2 b
    { storage := fun _ => 0 }).2.2.2.1
  exact ⟨(hexact 255).gives (by decide) (by decide), (hexact 256).refuses (by decide)⟩

end Machine

end Covenant
