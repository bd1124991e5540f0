import Covenant.Proofs.Code.Statements
import Covenant.Proofs.Machine.Hashing
import Covenant.Proofs.Names.Mentions
import Covenant.Proofs.Simulation.Accesses
import Covenant.Proofs.Simulation.Interpreter

/-!
# Expressions on the machine

The code of an expression gives the word that the reference interpreter gives, or reverts where that
panics (`yields_of_codes`). The machine and the interpreter have to agree on storage and on the
locals that are read (`Agree`); evaluating code keeps them agreed, so that the order in which
operands are evaluated makes no difference.
-/

namespace Covenant

namespace Emit

/-- The code of an expression is no quoted name. -/
theorem Codes.ne_quoted {x : Context} : ∀ {e : Expr} {y : Yul.Expr}, Codes x e y →
    ∀ name, y ≠ .quoted name
  | _, _, .external h, name => h.ne_quoted name
  | _, _, @Codes.binary _ _ op _ _ _ _ _ _, _ => by cases op <;> simp [operation]
  | _, _, .literal _, _ | _, _, .var, _ | _, _, .storage _ _, _ | _, _, .entry _ _ _, _ => by simp
  | _, _, .length _, _ | _, _, .not _, _ | _, _, .this, _ | _, _, .environment _, _ => by simp
  | _, _, .hash _, _ | _, _, .call _ _ _ _, _ | _, _, .deploy _ _ _, _ => by simp

end Emit

namespace Machine

open Execution (Panic)

theorem oneWord_bind {α : Type} (r : Except Panic α) (f : α → Except Panic Word) :
    oneWord (r.bind f) = r.bind fun a => oneWord (f a) := by
  cases r <;> rfl

theorem truth_truth (b : Bool) : Word.truth (Word.truth b = 0) = Word.truth !b := by
  cases b <;> rfl

theorem decide_le (a b : Word) : decide (a ≤ b) = !decide (b < a) := by
  rw [← decide_not, decide_eq_decide, BitVec.not_lt]

theorem eval_nullary (run : Apply) (name : String) :
    eval run (.call name []) = run [] name [] := by
  rw [eval, evalArgs_nil]
  rfl

section Operators

variable {run : Apply} {p : Nat} {s : State} {yl yr : Yul.Expr} {ra rb : Except Panic Word}

/-- The words of two operands. -/
def bothWords (ra rb : Except Panic Word) : Except Panic (List Word) :=
  ra.bind fun a => rb.map fun b => [a, b]

theorem Yields.both (hl : ∀ name, yl ≠ .quoted name) (hr : ∀ name, yr ≠ .quoted name)
    (hleft : ∀ t, Still p s t → Yields p (eval run yl) t (oneWord ra))
    (hright : ∀ t, Still p s t → Yields p (eval run yr) t (oneWord rb)) :
    Yields p (evalArgs run [yl, yr]) s (bothWords ra rb) := by
  have hboth := Yields.cons hl (Yields.cons hr .nil hright) hleft
  cases ra with
  | error why => exact hboth
  | ok a =>
    cases rb with
    | error why => exact hboth
    | ok b => exact hboth

/-- An operation on two words, applied to the words of two operands. -/
theorem Yields.binary {name : String} {g : Word → Word → Except Panic Word}
    (hargs : Yields p (evalArgs run [yl, yr]) s (bothWords ra rb))
    (hrun : ∀ names a b t, Yields p (run names name [a, b]) t (oneWord (g a b))) :
    Yields p (eval run (.binary name yl yr)) s (oneWord (ra.bind fun a => rb.bind (g a))) := by
  cases ra with
  | error why => exact Reverts.bind hargs _
  | ok a =>
    cases rb with
    | error why => exact Reverts.bind hargs _
    | ok b =>
      refine Yields.call (g := fun _ => oneWord (g a b)) hargs fun words t hwords _ => ?_
      cases hwords
      exact hrun _ a b t

/-- The truth of a word being zero. -/
theorem Yields.isZero {host : Host} {code : List Yul.Function} {rounds : Nat} {y : Yul.Expr}
    {r : Except Panic Word} (hquoted : ∀ name, y ≠ .quoted name)
    (h : Yields p (eval (apply host code rounds) y) s (oneWord r)) :
    Yields p (eval (apply host code rounds) (.isZero y)) s
      (oneWord (r.map fun a => Word.truth (a = 0))) := by
  rw [Yul.Expr.isZero, eval, evalArgs_cons _ _ hquoted]
  cases r with
  | error why => exact .bind (.bind_of_ok rfl (.bind (.bind h _) _)) _
  | ok a =>
    obtain ⟨t, ha, hstill⟩ := h
    refine ⟨t, ?_, hstill⟩
    simp [ha]

end Operators

end Machine

namespace Simulation

open Emit Machine
open Execution (Panic operate)

variable {x : Context} {host : Host} {w : Reference.World} {code : List Yul.Function}
  {bodies : List Stmt} {p rounds : Nat} {ref : Reference.State} {s t : State}

/-! ## Operators -/

section Operators

variable {yl yr : Yul.Expr} {ra rb : Except Panic Word}

/-- A shared function of two words. -/
theorem yields_checked (hlinked : Linked x bodies code) {f : Yul.Function} (hcode : f ∈ code)
    (hshared : f ∈ shared) {g : Word → Word → Except Panic Word}
    (hrun : ∀ a b t, Yields p (runFunction host code rounds f [a, b]) t (oneWord (g a b)))
    (hargs : Yields p (evalArgs (apply host code (rounds + 1)) [yl, yr]) s (bothWords ra rb)) :
    Yields p (eval (apply host code (rounds + 1)) (.binary f.name yl yr)) s
      (oneWord (ra.bind fun a => rb.bind (g a))) := by
  refine .binary hargs fun names a b t => ?_
  rw [apply_of_function (isFunctionName_shared f hshared).not_mem_operationNames
    (function?_of_mem hlinked.distinct hcode)]
  exact hrun a b t

/-- An operation of the machine. -/
theorem yields_compared {run : Apply} {name : String} {g : Word → Word → Word}
    (hrun : ∀ names a b, run names name [a, b] = pure [g a b])
    (hargs : Yields p (evalArgs run [yl, yr]) s (bothWords ra rb)) :
    Yields p (eval run (.binary name yl yr)) s
      (oneWord (ra.bind fun a => rb.bind fun b => .ok (g a b))) := by
  refine .binary hargs fun names a b t => ?_
  rw [hrun]
  exact .pure p t _

/-- Where a comparison is given, its negation is its being zero. -/
theorem yields_negated {name : String} {g h : Word → Word → Bool}
    (hrun : ∀ names a b, apply host code rounds names name [a, b] = pure [Word.truth (g a b)])
    (hnot : ∀ a b, h a b = !g a b)
    (hargs : Yields p (evalArgs (apply host code rounds) [yl, yr]) s (bothWords ra rb)) :
    Yields p (eval (apply host code rounds) (.isZero (.binary name yl yr))) s
      (oneWord (ra.bind fun a => rb.bind fun b => .ok (Word.truth (h a b)))) := by
  have hzero := Yields.isZero (by simp) (yields_compared hrun hargs)
  have hresult : (ra.bind fun a => rb.bind fun b => .ok (Word.truth (g a b))).map
      (fun a => Word.truth (a = 0))
      = ra.bind fun a => rb.bind fun b => .ok (Word.truth (h a b)) := by
    cases ra with
    | error why => rfl
    | ok a =>
      cases rb with
      | error why => rfl
      | ok b => exact congrArg Except.ok ((truth_truth _).trans (by rw [hnot]))
  rwa [hresult] at hzero

theorem mem_calls_operation (op : BinaryOp) {name : String}
    (h : name ∈ Yul.Expr.callsAll [yl, yr]) : name ∈ (operation op yl yr).calls := by
  cases op <;> simp only [operation, Yul.Expr.binary, Yul.Expr.isZero, Yul.Expr.calls,
    Yul.Expr.callsAll, List.mem_cons, List.mem_append, List.append_nil] at h ⊢
  all_goals simp [h]

/-- **The code of an operator** gives its result, or reverts where it has none. -/
theorem yields_operation (hlinked : Linked x bodies code) (op : BinaryOp)
    (hshared : ∀ f ∈ shared, f.name ∈ (operation op yl yr).calls → f ∈ code)
    (hargs : Yields p (evalArgs (apply host code (rounds + 260)) [yl, yr]) s (bothWords ra rb)) :
    Yields p (eval (apply host code (rounds + 260)) (operation op yl yr)) s
      (oneWord (ra.bind fun a => rb.bind (operate op a))) := by
  -- the function of an operator that is checked is one of the shared ones
  have hchecked {f : Yul.Function} (hf : f ∈ shared)
      (hname : operation op yl yr = .binary f.name yl yr)
      (hrun : f ∈ code → ∀ a b t,
        Yields p (runFunction host code (rounds + 259) f [a, b]) t (oneWord (operate op a b))) :
      Yields p (eval (apply host code (rounds + 260)) (operation op yl yr)) s
        (oneWord (ra.bind fun a => rb.bind (operate op a))) := by
    have hcode := hshared f hf (by rw [hname]; exact List.mem_cons_self)
    rw [hname]
    exact yields_checked hlinked hcode hf (hrun hcode) hargs
  cases op with
  | add =>
    refine hchecked (f := checkedAdd) (by simp [shared]) rfl fun hcode _ _ _ => ?_
    exact (settles_checkedAdd (function?_panicError hlinked hcode (by decide))).yields
  | sub =>
    refine hchecked (f := checkedSub) (by simp [shared]) rfl fun hcode _ _ _ => ?_
    exact (settles_checkedSub (function?_panicError hlinked hcode (by decide))).yields
  | mul =>
    refine hchecked (f := checkedMul) (by simp [shared]) rfl fun hcode _ _ _ => ?_
    exact (settles_checkedMul (function?_panicError hlinked hcode (by decide))).yields
  | div =>
    refine hchecked (f := checkedDiv) (by simp [shared]) rfl fun hcode _ _ _ => ?_
    exact (settles_checkedDiv (function?_panicError hlinked hcode (by decide))).yields
  | mod =>
    refine hchecked (f := checkedMod) (by simp [shared]) rfl fun hcode _ _ _ => ?_
    exact (settles_checkedMod (function?_panicError hlinked hcode (by decide))).yields
  | pow =>
    refine hchecked (f := checkedExp) (by simp [shared]) rfl fun hcode _ _ _ => ?_
    obtain ⟨hmem, hmul⟩ := function?_shared hlinked hcode
      (show checkedMul ∈ shared by simp [shared]) (by decide)
    exact (settles_checkedExp hmul (function?_panicError hlinked hmem (by decide))
      (by omega)).yields
  | eq => exact yields_compared (fun _ _ _ => apply_eq _ _) hargs
  | ne => exact yields_negated (fun _ _ _ => apply_eq _ _) (fun _ _ => decide_not) hargs
  | lt => exact yields_compared (fun _ _ _ => apply_lt _ _) hargs
  | le => exact yields_negated (fun _ _ _ => apply_gt _ _) decide_le hargs
  | gt => exact yields_compared (fun _ _ _ => apply_gt _ _) hargs
  | ge => exact yields_negated (fun _ _ _ => apply_lt _ _) (fun a b => decide_le b a) hargs
  | and => exact yields_compared (fun _ _ _ => apply_and _ _) hargs
  | or | other => exact yields_compared (fun _ _ _ => apply_or _ _) hargs

end Operators

/-! ## Expressions -/

/-- **The machine agrees with the interpreter** on storage and on the locals of the method. -/
structure Agree (x : Context) (w : Reference.World) (p : Nat) (ref : Reference.State) (s : State) :
    Prop where
  storage : s.storage = ref.storage
  locals : ∀ name, s.locals.get? (localName name) = ref.locals.get? name
  prepared : Prepared x w p s.memory

theorem Agree.still (h : Agree x w p ref s) (hstill : Still p s t) : Agree x w p ref t where
  storage := hstill.storage.trans h.storage
  locals name := by rw [hstill.locals, h.locals]
  prepared := h.prepared.still hstill

/-- **What is asked of an expression itself**: it calls nothing, its literals are words, and what it
hashes is hashed by a function of the code and finds room in memory. -/
def Plain (code : List Yul.Function) (p : Nat) : Expr → Prop
  | .literal _ type text => WordLiteral type text
  | .hash _ inputs =>
    hashDefinition inputs.length ∈ code ∧ p + 32 * inputs.length < 2 ^ 256
  | .call _ _ _ _ | .deploy _ _ _ => False
  | _ => True

/-- **An expression can be evaluated**: all that is within it is plain, and the locals that it reads
are there. -/
structure Evaluable (code : List Yul.Function) (p : Nat) (ref : Reference.State) (e : Expr) :
    Prop where
  plain : ∀ part ∈ e.subexpressions, Plain code p part
  known : ∀ q ∈ e.reads, (ref.locals.get? q.2).isSome

namespace Evaluable

variable {e part : Expr}

theorem self (h : Evaluable code p ref e) : Plain code p e :=
  h.plain e (by rw [Expr.subexpressions_eq]; exact List.mem_cons_self)

theorem of_mem_parts (h : Evaluable code p ref e) (hpart : part ∈ e.parts) :
    Evaluable code p ref part where
  plain inner hinner := by
    refine h.plain inner ?_
    rw [Expr.subexpressions_eq]
    exact List.mem_cons_of_mem _ (List.mem_flatMap.2 ⟨part, hpart, hinner⟩)
  known q hq := by
    refine h.known q ?_
    rw [Expr.reads_of_parts_ne_nil (List.ne_nil_of_mem hpart)]
    exact List.mem_flatMap.2 ⟨part, hpart, hq⟩

end Evaluable

/-- What the environment answers with is no function of the code. -/
theorem function?_eq_none (hlinked : Linked x bodies code) {name : String}
    (h : ¬ IsFunctionName name) : function? code name = none :=
  List.find?_eq_none.2 fun f hf hname => h (of_decide_eq_true hname ▸ hlinked.names f hf)

/-- The instruction of a value of the environment does not have the name of a function. -/
theorem not_isFunctionName_builtin {space member : String} {m : EnvMember}
    (h : Environment.member? space member = some m) : ¬ IsFunctionName m.builtin := by
  refine forall_of_member? (P := fun m => ¬ IsFunctionName m.builtin) ?_ h
  unfold IsFunctionName
  decide

/-- What an instruction answers is given. -/
theorem yields_answer (hlinked : Linked x bodies code) {name : String} {a : Word}
    (h : host.Answers name a) (hname : ¬ IsFunctionName name) :
    Yields p (eval (apply host code rounds) (.call name [])) s
      (.ok [a] : Except Panic (List Word)) := by
  rw [eval_nullary, h.apply_eq (function?_eq_none hlinked hname)]
  exact .pure p s _

/-- The code of an expression gives the word of the expression, or reverts where it has none. -/
def Simulated (x : Context) (w : Reference.World) (host : Host) (code : List Yul.Function)
    (p rounds : Nat) (ref : Reference.State) (e : Expr) : Prop :=
  ∀ y, Codes x e y → Evaluable code p ref e →
    (∀ f ∈ shared, f.name ∈ y.calls → f ∈ code) → ∀ s, Agree x w p ref s →
    Yields p (eval (apply host code rounds) y) s (oneWord (Reference.eval w ref e))

theorem yields_each_of {es : List Expr} {ys : List Yul.Expr}
    (h : ∀ e ∈ es, Simulated x w host code p rounds ref e) (hcodes : CodesEach x es ys)
    (hevaluable : ∀ e ∈ es, Evaluable code p ref e)
    (hshared : ∀ f ∈ shared, f.name ∈ Yul.Expr.callsAll ys → f ∈ code)
    (hagree : Agree x w p ref s) :
    Yields p (evalArgs (apply host code rounds) ys) s (Reference.evalEach w ref es) := by
  induction es generalizing ys with
  | nil =>
    cases hcodes
    exact .nil
  | cons e es ih =>
    cases hcodes with
    | cons hfirst hrest =>
      rw [List.forall_mem_cons] at h hevaluable
      have hlater := ih h.2 hrest hevaluable.2 fun f hf hname =>
        hshared f hf (List.mem_append_right _ hname)
      exact .cons hfirst.ne_quoted hlater fun t hstill => h.1 _ hfirst hevaluable.1
        (fun f hf hname => hshared f hf (List.mem_append_left _ hname)) t (hagree.still hstill)

/-- **The code of an expression** gives the word of the expression, or reverts where it has none. -/
theorem yields_of_codes (hlinked : Linked x bodies code) (hserves : Serves x host w) (e : Expr) :
    Simulated x w host code p (rounds + 260) ref e := by
  induction e using Expr.induction with
  | h e ih =>
    intro y hcodes hevaluable hshared s hagree
    have hself := hevaluable.self
    have hparts part (hpart : part ∈ e.parts) := hevaluable.of_mem_parts hpart
    cases hcodes with
    | literal h =>
      rw [Reference.eval, ← ofNumeral_literalWord hself h, eval]
      exact .pure p s _
    -- each local that an expression reads has a value, or it could not be evaluated
    | var =>
      obtain ⟨a, ha⟩ := Option.isSome_iff_exists.1 (hevaluable.known _ List.mem_cons_self)
      rw [Reference.eval, ha]
      exact ⟨s, by simp [hagree.locals, ha], .refl p s⟩
    | storage h hword =>
      rw [Reference.eval, eval_nullary, ← hagree.storage]
      exact yields_getter hlinked hserves hagree.prepared h hword
    | length h =>
      rw [Reference.eval, eval_nullary, ← hagree.storage]
      exact yields_lengthGetter hlinked hserves h
    | this =>
      rw [Reference.eval]
      exact yields_answer hlinked hserves.self (by unfold IsFunctionName; decide)
    | environment h =>
      rw [Reference.eval]
      exact yields_answer hlinked (hserves.environment _ _ _ h) (not_isFunctionName_builtin h)
    | external h =>
      rw [Reference.eval]
      exact ih _ List.mem_cons_self _ h (hparts _ List.mem_cons_self) hshared s hagree
    | not h =>
      have hvalue := ih _ List.mem_cons_self _ h (hparts _ List.mem_cons_self)
        (fun f hf hname => hshared f hf (by simp [Yul.Expr.calls, Yul.Expr.callsAll, hname])) s
        hagree
      exact hvalue.isZero h.ne_quoted
    | @binary _ op left right yl yr hleft hright =>
      have hcalls (f : Yul.Function) (hf : f ∈ shared) hname :=
        hshared f hf (mem_calls_operation op hname)
      rw [Reference.eval_binary]
      -- what was evaluated first changed nothing that the other operand reads
      refine yields_operation hlinked op hshared
        (.both hleft.ne_quoted hright.ne_quoted (fun t hstill => ?_) (fun t hstill => ?_))
      · exact ih left List.mem_cons_self _ hleft (hparts left List.mem_cons_self)
          (fun f hf hname => hcalls f hf (by simp [Yul.Expr.callsAll, hname])) t
          (hagree.still hstill)
      · exact ih right (by simp [Expr.parts]) _ hright (hparts right (by simp [Expr.parts]))
          (fun f hf hname => hcalls f hf (by simp [Yul.Expr.callsAll, hname])) t
          (hagree.still hstill)
    | @entry _ name _ indices _ h hcount hindices =>
      have hargs := yields_each_of ih hindices hparts
        (fun f hf hname => hshared f hf (List.mem_cons_of_mem _ hname)) hagree
      rw [Reference.eval_entry, oneWord_bind]
      refine hargs.call fun keys t hkeys hstill => ?_
      have hlength : keys.length = indices.length := Reference.length_evalEach hkeys
      rw [← hlength] at hcount
      rw [← (hagree.still hstill).storage]
      exact yields_entry hlinked hserves h hcount
    | @hash _ inputs _ h =>
      obtain ⟨hcode, hroom⟩ := hself
      have hargs := yields_each_of ih h hparts
        (fun f hf hname => hshared f hf (List.mem_cons_of_mem _ hname)) hagree
      rw [Reference.eval_hash, oneWord_bind]
      refine hargs.call fun words t hwords hstill => ?_
      have hlength : words.length = inputs.length := Reference.length_evalEach hwords
      rw [← hlength] at hcode hroom ⊢
      obtain ⟨memory, trace, hrun, hkept⟩ := runFunction_hashDefinition words
        (hagree.still hstill).prepared.free hroom
      rw [apply_of_function (not_mem_operationNames (underscore_hashFunction _))
        (function?_of_mem hlinked.distinct hcode), hserves.keccak]
      exact ⟨_, hrun, rfl, rfl, rfl, fun i _ hi => hkept i hi⟩
    -- what can be evaluated by itself calls nothing
    | call | deploy => exact hself.elim

end Simulation

end Covenant
