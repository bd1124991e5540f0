import Covenant.Proofs.Machine.Run
import Covenant.Storage.Access

/-!
# Rules for running code

What the parts of a run do to a state, as rewrite rules: with them the simplifier runs code that is
given in full, on variables that are known by name. Operations of the machine are rewritten to what
they do, functions of the code to their bodies where the code is known to hold them.
-/

namespace Covenant

namespace Table

variable {α : Type}

@[simp] theorem has_nil (name : String) : has ([] : Table α) name = false := rfl

/-- A name is in a table if the first entry carries it or a later one does. -/
@[simp] theorem has_cons (t : Table α) (n name : String) (a : α) :
    has ((n, a) :: t) name = (decide (name = n) || has t name) := by
  rw [has_eq_isSome, get?_cons, has_eq_isSome]
  by_cases h : name = n
  · simp [h]
  · simp [h]

end Table

namespace Machine

open Storage

/-! ## Parts of a run -/

section Parts

variable {α β : Type}

/-- Two actions in a row: the second goes on from the state of the first. -/
@[simp] theorem bind_apply (x : Action α) (f : α → Action β) (s : State) :
    (x >>= f) s = andThen (x s) f := by
  cases h : x s with
  | ok a t => simp only [bind, EStateM.bind, h, andThen]
  | error why t => simp only [bind, EStateM.bind, h, andThen]

@[simp] theorem map_apply (x : Action α) (f : α → β) (s : State) :
    (f <$> x) s = andThen (x s) fun a => pure (f a) := by
  cases h : x s with
  | ok a t => simp only [Functor.map, EStateM.map, h, andThen, pure, EStateM.pure]
  | error why t => simp only [Functor.map, EStateM.map, h, andThen]

@[simp] theorem andThen_ok (a : α) (s : State) (f : α → Action β) :
    andThen (.ok a s) f = f a s := rfl

/-- A run that stopped goes no further. -/
@[simp] theorem andThen_error (why : Stop) (s : State) (f : α → Action β) :
    andThen (.error why s) f = .error why s := rfl

@[simp] theorem pure_apply (a : α) (s : State) : (pure a : Action α) s = .ok a s := rfl

@[simp] theorem state_apply (s : State) : state s = .ok s s := rfl

@[simp] theorem change_apply (f : State → State) (s : State) : change f s = .ok () (f s) := rfl

@[simp] theorem stop_apply (why : Stop) (s : State) : (stop why : Action α) s = .error why s := rfl

/-- A single word is asked for. -/
@[simp] theorem single_apply (x : Action (List Word)) (s : State) :
    single x s = andThen (x s) fun
      | [w] => pure w
      | _ => stop .stuck :=
  bind_apply x _ s

/-- A function whose body ends gives the values of its results. -/
theorem invoke_of_ok {f : Yul.Function} {args : List Word} {body : Action Flow} {s t : State}
    {flow : Flow} (hargs : args.length = f.params.length)
    (hbody : body { s with locals := { inner := f.params.zip args ++ f.results.map (·, 0) } }
      = .ok flow t) :
    invoke f args body s
      = .ok (f.results.map fun name => (t.locals.get? name).getD 0)
        { t with locals := s.locals } := by
  rw [invoke, if_pos hargs]
  simp only [bind_apply, state_apply, change_apply, andThen_ok, hbody, pure_apply]

/-- A function whose body stops, stops. -/
theorem invoke_of_error {f : Yul.Function} {args : List Word} {body : Action Flow} {s t : State}
    {why : Stop} (hargs : args.length = f.params.length)
    (hbody : body { s with locals := { inner := f.params.zip args ++ f.results.map (·, 0) } }
      = .error why t) :
    invoke f args body s = .error why t := by
  rw [invoke, if_pos hargs]
  simp only [bind_apply, state_apply, change_apply, andThen_ok, hbody, andThen_error]

/-- A function with the wrong number of words is stuck. -/
theorem invoke_of_ne {f : Yul.Function} {args : List Word} {body : Action Flow} {s : State}
    (hargs : args.length ≠ f.params.length) : invoke f args body s = .error .stuck s := by
  rw [invoke, if_neg hargs, stop_apply]

end Parts

attribute [simp] inBlock assign load store hash readWord writeWord stopWith execAll exec eval

/-- Statements run one after the other. -/
theorem execAll_append {run : Apply} {rounds : Nat} {first : List Yul.Stmt} {s t : State}
    (h : execAll run rounds first s = .ok .next t) (second : List Yul.Stmt) :
    execAll run rounds (first ++ second) s = execAll run rounds second t := by
  induction first generalizing s with
  | nil =>
    cases h
    rfl
  | cons stmt first ih =>
    rw [List.cons_append]
    simp only [execAll, bind_apply] at h ⊢
    cases hstmt : exec run rounds stmt s with
    | error why u =>
      rw [hstmt, andThen_error] at h
      cases h
    | ok flow u =>
      rw [hstmt, andThen_ok] at h
      rw [andThen_ok]
      cases flow with
      | next => exact ih h
      | left => cases h
      | broke => cases h

/-! ## Operands -/

/-- A small number is its word. -/
@[simp] theorem eval_num (run : Apply) (n : Nat) :
    eval run (.num n) = pure [BitVec.ofNat 256 n] := by
  rw [Yul.Expr.num, eval, Word.ofNumeral_decimal]

/-- A word in decimal digits is read as that word. -/
@[simp] theorem eval_decimal (run : Apply) (w : Word) : eval run (decimal w) = pure [w] := by
  rw [decimal, eval_num, BitVec.ofNat_toNat]
  rfl

/-- A word in hexadecimal digits is read as that word. -/
@[simp] theorem eval_hexadecimal (run : Apply) (w : Word) :
    eval run (hexadecimal w) = pure [w] := by
  rw [hexadecimal, eval, Word.ofNumeral_hexNat, BitVec.ofNat_toNat]
  rfl

@[simp] theorem num_ne_quoted (n : Nat) (name : String) : Yul.Expr.num n ≠ .quoted name := by
  simp [Yul.Expr.num]

@[simp] theorem decimal_ne_quoted (w : Word) (name : String) : decimal w ≠ .quoted name := by
  simp [decimal]

@[simp] theorem hexadecimal_ne_quoted (w : Word) (name : String) :
    hexadecimal w ≠ .quoted name := by
  simp [hexadecimal]

@[simp] theorem evalArgs_nil (run : Apply) : evalArgs run [] = pure [] := rfl

/-- A name in quotes is no argument. -/
@[simp] theorem evalArgs_quoted (run : Apply) (name : String) (rest : List Yul.Expr) :
    evalArgs run (.quoted name :: rest) = evalArgs run rest := rfl

/-- **Arguments are evaluated from the last to the first.** -/
@[simp] theorem evalArgs_cons (run : Apply) {e : Yul.Expr} (rest : List Yul.Expr)
    (h : ∀ name, e ≠ .quoted name) :
    evalArgs run (e :: rest) = (do
      let words ← evalArgs run rest
      let w ← single (eval run e)
      return w :: words) := by
  rw [evalArgs]
  exact h

/-! ## Names that are applied -/

/-- The names of the operations of the machine. -/
def operationNames : List String :=
  ["iszero", "not", "pop", "mload", "mstore", "sload", "sstore", "keccak256", "log1",
    "calldatasize", "calldataload", "callvalue", "loadimmutable", "return", "revert", "add", "sub",
    "mul", "div", "mod", "lt", "gt", "eq", "and", "or", "shl", "shr", "byte"]

/-- Only the names of operations stand for operations. -/
theorem builtin_eq_none {host : Host} {names : List String} {f : String} {words : List Word}
    (h : f ∉ operationNames) : builtin host names f words = none := by
  have hnames : (operations host).map Prod.fst = operationNames := rfl
  have hlookup : (operations host).lookup f = none := by
    refine List.lookup_eq_none_iff.2 fun entry hentry => bne_iff_ne.2 fun hname => h ?_
    rw [← hnames, hname]
    exact List.mem_map_of_mem hentry
  rw [builtin, hlookup, Option.bind_none]

/-- The names of operations have no underscore. -/
theorem not_mem_operationNames {name : String} (h : '_' ∈ name.toList) : name ∉ operationNames := by
  have hplain : ∀ name ∈ operationNames, '_' ∉ name.toList := by decide
  exact fun hmem => hplain name hmem h

section Applied

variable {host : Host} {code : List Yul.Function} {rounds : Nat} {names : List String} {f : String}
  {words : List Word}

/-- A built-in operation is applied as such, whatever functions there are. -/
theorem apply_of_builtin {action : Action (List Word)}
    (h : builtin host names f words = some action) :
    apply host code rounds names f words = action := by
  cases rounds with
  | zero => simp only [apply, h]
  | succ rounds => simp only [apply, h]

/-- **A function of the code is run** in the rounds that are left. -/
theorem apply_of_function {function : Yul.Function} (hname : f ∉ operationNames)
    (h : function? code f = some function) :
    apply host code (rounds + 1) names f words = runFunction host code rounds function words := by
  simp only [apply, builtin_eq_none hname, h, runFunction]

@[simp] theorem apply_add (a b : Word) :
    apply host code rounds names "add" [a, b] = pure [a + b] := apply_of_builtin rfl

@[simp] theorem apply_lt (a b : Word) :
    apply host code rounds names "lt" [a, b] = pure [Word.truth (a < b)] := apply_of_builtin rfl

@[simp] theorem apply_gt (a b : Word) :
    apply host code rounds names "gt" [a, b] = pure [Word.truth (b < a)] := apply_of_builtin rfl

@[simp] theorem apply_sub (a b : Word) :
    apply host code rounds names "sub" [a, b] = pure [a - b] := apply_of_builtin rfl

@[simp] theorem apply_mul (a b : Word) :
    apply host code rounds names "mul" [a, b] = pure [a * b] := apply_of_builtin rfl

@[simp] theorem apply_div (a b : Word) :
    apply host code rounds names "div" [a, b] = pure [a / b] := apply_of_builtin rfl

/-- The remainder by zero is zero. -/
@[simp] theorem apply_mod (a b : Word) :
    apply host code rounds names "mod" [a, b] = pure [if b = 0 then 0 else a % b] :=
  apply_of_builtin rfl

@[simp] theorem apply_eq (a b : Word) :
    apply host code rounds names "eq" [a, b] = pure [Word.truth (a = b)] := apply_of_builtin rfl

@[simp] theorem apply_and (a b : Word) :
    apply host code rounds names "and" [a, b] = pure [a &&& b] := apply_of_builtin rfl

@[simp] theorem apply_or (a b : Word) :
    apply host code rounds names "or" [a, b] = pure [a ||| b] := apply_of_builtin rfl

/-- A shift by 256 or more leaves nothing. -/
@[simp] theorem apply_shr (shift w : Word) :
    apply host code rounds names "shr" [shift, w]
      = pure [if shift < 256 then w >>> shift.toNat else 0] := apply_of_builtin rfl

/-- Bytes are counted from the highest one, and there are 32. -/
@[simp] theorem apply_byte (i w : Word) :
    apply host code rounds names "byte" [i, w]
      = pure [if i < 32 then w >>> (8 * (31 - i.toNat)) &&& 255 else 0] := apply_of_builtin rfl

@[simp] theorem apply_pop (w : Word) :
    apply host code rounds names "pop" [w] = pure [] := apply_of_builtin rfl

/-- One topic is logged, with a piece of memory. -/
@[simp] theorem apply_log1 (place count topic : Word) :
    apply host code rounds names "log1" [place, count, topic] = logOne place count topic :=
  apply_of_builtin rfl

/-- Every word but zero counts as true. -/
@[simp] theorem apply_iszero (a : Word) :
    apply host code rounds names "iszero" [a] = pure [Word.truth (a = 0)] := apply_of_builtin rfl

@[simp] theorem apply_not (a : Word) :
    apply host code rounds names "not" [a] = pure [~~~a] := apply_of_builtin rfl

@[simp] theorem apply_calldatasize :
    apply host code rounds names "calldatasize" []
      = pure [BitVec.ofNat 256 host.calldata.length] := apply_of_builtin rfl

/-- Behind the end of the call data there are zeros. -/
@[simp] theorem apply_calldataload (place : Word) :
    apply host code rounds names "calldataload" [place] = pure [callWord host place] :=
  apply_of_builtin rfl

@[simp] theorem apply_callvalue :
    apply host code rounds names "callvalue" [] = pure [host.callvalue] := apply_of_builtin rfl

/-- A return ends the run with a piece of memory. -/
@[simp] theorem apply_return (place count : Word) :
    apply host code rounds names "return" [place, count] = stopWith .returned place count :=
  apply_of_builtin rfl

@[simp] theorem apply_shl (shift w : Word) :
    apply host code rounds names "shl" [shift, w]
      = pure [if shift < 256 then w <<< shift.toNat else 0] := apply_of_builtin rfl

@[simp] theorem apply_mload (place : Word) :
    apply host code rounds names "mload" [place] = readWord place := apply_of_builtin rfl

@[simp] theorem apply_mstore (place value : Word) :
    apply host code rounds names "mstore" [place, value] = writeWord place value :=
  apply_of_builtin rfl

@[simp] theorem apply_sload (slot : Word) :
    apply host code rounds names "sload" [slot] = load slot := apply_of_builtin rfl

@[simp] theorem apply_sstore (slot value : Word) :
    apply host code rounds names "sstore" [slot, value] = store slot value := apply_of_builtin rfl

/-- A piece of memory is hashed. -/
@[simp] theorem apply_keccak256 (place count : Word) :
    apply host code rounds names "keccak256" [place, count] = hash host place count :=
  apply_of_builtin rfl

/-- The value that the creation has left under a name. -/
@[simp] theorem apply_loadimmutable (name : String) :
    apply host code rounds [name] "loadimmutable" [] = pure [host.immutable name] :=
  apply_of_builtin rfl

/-- A failure ends the run with a piece of memory. -/
@[simp] theorem apply_revert (place count : Word) :
    apply host code rounds names "revert" [place, count] = stopWith .reverted place count :=
  apply_of_builtin rfl

end Applied

/-! ## Short forms -/

attribute [simp] Yul.Expr.binary Yul.Expr.add Yul.Expr.isZero Yul.Expr.mload Yul.Expr.sload
  Yul.Stmt.run Yul.Stmt.mstore Yul.Stmt.sstore Emit.panicIf

end Machine

end Covenant
