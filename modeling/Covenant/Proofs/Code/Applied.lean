import Covenant.Proofs.Code.Linking

/-!
# What code applies

Code applies operations that are built in and functions. The functions that are generated for
variables, events, hashes and other contracts apply nothing but what is built in and the shared
functions (`basic`); the code of a body applies besides what its expressions and statements name:
functions of variables, methods, contracts, events and hashes (`Supplies`, `CodesBody.appliesOnly`).
Only where code is copied does anything refer to an object (`basicOrObject`).
-/

namespace Covenant

namespace Yul

/-- The built-in operations that refer to no object. -/
def plainBuiltins : List String :=
  ["stop", "add", "sub", "mul", "div", "sdiv", "mod", "smod", "exp", "not", "lt", "gt", "slt",
    "sgt", "eq", "iszero", "and", "or", "xor", "byte", "shl", "shr", "sar", "clz", "addmod",
    "mulmod", "signextend", "keccak256", "pop", "mload", "mstore", "mstore8", "mcopy", "msize",
    "sload", "sstore", "tload", "tstore", "gas", "address", "balance", "selfbalance", "caller",
    "callvalue", "calldataload", "calldatasize", "calldatacopy", "codesize", "codecopy",
    "extcodesize", "extcodecopy", "extcodehash", "returndatasize", "returndatacopy", "create",
    "create2", "call", "callcode", "delegatecall", "staticcall", "return", "revert",
    "selfdestruct", "invalid", "log0", "log1", "log2", "log3", "log4", "chainid", "basefee",
    "blobbasefee", "origin", "gasprice", "blockhash", "blobhash", "coinbase", "timestamp",
    "number", "difficulty", "prevrandao", "gaslimit", "datacopy", "setimmutable", "loadimmutable",
    "linkersymbol", "memoryguard"]

/-- The built-in operations that refer to an object by its name. -/
def objectBuiltins : List String :=
  ["datasize", "dataoffset"]

/-- **The operations that are built in.** -/
def builtins : List String :=
  plainBuiltins ++ objectBuiltins

/-! ## Code that applies only some names -/

section AppliesOnly

variable {P : String → Prop}

/-- An expression applies only names of a kind. -/
def Expr.AppliesOnly (P : String → Prop) (e : Expr) : Prop :=
  ∀ name ∈ e.calls, P name

/-- A statement applies only names of a kind. -/
def Stmt.AppliesOnly (P : String → Prop) (s : Stmt) : Prop :=
  ∀ name ∈ s.calls, P name

namespace Expr

/-- The names that several expressions apply are those that one of them applies. -/
theorem mem_callsAll {es : List Expr} {name : String} :
    name ∈ callsAll es ↔ ∃ e ∈ es, name ∈ e.calls := by
  induction es with
  | nil => simp [callsAll]
  | cons e es ih => simp [callsAll, ih]

@[simp] theorem appliesOnly_literal (numeral : String) : (literal numeral).AppliesOnly P :=
  fun _ h => (nomatch h)

@[simp] theorem appliesOnly_quoted (name : String) : (quoted name).AppliesOnly P :=
  fun _ h => (nomatch h)

@[simp] theorem appliesOnly_var (name : String) : (var name).AppliesOnly P :=
  fun _ h => (nomatch h)

@[simp] theorem appliesOnly_num (n : Nat) : (num n).AppliesOnly P :=
  fun _ h => (nomatch h)

/-- A call applies its function, and what its arguments apply. -/
@[simp] theorem appliesOnly_call (function : String) (args : List Expr) :
    (call function args).AppliesOnly P ↔ P function ∧ ∀ a ∈ args, a.AppliesOnly P := by
  unfold AppliesOnly
  rw [calls, List.forall_mem_cons]
  simp only [mem_callsAll]
  refine and_congr_right fun _ => ⟨fun h a ha name hname => h name ⟨a, ha, hname⟩, ?_⟩
  rintro h name ⟨a, ha, hname⟩
  exact h a ha name hname

@[simp] theorem appliesOnly_binary (function : String) (a b : Expr) :
    (binary function a b).AppliesOnly P ↔
      P function ∧ a.AppliesOnly P ∧ b.AppliesOnly P := by
  simp [binary]

@[simp] theorem appliesOnly_add (a b : Expr) :
    (add a b).AppliesOnly P ↔ P "add" ∧ a.AppliesOnly P ∧ b.AppliesOnly P :=
  appliesOnly_binary "add" a b

@[simp] theorem appliesOnly_sub (a b : Expr) :
    (sub a b).AppliesOnly P ↔ P "sub" ∧ a.AppliesOnly P ∧ b.AppliesOnly P :=
  appliesOnly_binary "sub" a b

@[simp] theorem appliesOnly_isZero (a : Expr) :
    (isZero a).AppliesOnly P ↔ P "iszero" ∧ a.AppliesOnly P := by
  simp [isZero]

@[simp] theorem appliesOnly_mload (a : Expr) :
    (mload a).AppliesOnly P ↔ P "mload" ∧ a.AppliesOnly P := by
  simp [mload]

@[simp] theorem appliesOnly_sload (a : Expr) :
    (sload a).AppliesOnly P ↔ P "sload" ∧ a.AppliesOnly P := by
  simp [sload]

@[simp] theorem appliesOnly_free : free.AppliesOnly P ↔ P "mload" := by
  simp [free]

end Expr

namespace Stmt

@[simp] theorem appliesOnly_evaluate (value : Expr) :
    (evaluate value).AppliesOnly P ↔ value.AppliesOnly P :=
  Iff.rfl

@[simp] theorem appliesOnly_declare (names : List String) (value : Option Expr) :
    (declare names value).AppliesOnly P ↔ ∀ e ∈ value, e.AppliesOnly P := by
  cases value with
  | none => simp [AppliesOnly, calls]
  | some e => simp [AppliesOnly, Expr.AppliesOnly, calls]

@[simp] theorem appliesOnly_assign (name : String) (value : Expr) :
    (assign name value).AppliesOnly P ↔ value.AppliesOnly P :=
  Iff.rfl

/-- The statements of a body apply some names only if each does. -/
theorem appliesOnly_callsAll {body : List Stmt} :
    (∀ name ∈ callsAll body, P name) ↔ ∀ s ∈ body, s.AppliesOnly P := by
  simp only [mem_callsAll]
  refine ⟨fun h s hs name hname => h name ⟨s, hs, hname⟩, ?_⟩
  rintro h name ⟨s, hs, hname⟩
  exact h s hs name hname

@[simp] theorem appliesOnly_block (body : List Stmt) :
    (block body).AppliesOnly P ↔ ∀ s ∈ body, s.AppliesOnly P :=
  appliesOnly_callsAll

@[simp] theorem appliesOnly_ifThen (condition : Expr) (body : List Stmt) :
    (ifThen condition body).AppliesOnly P ↔
      condition.AppliesOnly P ∧ ∀ s ∈ body, s.AppliesOnly P := by
  unfold AppliesOnly
  rw [calls, List.forall_mem_append, appliesOnly_callsAll]
  rfl

@[simp] theorem appliesOnly_guard (condition : Expr) (action : Stmt) :
    (guard condition action).AppliesOnly P ↔
      condition.AppliesOnly P ∧ action.AppliesOnly P := by
  unfold AppliesOnly
  rw [calls, List.forall_mem_append]
  rfl

/-- Both branches count, whichever is taken. -/
@[simp] theorem appliesOnly_ifZero (condition : Expr) (zero other : List Stmt) :
    (ifZero condition zero other).AppliesOnly P ↔ condition.AppliesOnly P ∧
      (∀ s ∈ zero, s.AppliesOnly P) ∧ ∀ s ∈ other, s.AppliesOnly P := by
  unfold AppliesOnly
  rw [calls, List.forall_mem_append, List.forall_mem_append, appliesOnly_callsAll,
    appliesOnly_callsAll, and_assoc]
  rfl

@[simp] theorem appliesOnly_leave : leave.AppliesOnly P :=
  fun _ h => (nomatch h)

@[simp] theorem appliesOnly_run (function : String) (args : List Expr) :
    (run function args).AppliesOnly P ↔ P function ∧ ∀ a ∈ args, a.AppliesOnly P :=
  Expr.appliesOnly_call function args

@[simp] theorem appliesOnly_define (name : String) (value : Expr) :
    (define name value).AppliesOnly P ↔ value.AppliesOnly P := by
  simp [define]

@[simp] theorem appliesOnly_mstore (a b : Expr) :
    (mstore a b).AppliesOnly P ↔ P "mstore" ∧ a.AppliesOnly P ∧ b.AppliesOnly P := by
  simp [mstore]

@[simp] theorem appliesOnly_sstore (a b : Expr) :
    (sstore a b).AppliesOnly P ↔ P "sstore" ∧ a.AppliesOnly P ∧ b.AppliesOnly P := by
  simp [sstore]

@[simp] theorem appliesOnly_revert : revert.AppliesOnly P ↔ P "revert" := by
  simp [revert]

end Stmt

/-- What applies only some names applies only them and others. -/
theorem Expr.AppliesOnly.mono {Q : String → Prop} (h : ∀ name, P name → Q name) {e : Expr}
    (he : e.AppliesOnly P) : e.AppliesOnly Q :=
  fun name hname => h name (he name hname)

theorem Stmt.AppliesOnly.mono {Q : String → Prop} (h : ∀ name, P name → Q name) {s : Stmt}
    (hs : s.AppliesOnly P) : s.AppliesOnly Q :=
  fun name hname => h name (hs name hname)

/-- A function applies only names of a kind if its statements do. -/
theorem Function.forall_mem_calls {f : Function} :
    (∀ name ∈ f.calls, P name) ↔ ∀ s ∈ f.body, s.AppliesOnly P :=
  Stmt.appliesOnly_callsAll

end AppliesOnly

end Yul

namespace Emit

open Yul.Expr Yul.Stmt

/-! ## Generated definitions -/

/-- **What all code may apply**: what is built in and refers to no object, and the shared
functions. -/
def basic : List String :=
  Yul.plainBuiltins ++ shared.map Yul.Function.name

/-- Names that are listed in the order of the built-in operations are found in one pass. -/
theorem forall_basic {names : List String} (h : names.Sublist Yul.plainBuiltins) :
    names.Forall (· ∈ basic) :=
  List.forall_iff_forall_mem.2 fun _ hname => List.mem_append_left _ (h.subset hname)

/-- Operations on words. -/
@[simp] theorem words_basic :
    "add" ∈ basic ∧ "sub" ∈ basic ∧ "lt" ∈ basic ∧ "gt" ∈ basic ∧ "eq" ∈ basic ∧ "iszero" ∈ basic ∧
      "and" ∈ basic ∧ "or" ∈ basic ∧ "shl" ∈ basic ∧ "shr" ∈ basic ∧ "keccak256" ∈ basic ∧
      "pop" ∈ basic :=
  @forall_basic ["add", "sub", "lt", "gt", "eq", "iszero", "and", "or", "shl", "shr",
    "keccak256", "pop"] (by decide +kernel)

/-- Operations on memory, storage and the machine. -/
@[simp] theorem machine_basic :
    "mload" ∈ basic ∧ "mstore" ∈ basic ∧ "sload" ∈ basic ∧ "sstore" ∈ basic ∧ "gas" ∈ basic ∧
      "address" ∈ basic ∧ "calldataload" ∈ basic ∧ "calldatasize" ∈ basic ∧ "codesize" ∈ basic ∧
      "codecopy" ∈ basic ∧ "returndatasize" ∈ basic ∧ "returndatacopy" ∈ basic ∧
      "create" ∈ basic ∧ "call" ∈ basic ∧ "return" ∈ basic ∧ "revert" ∈ basic ∧ "log1" ∈ basic ∧
      "datacopy" ∈ basic ∧ "setimmutable" ∈ basic ∧ "loadimmutable" ∈ basic :=
  @forall_basic ["mload", "mstore", "sload", "sstore", "gas", "address", "calldataload",
    "calldatasize", "codesize", "codecopy", "returndatasize", "returndatacopy", "create", "call",
    "return", "revert", "log1", "datacopy", "setimmutable", "loadimmutable"] (by decide +kernel)

/-- The shared functions. -/
@[simp] theorem shared_basic :
    "abi_encode_string" ∈ basic ∧ "allocate" ∈ basic ∧ "checked_add" ∈ basic ∧
      "checked_div" ∈ basic ∧ "checked_exp" ∈ basic ∧ "checked_mod" ∈ basic ∧
      "checked_mul" ∈ basic ∧ "checked_sub" ∈ basic ∧ "decode_string_calldata" ∈ basic ∧
      "decode_string_memory" ∈ basic ∧ "panic_error" ∈ basic ∧ "require_calldata" ∈ basic ∧
      "require_no_value" ∈ basic ∧ "revert_error" ∈ basic ∧ "revert_forward" ∈ basic ∧
      "string_length" ∈ basic ∧ "validate_address" ∈ basic ∧ "validate_bool" ∈ basic :=
  have h : shared.Forall fun f => f.name ∈ basic :=
    List.forall_iff_forall_mem.2 fun _ hf => List.mem_append_right _ (List.mem_map_of_mem hf)
  h

/-- What code that copies an object may apply. -/
def basicOrObject : List String :=
  basic ++ Yul.objectBuiltins

@[simp] theorem mem_basicOrObject {name : String} :
    name ∈ basicOrObject ↔ name ∈ basic ∨ name ∈ Yul.objectBuiltins :=
  List.mem_append

theorem basicOrObject_of_basic (name : String) (h : name ∈ basic) : name ∈ basicOrObject :=
  mem_basicOrObject.2 (.inl h)

@[simp] theorem object_builtins :
    "datasize" ∈ Yul.objectBuiltins ∧ "dataoffset" ∈ Yul.objectBuiltins := by
  decide

/-- The shared functions apply what all code may apply. -/
theorem calls_shared : ∀ f ∈ shared, ∀ name ∈ f.calls, name ∈ basic := by
  decide +kernel

@[simp] theorem appliesOnly_revertIf {P : String → Prop} (condition : Yul.Expr) :
    (revertIf condition).AppliesOnly P ↔ condition.AppliesOnly P ∧ P "revert" := by
  simp [revertIf]

@[simp] theorem appliesOnly_panicIf {P : String → Prop} (condition code : Yul.Expr) :
    (panicIf condition code).AppliesOnly P ↔
      condition.AppliesOnly P ∧ P "panic_error" ∧ code.AppliesOnly P := by
  simp [panicIf]

section Encoding

variable {start : Yul.Expr} (hstart : start.AppliesOnly (· ∈ basic))
include hstart

/-- The head of a value is a place in memory: a sum. -/
theorem appliesOnly_head (index : Nat) : (head start index).AppliesOnly (· ∈ basic) := by
  unfold head
  split
  · exact hstart
  · simp [hstart]

/-- **Values are encoded by what all code may apply**, by induction on the values: texts by a shared
function, words by stores. -/
theorem calls_encodeFrom {stop : String} {values : List (Ty × Yul.Expr)}
    (hvalues : ∀ value ∈ values, value.2.AppliesOnly (· ∈ basic)) (index : Nat) :
    ∀ s ∈ encodeFrom stop start index values, s.AppliesOnly (· ∈ basic) := by
  induction values generalizing index with
  | nil => exact fun _ h => (nomatch h)
  | cons value rest ih =>
    rw [List.forall_mem_cons] at hvalues
    have hhead := appliesOnly_head hstart index
    rw [encodeFrom, List.forall_mem_append, encodeOne]
    refine ⟨?_, ih hvalues.2 (index + 1)⟩
    split
    · simp [hstart, hhead, hvalues.1]
    · simp [hhead, hvalues.1]

theorem calls_encode {stop : String} {values : List (Ty × Yul.Expr)}
    (hvalues : ∀ value ∈ values, value.2.AppliesOnly (· ∈ basic)) :
    ∀ s ∈ encode stop start values, s.AppliesOnly (· ∈ basic) := by
  rw [encode, List.forall_mem_cons]
  refine ⟨?_, calls_encodeFrom hstart hvalues 0⟩
  simp [hstart]

end Encoding

/-- Variables apply nothing. -/
theorem appliesOnly_typedVars {P : String → Prop} (types : List Ty) (names : List String) :
    ∀ value ∈ typedVars types names, value.2.AppliesOnly P := by
  intro value hvalue
  obtain ⟨name, -, hname⟩ := List.mem_map.1 (List.of_mem_zip hvalue).2
  rw [← hname]
  exact appliesOnly_var name

/-- The function that calls another contract packs the arguments, forwards a failure and decodes the
answer, all by what all code may apply. -/
theorem calls_callDefinition (contract : String) (m : Routine) (number : Nat) :
    ∀ name ∈ (callDefinition contract m number).calls, name ∈ basic := by
  have hencode := @calls_encode (add (var "ptr") (num 4)) (by simp) (endName number) _
    (appliesOnly_typedVars (m.params.map Typed.type) (argNames (m.params.map Typed.type).length))
  have hresult : (decodeMemory m.returns (var "ptr") (var "ptr")).AppliesOnly (· ∈ basic) := by
    unfold decodeMemory
    split <;> simp
  rw [Yul.Function.forall_mem_calls, callDefinition]
  dsimp only
  simp only [List.forall_mem_append]
  refine ⟨⟨⟨?_, hencode⟩, ?_⟩, ?_⟩
  · simp
  · simp
  · split
    · simp
    · simp [hresult]

/-- The function that deploys a contract also copies its object. -/
theorem calls_deployDefinition (c : Contract) (number : Nat) :
    ∀ name ∈ (deployDefinition c number).calls, name ∈ basicOrObject := by
  have hencode := @calls_encode (add (var "ptr") (var "size")) (by simp) (endName number) _
    (appliesOnly_typedVars (c.constructorParams.map Typed.type)
      (argNames (c.constructorParams.map Typed.type).length))
  rw [Yul.Function.forall_mem_calls, deployDefinition]
  dsimp only
  simp only [List.forall_mem_append]
  refine ⟨⟨?_, fun s hs => (hencode s hs).mono basicOrObject_of_basic⟩, ?_⟩
  · simp
  · simp

/-- The function of an event encodes its arguments and logs them. -/
theorem calls_eventDefinition (e : Event) (number : Nat) :
    ∀ name ∈ (eventDefinition e number).calls, name ∈ basic := by
  have hencode := @calls_encode (var "ptr") (by simp) (endName number) _
    (appliesOnly_typedVars (e.params.map Typed.type) (Context.paramNames e.params))
  rw [Yul.Function.forall_mem_calls, eventDefinition]
  dsimp only
  rw [List.forall_mem_append, List.forall_mem_cons]
  refine ⟨⟨?_, hencode⟩, ?_⟩
  · simp
  · simp

/-- The function that finds the slot of an entry hashes its keys. -/
theorem calls_entrySlotFunction (arity : Nat) :
    ∀ name ∈ (Storage.entrySlotFunction arity).calls, name ∈ basic := by
  have hkey (key : String) : ∀ s ∈ Storage.hashKey key, s.AppliesOnly (· ∈ basic) := by
    simp [Storage.hashKey]
  rw [Yul.Function.forall_mem_calls, Storage.entrySlotFunction]
  dsimp only
  rw [List.forall_mem_cons]
  refine ⟨by simp, fun s hs => ?_⟩
  obtain ⟨key, -, hs⟩ := List.mem_flatMap.1 hs
  exact hkey key s hs

/-- Of the functions of variables only those of a mapping apply more: the function that finds its
entries. -/
theorem calls_accessor {creation : Bool} {cell : Storage.Cell} {f : Yul.Function}
    (hf : f ∈ accessorFunctions creation cell) :
    ∀ name ∈ f.calls, name ∈ basic ∨
      ∃ arity, cell.location.arity? = some arity ∧ name = Storage.entrySlot arity := by
  obtain ⟨setting, hf⟩ := mem_accessorFunctions.1 hf
  rw [Yul.Function.forall_mem_calls]
  unfold Storage.accessors at hf
  cases hlocation : cell.location with
  | scalar slot =>
    simp only [hlocation, Storage.reader, Storage.writer, List.mem_cons, List.not_mem_nil,
      or_false, Yul.Item.function.injEq] at hf
    rcases hf with ⟨-, rfl⟩ | ⟨-, rfl⟩ <;> simp [Storage.decimal]
  | array slot =>
    simp only [hlocation, List.mem_cons, List.not_mem_nil, or_false,
      Yul.Item.function.injEq] at hf
    rcases hf with ⟨-, rfl⟩ | ⟨-, rfl⟩ | ⟨-, rfl⟩ <;>
      simp [Storage.arrayLength, Storage.arrayGet, Storage.arraySet, Storage.decimal,
        Storage.hexadecimal, Storage.beyond, indexCode]
  | mapping arity bucket =>
    simp only [hlocation, Storage.reader, Storage.writer, List.mem_cons, List.not_mem_nil,
      or_false, Yul.Item.function.injEq] at hf
    rcases hf with ⟨-, rfl⟩ | ⟨-, rfl⟩ <;>
      simp [Storage.hexadecimal, Storage.Location.arity?]
  | inlined source word =>
    simp only [hlocation, Storage.reader, List.mem_singleton, Yul.Item.function.injEq] at hf
    obtain ⟨-, rfl⟩ := hf
    simp
  | staged source index =>
    simp only [hlocation] at hf
    split at hf
    · simp only [Storage.reader, Storage.writer, List.mem_cons, List.not_mem_nil, or_false,
        Yul.Item.function.injEq] at hf
      rcases hf with ⟨-, rfl⟩ | ⟨-, rfl⟩ <;> simp
    · simp only [Storage.reader, List.mem_singleton, Yul.Item.function.injEq] at hf
      obtain ⟨-, rfl⟩ := hf
      simp

/-! ## Entries -/

/-- The code that checks a call and decodes its arguments applies what all code may apply. -/
theorem calls_decoding (r : Route) : ∀ s ∈ r.decoding, s.AppliesOnly (· ∈ basic) := by
  have hdecode (type : Ty) (place : Nat) :
      (decodeCalldata type place).AppliesOnly (· ∈ basic) := by
    unfold decodeCalldata
    split <;> simp
  unfold Route.decoding
  simp only [List.forall_mem_append]
  refine ⟨⟨?_, ?_⟩, fun s hs => ?_⟩
  · split
    · simp
    · simp
  · split
    · simp
    · simp
  · obtain ⟨i, hi, rfl⟩ := List.mem_mapIdx.1 hs
    simpa using hdecode _ _

section Entries

variable {P : String → Prop} (hbasic : ∀ name ∈ basic, P name)
include hbasic

/-- The code of a route applies the function of its method, and encodes what it returns. -/
theorem calls_answering {r : Route} (hfunction : P r.function) (number : Nat) :
    ∀ s ∈ r.answering number, s.AppliesOnly P := by
  have hinvocation : r.invocation.AppliesOnly P := by
    simp [Route.invocation, hfunction]
  have hencode := @calls_encode (var "ptr") (by simp) (endName number) _
    (appliesOnly_typedVars r.outputs r.resultNames)
  unfold Route.answering
  split
  · simp [hinvocation, hbasic]
  · simp only [List.forall_mem_append]
    refine ⟨⟨?_, fun s hs => (hencode s hs).mono hbasic⟩, ?_⟩
    · simp [hinvocation, hbasic]
    · simp [hbasic]

/-- **The dispatcher applies the functions of its routes**, and what all code may apply. -/
theorem calls_dispatcher {routes : List Route} (hroutes : ∀ r ∈ routes, P r.function) :
    ∀ item ∈ dispatcher routes, ∀ name ∈ item.calls, P name := by
  have hcases (number : Nat) : ∀ c ∈ casesFrom number routes, ∀ s ∈ c.body, s.AppliesOnly P := by
    induction routes generalizing number with
    | nil => exact fun _ h => (nomatch h)
    | cons r rest ih =>
      rw [List.forall_mem_cons] at hroutes
      rw [casesFrom, List.forall_mem_cons]
      refine ⟨List.forall_mem_append.2 ⟨fun s hs => ?_, calls_answering hbasic hroutes.1 number⟩,
        ih hroutes.2 _⟩
      exact (calls_decoding r s hs).mono hbasic
  have hstart : (mstore (num 64) (num Storage.stagingStart)).AppliesOnly P := by
    simp [hbasic]
  have hrefuse : revert.AppliesOnly P := by
    simp [hbasic]
  have hshort : (revertIf (.binary "lt" (call "calldatasize" []) (num 4))).AppliesOnly P := by
    simp [hbasic]
  have hselector :
      (binary "shr" (num 224) (call "calldataload" [num 0])).AppliesOnly P := by
    simp [hbasic]
  unfold dispatcher
  rw [List.forall_mem_cons]
  refine ⟨hstart, ?_⟩
  split
  · exact List.forall_mem_singleton.2 hrefuse
  · rw [List.forall_mem_cons, List.forall_mem_singleton]
    refine ⟨hshort, List.forall_mem_append.2 ⟨List.forall_mem_append.2 ⟨hselector, ?_⟩, hrefuse⟩⟩
    intro name hname
    obtain ⟨c, hc, hname⟩ := List.mem_flatMap.1 hname
    exact appliesOnly_callsAll.2 (hcases 1 c hc) name hname

end Entries

theorem calls_decodeArgument (type : Ty) (i : Nat) :
    (decodeMemory type (var "args") (head (var "args") i)).AppliesOnly (· ∈ basic) := by
  have hhead := appliesOnly_head (appliesOnly_var "args") i
  unfold decodeMemory
  split <;> simp [hhead]

/-- The arguments of a constructor stand behind the object, whose size is asked for. -/
theorem calls_constructorArguments (contract : String) (types : List Ty) :
    ∀ s ∈ Context.constructorArguments contract types, s.AppliesOnly (· ∈ basicOrObject) := by
  unfold Context.constructorArguments
  split
  · simp
  · rw [List.forall_mem_append]
    refine ⟨?_, fun s hs => ?_⟩
    · simp
    · obtain ⟨i, hi, rfl⟩ := List.mem_mapIdx.1 hs
      rw [appliesOnly_define]
      exact (calls_decodeArgument _ _).mono basicOrObject_of_basic

/-- The constructor ends by copying the runtime object into memory. -/
theorem calls_returnRuntime (x : Context) :
    ∀ s ∈ x.returnRuntime, s.AppliesOnly (· ∈ basicOrObject) := by
  unfold Context.returnRuntime
  simp only [List.forall_mem_append]
  refine ⟨⟨?_, fun s hs => ?_⟩, ?_⟩
  · simp
  · obtain ⟨cell, -, hs⟩ := List.mem_filterMap.1 hs
    split at hs
    · cases hs
      simp
    · cases hs
  · simp

/-! ## What a variable has functions for -/

variable {creation : Bool} {cell : Storage.Cell}

/-- **The names of the functions of a variable**, in their order. -/
def accessorNames (creation : Bool) (cell : Storage.Cell) : List String :=
  let getter := Storage.getter cell.name
  let setter := Storage.setter cell.name
  match cell.location with
  | .scalar _ => [getter, setter]
  | .array _ => [Storage.lengthGetter cell.name, getter, setter]
  | .mapping _ _ => [getter, setter]
  | .inlined _ _ => [getter]
  | .staged _ _ => if creation then [getter, setter] else [getter]

/-- The functions of a variable have the names that are listed for it. -/
theorem names_accessorFunctions (creation : Bool) (cell : Storage.Cell) :
    (accessorFunctions creation cell).map Yul.Function.name = accessorNames creation cell := by
  unfold accessorFunctions Storage.accessors accessorNames
  cases cell.location <;> cases creation <;> rfl

theorem exists_accessor {name : String} (h : name ∈ accessorNames creation cell) :
    ∃ f ∈ accessorFunctions creation cell, f.name = name :=
  List.mem_map.1 (names_accessorFunctions creation cell ▸ h)

/-- Every variable can be read. -/
theorem getter_mem (creation : Bool) (cell : Storage.Cell) :
    Storage.getter cell.name ∈ accessorNames creation cell := by
  unfold accessorNames
  cases cell.location <;> cases creation <;> simp

/-- A variable that may be assigned to, and every one with entries, has a setter. -/
theorem setter_mem (h : cell.location.isAssignable creation = true ∨
      ∃ count, cell.location.indices? = some count) :
    Storage.setter cell.name ∈ accessorNames creation cell := by
  unfold accessorNames
  cases hlocation : cell.location <;> cases creation <;>
    simp [hlocation, Storage.Location.isAssignable, Storage.Location.indices?] at h ⊢

/-- An array has a function for its length. -/
theorem lengthGetter_mem (creation : Bool) {slot : Word} (h : cell.location = .array slot) :
    Storage.lengthGetter cell.name ∈ accessorNames creation cell := by
  unfold accessorNames
  simp [h]

/-! ## Calls of other contracts -/

section Externals

variable {x : Context} {target : String × String}

/-- The calls of other contracts in several expressions are those in each. -/
theorem externalsAll_eq_flatMap (es : List Expr) :
    x.externalsAll es = es.flatMap x.externals := by
  induction es with
  | nil => rfl
  | cons e es ih => rw [Context.externalsAll, ih, List.flatMap_cons]

/-- An expression calls what its parts call, and what it calls itself. -/
theorem mem_externals_parts {e : Expr} : target ∈ x.externals e ↔
    (∃ part ∈ e.parts, target ∈ x.externals part) ∨
      ∃ pos receiver args, e = .call pos target.2 receiver args ∧
        x.receiverContract? receiver = some target.1 := by
  obtain ⟨contract, method⟩ := target
  cases e with
  | call pos name receiver args =>
    simp only [Context.externals, externalsAll_eq_flatMap, Expr.parts, List.mem_append,
      List.mem_flatMap, List.mem_cons, exists_eq_or_imp, List.mem_map, Option.mem_toList,
      Prod.mk.injEq, Expr.call.injEq]
    grind
  | _ => simp [Context.externals, externalsAll_eq_flatMap, Expr.parts]

/-- **An expression calls a method of another contract wherever such a call stands within it.** -/
theorem mem_externals {e : Expr} : target ∈ x.externals e ↔
    ∃ pos receiver args, .call pos target.2 receiver args ∈ e.subexpressions ∧
      x.receiverContract? receiver = some target.1 := by
  induction e using Expr.induction with
  | h e ih =>
    rw [mem_externals_parts, Expr.subexpressions_eq]
    simp only [List.mem_cons, List.mem_flatMap]
    constructor
    · rintro (⟨part, hpart, htarget⟩ | ⟨pos, receiver, args, rfl, hcontract⟩)
      · obtain ⟨pos, receiver, args, hcall, hcontract⟩ := (ih part hpart).1 htarget
        exact ⟨pos, receiver, args, .inr ⟨part, hpart, hcall⟩, hcontract⟩
      · exact ⟨pos, receiver, args, .inl rfl, hcontract⟩
    · rintro ⟨pos, receiver, args, rfl | ⟨part, hpart, hcall⟩, hcontract⟩
      · exact .inr ⟨pos, receiver, args, rfl, hcontract⟩
      · exact .inl ⟨part, hpart, (ih part hpart).2 ⟨pos, receiver, args, hcall, hcontract⟩⟩

end Externals

/-! ## Bodies -/

/-- **Names supply what some bodies need**: what all code may apply, and a function for each
variable, and for each method, contract, event and hash that the bodies name. -/
structure Supplies (x : Context) (bodies : List Stmt) (P : String → Prop) : Prop where
  basic : ∀ name ∈ basic, P name
  accessors : ∀ cell ∈ x.layout.cells, ∀ f ∈ accessorFunctions x.creation cell, P f.name
  methods : ∀ target ∈ ownCalls bodies, target ∈ x.contract.methodNames →
    P (methodFunction target)
  calls : ∀ pos target receiver args, .call pos target receiver args ∈ Stmt.expressionsOf bodies →
    ∀ contract other m, x.receiverContract? receiver = some contract →
      x.lookup contract = some other → other.method? target = some m →
        P (callFunction contract m.name)
  deploys : ∀ contract ∈ deployments bodies, ∀ other, x.lookup contract = some other →
    P (deployFunction contract)
  events : ∀ event ∈ loggedEvents bodies, ∀ e, x.contract.event? event = some e →
    P (eventFunction event)
  hashes : ∀ count ∈ hashArities bodies, P (hashFunction count)

variable {x : Context} {bodies : List Stmt} {P : String → Prop}

/-- What a variable that was found is read by is supplied. -/
theorem Supplies.getter (hP : Supplies x bodies P) {name : String} {location : Storage.Location}
    (h : x.layout.location? name = some location) : P (Storage.getter name) := by
  obtain ⟨cell, hcell, rfl, -⟩ := exists_cell h
  obtain ⟨f, hf, hname⟩ := exists_accessor (getter_mem x.creation cell)
  exact hname ▸ hP.accessors cell hcell f hf

/-- What a variable is set by is supplied where it may be set. -/
theorem Supplies.setter (hP : Supplies x bodies P) {name : String} {location : Storage.Location}
    (h : x.layout.location? name = some location)
    (hwritable : location.isAssignable x.creation = true ∨
      ∃ count, location.indices? = some count) : P (Storage.setter name) := by
  obtain ⟨cell, hcell, rfl, rfl⟩ := exists_cell h
  obtain ⟨f, hf, hname⟩ := exists_accessor (setter_mem hwritable)
  exact hname ▸ hP.accessors cell hcell f hf

theorem Supplies.lengthGetter (hP : Supplies x bodies P) {name : String} {slot : Word}
    (h : x.layout.location? name = some (.array slot)) : P (Storage.lengthGetter name) := by
  obtain ⟨cell, hcell, rfl, hlocation⟩ := exists_cell h
  obtain ⟨f, hf, hname⟩ := exists_accessor (lengthGetter_mem x.creation hlocation)
  exact hname ▸ hP.accessors cell hcell f hf

/-- Each of the codes of several expressions is that of one of them. -/
theorem CodesEach.exists_of_mem : ∀ {es : List Expr} {ys : List Yul.Expr}, CodesEach x es ys →
    ∀ y ∈ ys, ∃ e ∈ es, Codes x e y
  | _, _, .nil => fun _ h => absurd h List.not_mem_nil
  | _, _, .cons h hrest => by
    rintro y hy
    rcases List.mem_cons.1 hy with rfl | hy
    · exact ⟨_, List.mem_cons_self, h⟩
    · obtain ⟨e, he, hcode⟩ := hrest.exists_of_mem y hy
      exact ⟨e, List.mem_cons_of_mem _ he, hcode⟩

/-- An operation applies one name, which all code may. -/
theorem appliesOnly_operation (hbasic : ∀ name ∈ basic, P name) (op : BinaryOp)
    {left right : Yul.Expr} (hleft : left.AppliesOnly P) (hright : right.AppliesOnly P) :
    (operation op left right).AppliesOnly P := by
  cases op <;> simp [operation, hleft, hright, hbasic]

/-- A method that is found is one of the contract, under its name. -/
theorem of_method?_eq_some {c : Contract} {name : String} {m : Routine}
    (h : c.method? name = some m) : m ∈ c.methods ∧ m.name = name :=
  ⟨List.mem_of_find?_eq_some h, by simpa using List.find?_some h⟩

/-- **The code of an expression applies what the expression names.** -/
theorem Codes.appliesOnly (hP : Supplies x bodies P) {e : Expr} {y : Yul.Expr} (h : Codes x e y)
    (hwithin : ∀ part ∈ e.subexpressions, part ∈ Stmt.expressionsOf bodies) :
    y.AppliesOnly P := by
  induction e using Expr.induction generalizing y with
  | h e ih =>
    rw [Expr.subexpressions_eq, List.forall_mem_cons] at hwithin
    obtain ⟨hself, hparts⟩ := hwithin
    -- the parts stand in the bodies with the expression, so what they apply is there
    have hpart {part : Expr} {code : Yul.Expr} (hpart : part ∈ e.parts)
        (hcode : Codes x part code) : code.AppliesOnly P :=
      ih part hpart hcode fun sub hsub => hparts sub (List.mem_flatMap.2 ⟨part, hpart, hsub⟩)
    have heach {es : List Expr} {codes : List Yul.Expr} (hes : es ⊆ e.parts)
        (hcodes : CodesEach x es codes) : ∀ code ∈ codes, code.AppliesOnly P := by
      intro code hcode
      obtain ⟨part, hmem, hcode⟩ := hcodes.exists_of_mem code hcode
      exact hpart (hes hmem) hcode
    cases h with
    | literal | var => simp
    | storage hlocation => simpa using hP.getter hlocation
    | entry hlocation _ hindices =>
      rw [appliesOnly_call]
      exact ⟨hP.getter hlocation, heach (List.Subset.refl _) hindices⟩
    | length hlocation => simpa using hP.lengthGetter hlocation
    | binary hleft hright =>
      exact appliesOnly_operation hP.basic _ (hpart (by simp [Expr.parts]) hleft)
        (hpart (by simp [Expr.parts]) hright)
    | not hvalue =>
      rw [appliesOnly_isZero]
      exact ⟨hP.basic _ (by simp), hpart (by simp [Expr.parts]) hvalue⟩
    | this => simpa using hP.basic "address" (by simp)
    | external haddress => exact hpart (by simp [Expr.parts]) haddress
    | environment hmember =>
      have hbuiltin :=
        forall_of_member? (P := fun m => m.builtin ∈ basic) (by decide +kernel) hmember
      simpa using hP.basic _ hbuiltin
    | hash hinputs =>
      rw [appliesOnly_call]
      refine ⟨hP.hashes _ (List.mem_filterMap.2 ⟨_, hself, rfl⟩), ?_⟩
      exact heach (List.Subset.refl _) hinputs
    | @call pos target receiver args m function before ys hreceiver _ _ hargs =>
      have hys := heach (List.subset_cons_self _ _) hargs
      rw [appliesOnly_call, List.forall_mem_append]
      cases hreceiver with
      | own hm =>
        obtain ⟨hmem, rfl⟩ := of_method?_eq_some hm
        have hcalled : m.name ∈ ownCalls bodies := List.mem_filterMap.2 ⟨_, hself, rfl⟩
        exact ⟨hP.methods _ hcalled (List.mem_map_of_mem hmem), by simp, hys⟩
      | external hcontract hm _ haddress =>
        refine ⟨hP.calls _ _ _ _ hself _ _ _ rfl hcontract hm, ?_, hys⟩
        refine List.forall_mem_singleton.2 (hpart List.mem_cons_self (.external haddress))
      | @stored storedPos name v contract _ other _ _ hv htype hcontract hm _ hproperty =>
        have hreceiver : x.receiverContract? (.storage storedPos name) = some contract := by
          rw [Context.receiverContract?, hv, Option.map_some, htype]
        refine ⟨hP.calls _ _ _ _ hself _ _ _ hreceiver hcontract hm, ?_, hys⟩
        exact List.forall_mem_singleton.2 (hpart List.mem_cons_self hproperty)
    | deploy hcontract _ hargs =>
      rw [appliesOnly_call]
      refine ⟨hP.deploys _ (List.mem_filterMap.2 ⟨_, hself, rfl⟩) _ hcontract, ?_⟩
      exact heach (List.Subset.refl _) hargs

/-- The parts of the operands of all statements, at any depth, are expressions of the bodies. -/
theorem mem_expressionsOf {e part : Expr} {s : Stmt} (hs : s ∈ Stmt.substatementsAll bodies)
    (he : e ∈ s.operands) (hpart : part ∈ e.subexpressions) : part ∈ Stmt.expressionsOf bodies :=
  List.mem_flatMap.2 ⟨s, hs, List.mem_flatMap.2 ⟨e, he, hpart⟩⟩

/-- The code of an operand applies what the operand names. -/
theorem Codes.operand_appliesOnly (hP : Supplies x bodies P) {s : Stmt}
    (hs : s ∈ Stmt.substatementsAll bodies) {e : Expr} {y : Yul.Expr} (he : e ∈ s.operands)
    (h : Codes x e y) : y.AppliesOnly P :=
  h.appliesOnly hP fun _ hpart => mem_expressionsOf hs he hpart

/-- **The codes of the operands of a statement apply only what is supplied.** -/
theorem CodesEach.operands_appliesOnly (hP : Supplies x bodies P) {s : Stmt}
    (hs : s ∈ Stmt.substatementsAll bodies) {es : List Expr} {ys : List Yul.Expr}
    (hes : ∀ e ∈ es, ∃ operand ∈ s.operands, e.subexpressions ⊆ operand.subexpressions)
    (h : CodesEach x es ys) : ∀ y ∈ ys, y.AppliesOnly P := by
  intro y hy
  obtain ⟨e, he, hcode⟩ := h.exists_of_mem y hy
  obtain ⟨operand, hoperand, hsubset⟩ := hes e he
  exact hcode.appliesOnly hP fun _ hpart => mem_expressionsOf hs hoperand (hsubset hpart)

mutual
/-- **The code of a statement applies what the statement names.** -/
theorem CodesStmt.appliesOnly (hP : Supplies x bodies P) {returns : Ty} :
    ∀ {s : Stmt} {code : List Yul.Stmt}, CodesStmt x returns s code →
      s.substatements ⊆ Stmt.substatementsAll bodies → ∀ c ∈ code, c.AppliesOnly P
  | s, _, h, hwithin => by
    have hself : s ∈ Stmt.substatementsAll bodies :=
      hwithin (by rw [Stmt.substatements_eq]; exact List.mem_cons_self)
    have hsame {es : List Expr} (hes : es ⊆ s.operands) :
        ∀ e ∈ es, ∃ operand ∈ s.operands, e.subexpressions ⊆ operand.subexpressions :=
      fun e he => ⟨e, hes he, List.Subset.refl _⟩
    cases h with
    | blank | exit | skip => simp
    | setProperty hlocation hassignable hvalue =>
      have hvalue := hvalue.operand_appliesOnly hP hself (by simp [Stmt.operands])
      simpa using ⟨hP.setter hlocation (.inl hassignable), hvalue⟩
    | setEntry hlocation hcount hindices hvalue =>
      have hindices := hindices.operands_appliesOnly hP hself (hsame (by simp [Stmt.operands]))
      have hvalue := hvalue.operand_appliesOnly hP hself (by simp [Stmt.operands])
      rw [List.forall_mem_singleton, appliesOnly_run, List.forall_mem_append]
      exact ⟨hP.setter hlocation (.inr ⟨_, hcount⟩), hindices,
        List.forall_mem_singleton.2 hvalue⟩
    | declare hvalue | setVariable hvalue =>
      simpa using hvalue.operand_appliesOnly hP hself (by simp [Stmt.operands])
    | exitWord _ hvalue =>
      simpa using hvalue.operand_appliesOnly hP hself (by simp [Stmt.operands])
    | @exitRecord _ recordPos shape fields ys _ hfields =>
      -- the fields stand within the record that is returned
      have hfields : ∀ y ∈ ys, y.AppliesOnly P := by
        refine hfields.operands_appliesOnly hP hself fun e he => ⟨_, List.mem_singleton.2 rfl, ?_⟩
        intro part hpart
        rw [Expr.subexpressions_eq]
        exact List.mem_cons_of_mem _ (List.mem_flatMap.2 ⟨e, he, hpart⟩)
      refine List.forall_mem_append.2 ⟨fun c hc => ?_, by simp⟩
      obtain ⟨i, hi, rfl⟩ := List.getElem_of_mem hc
      rw [List.getElem_zipWith, appliesOnly_assign]
      exact hfields _ (List.getElem_mem _)
    | ifThen hcondition hyes =>
      have hcondition := hcondition.operand_appliesOnly hP hself (by simp [Stmt.operands])
      have hyes := hyes.appliesOnly hP fun t ht => hwithin (by simp [Stmt.substatements, ht])
      simpa using ⟨hcondition, hyes⟩
    | ifElse _ hcondition hyes hno =>
      have hcondition := hcondition.operand_appliesOnly hP hself (by simp [Stmt.operands])
      have hyes := hyes.appliesOnly hP fun t ht => hwithin (by simp [Stmt.substatements, ht])
      have hno := hno.appliesOnly hP fun t ht => hwithin (by simp [Stmt.substatements, ht])
      simpa using ⟨hcondition, hno, hyes⟩
    | throw hmessage =>
      have hmessage := hmessage.operand_appliesOnly hP hself (by simp [Stmt.operands])
      simpa using ⟨hP.basic _ (by simp), hmessage⟩
    | emit hevent hargs =>
      have hargs := hargs.operands_appliesOnly hP hself (hsame (by simp [Stmt.operands]))
      have hlogged := hP.events _ (List.mem_filterMap.2 ⟨_, hself, rfl⟩) _ hevent
      rw [List.forall_mem_singleton, appliesOnly_run]
      exact ⟨hlogged, hargs⟩
    | evaluate hvalue =>
      have hvalue := hvalue.operand_appliesOnly hP hself (by simp [Stmt.operands])
      rw [List.forall_mem_singleton]
      split
      · simpa using ⟨hP.basic _ (by simp), hvalue⟩
      · simpa using hvalue

/-- **The code of a body applies what the body names.** -/
theorem CodesBody.appliesOnly (hP : Supplies x bodies P) {returns : Ty} :
    ∀ {body : List Stmt} {code : List Yul.Stmt}, CodesBody x returns body code →
      Stmt.substatementsAll body ⊆ Stmt.substatementsAll bodies → ∀ c ∈ code, c.AppliesOnly P
  | _, _, .nil, _ => fun _ h => absurd h List.not_mem_nil
  | _, _, .cons h hrest, hwithin => by
    rw [Stmt.substatementsAll, List.append_subset] at hwithin
    rw [List.forall_mem_append]
    exact ⟨h.appliesOnly hP hwithin.1, hrest.appliesOnly hP hwithin.2⟩
end

end Emit

end Covenant
