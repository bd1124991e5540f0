import Covenant.Emit.Code
import Covenant.Proofs.Machine.Decoding
import Covenant.Proofs.Storage.Access
import Mathlib.Data.List.Zip

/-!
# Values between contracts

A call of another contract writes its arguments behind a selector, and reads what was returned. A
deployment writes its arguments behind the code of a contract. Here both are followed on the
machine. What the machine does for a call or a deployment is given by what it is asked for
(`Answered`, `Created`).
-/

namespace Covenant

namespace Machine

open Emit

variable {host : Host} {code : List Yul.Function} {rounds n p : Nat} {s t : State}

/-! ## Values with names -/

/-- Values and the names of the variables that hold them. -/
def named (values : List (Ty × Word)) (names : List String) : List (Ty × String × Word) :=
  (values.zip names).map fun v => (v.1.1, v.2, v.1.2)

section Named

variable {values : List (Ty × Word)} {names : List String}

theorem named_vars (values : List (Ty × Word)) (names : List String) :
    (named values names).map (fun v => (v.1, Yul.Expr.var v.2.1))
      = typedVars (values.map Prod.fst) names := by
  rw [named, List.map_map, typedVars, List.zip_map]
  rfl

theorem named_words (hcount : names.length = values.length) :
    (named values names).map (fun v => (v.1, v.2.2)) = values := by
  have hfst : (values.zip names).map Prod.fst = values :=
    List.map_fst_zip (Nat.le_of_eq hcount.symm)
  rw [named, List.map_map]
  exact hfst

theorem length_named (hcount : names.length = values.length) :
    (named values names).length = values.length := by
  rw [named, List.length_map, List.length_zip, hcount, Nat.min_self]

theorem mem_zip_of_mem_named {v : Ty × String × Word} (h : v ∈ named values names) :
    v.2 ∈ names.zip (values.map Prod.snd) := by
  obtain ⟨⟨value, name⟩, hmem, rfl⟩ := List.mem_map.1 h
  rw [List.zip_map_right, ← List.zip_swap, List.map_map]
  exact List.mem_map.2 ⟨(value, name), hmem, rfl⟩

/-- **The words of variables are encoded** from a place on. One variable tells where the encoding
ends, and nothing in front of it is touched. -/
theorem execAll_encode_named {stop : String} {e : Yul.Expr} {start : Word} (hrounds : 32 < rounds)
    (hcount : names.length = values.length)
    (hsupports : Supports code
      (Yul.Stmt.callsAll (encode stop e (typedVars (values.map Prod.fst) names))))
    (hstart : Steady (apply host code (rounds + 2)) stop s e start) (hstop : stop ∉ names)
    (hvars : ∀ pair ∈ names.zip (values.map Prod.snd), s.locals.get? pair.1 = some pair.2)
    (hroom : start.toNat + 96 * values.length < 2 ^ 256) :
    ∃ memory locals, execAll (apply host code (rounds + 2)) n
        (encode stop e (typedVars (values.map Prod.fst) names)) s
          = .ok .next { s with memory, locals } ∧
      (∀ name, name ≠ stop → locals.get? name = s.locals.get? name) ∧
      locals.get? stop = some (start + BitVec.ofNat 256 (encoded values).length) ∧
      memory.read start.toNat (encoded values).length = encoded values ∧
      ∀ i, i < start.toNat → memory i = s.memory i := by
  have htexts := hsupports.hasTexts
  have htypes : (typedVars (values.map Prod.fst) names).map Prod.fst
      = (named values names).map Prod.fst := by
    rw [← named_vars values names, List.map_map]
    rfl
  rw [htypes] at htexts
  have hencode := @execAll_encode host code rounds n s stop e hrounds start (named values names)
    htexts hstart (fun v hv => ?_) (by rwa [length_named hcount])
  · rwa [named_vars, named_words hcount] at hencode
  · have hmem := mem_zip_of_mem_named hv
    exact ⟨fun heq => hstop (heq ▸ (List.of_mem_zip hmem).1), hvars v.2 hmem⟩

/-- The same behind bytes that stand in memory already. -/
theorem execAll_encode_behind {stop : String} {e : Yul.Expr} {front : List UInt8}
    (hrounds : 32 < rounds) (hcount : names.length = values.length)
    (hsupports : Supports code
      (Yul.Stmt.callsAll (encode stop e (typedVars (values.map Prod.fst) names))))
    (hstart : Steady (apply host code (rounds + 2)) stop s e (BitVec.ofNat 256 (p + front.length)))
    (hstop : stop ∉ names)
    (hvars : ∀ pair ∈ names.zip (values.map Prod.snd), s.locals.get? pair.1 = some pair.2)
    (hfront : s.memory.read p front.length = front)
    (hroom : p + front.length + 96 * values.length < 2 ^ 256) :
    ∃ memory locals, execAll (apply host code (rounds + 2)) n
        (encode stop e (typedVars (values.map Prod.fst) names)) s
          = .ok .next { s with memory, locals } ∧
      (∀ name, name ≠ stop → locals.get? name = s.locals.get? name) ∧
      locals.get? stop = some (BitVec.ofNat 256 (p + (front ++ encoded values).length)) ∧
      memory.read p (front ++ encoded values).length = front ++ encoded values := by
  have hplace : (BitVec.ofNat 256 (p + front.length)).toNat = p + front.length :=
    Word.toNat_ofNat (by omega)
  obtain ⟨memory, locals, hexec, hkept, hend, hread, hbefore⟩ := @execAll_encode_named host code
    rounds n s values names stop e _ hrounds hcount hsupports hstart hstop hvars (by rwa [hplace])
  rw [hplace] at hread hbefore
  refine ⟨memory, locals, hexec, hkept, ?_, ?_⟩
  · rw [hend, List.length_append, ← Nat.add_assoc, BitVec.ofNat_add _ (encoded values).length]
  · rw [List.length_append, Memory.read_append, hread,
      Memory.read_congr fun i _ hi => hbefore i hi, hfront]

/-- The variables of names are evaluated to their words. -/
theorem evalArgs_named {run : Apply} {words : List Word} (hcount : names.length = words.length)
    (hvars : ∀ pair ∈ names.zip words, s.locals.get? pair.1 = some pair.2) :
    evalArgs run (names.map .var) s = .ok words s := by
  have heval := Storage.evalArgs_vars run hvars
  rwa [List.map_fst_zip (Nat.le_of_eq hcount), List.map_snd_zip (Nat.le_of_eq hcount.symm)] at heval

/-- Code that supports the definitions of variables supports what reads the value of a number. -/
theorem Supports.reader {reader : Nat → Ty → Yul.Expr} {front back : List (Ty × Word)} {type : Ty}
    {w : Word} (hcount : names.length = values.length)
    (hvalues : values = front ++ (type, w) :: back)
    (h : Supports code (Yul.Stmt.callsAll (((values.map Prod.fst).zip names).mapIdx
      fun i (type, name) => .define name (reader i type)))) :
    Supports code (reader front.length type).calls := by
  subst hvalues
  have hlt : front.length < names.length := by
    rw [hcount]
    simp
  refine h.mono fun name hname => Yul.Stmt.mem_callsAll.2
    ⟨.define names[front.length] (reader front.length type), List.mem_mapIdx.2
      ⟨front.length, by simpa [Nat.lt_min] using hlt, by simp⟩, ?_⟩
  simpa [Yul.Stmt.define, Yul.Stmt.calls] using hname

/-- The free place is found where memory says. -/
theorem eval_free (hfree : s.memory.read 64 32 = Word.bytes (BitVec.ofNat 256 p)) :
    eval (apply host code rounds) .free s = .ok [BitVec.ofNat 256 p] s := by
  simp [Yul.Expr.free, hfree, Word.ofBytes_bytes]

/-- **Arguments of a call are read into variables** as they were written. -/
theorem execAll_decodeCalldata (hnames : names.Nodup) (hcount : names.length = values.length)
    (hsupports : Supports code (Yul.Stmt.callsAll (((values.map Prod.fst).zip names).mapIdx
      fun i (type, name) => .define name (decodeCalldata type (4 + 32 * i)))))
    (hfits : ∀ v ∈ values, Fits v.1 v.2)
    (hshows : Shows (fun k => callWord host (4#256 + BitVec.ofNat 256 k)) (encoded values)) :
    ∃ locals, execAll (apply host code (rounds + 1)) n (((values.map Prod.fst).zip names).mapIdx
        fun i (type, name) => .define name (decodeCalldata type (4 + 32 * i))) s
          = .ok .next { s with locals } ∧
      (∀ pair ∈ names.zip (values.map Prod.snd), locals.get? pair.1 = some pair.2) ∧
      ∀ name, name ∉ names → locals.get? name = s.locals.get? name := by
  refine @execAll_defines n s (apply host code (rounds + 1))
    (fun i type => decodeCalldata type (4 + 32 * i)) values names hnames hcount ?_
  intro front type w back hvalues locals _
  have hreader := @Supports.reader code values names
    (fun i type => decodeCalldata type (4 + 32 * i)) front back type w hcount hvalues hsupports
  rw [hvalues] at hshows
  exact eval_decodeCalldata hreader (hfits (type, w) (by rw [hvalues]; simp)) hshows

/-- **Values are read from memory into variables** as they were written. -/
theorem execAll_decodeMemory {base : String} {start : Word} (hnames : names.Nodup)
    (hcount : names.length = values.length) (hbase : base ∉ names)
    (hstart : s.locals.get? base = some start)
    (hsupports : Supports code (Yul.Stmt.callsAll (((values.map Prod.fst).zip names).mapIdx
      fun i (type, name) => .define name (decodeMemory type (.var base) (head (.var base) i)))))
    (hfits : ∀ v ∈ values, Fits v.1 v.2)
    (hread : s.memory.read start.toNat (encoded values).length = encoded values)
    (hsize : start.toNat + (encoded values).length < 2 ^ 256) :
    ∃ locals, execAll (apply host code (rounds + 1)) n (((values.map Prod.fst).zip names).mapIdx
        fun i (type, name) => .define name (decodeMemory type (.var base) (head (.var base) i))) s
          = .ok .next { s with locals } ∧
      (∀ pair ∈ names.zip (values.map Prod.snd), locals.get? pair.1 = some pair.2) ∧
      ∀ name, name ∉ names → locals.get? name = s.locals.get? name := by
  refine @execAll_defines n s (apply host code (rounds + 1))
    (fun i type => decodeMemory type (.var base) (head (.var base) i)) values names hnames hcount ?_
  intro front type w back hvalues locals hlocals
  have hreader := @Supports.reader code values names
    (fun i type => decodeMemory type (.var base) (head (.var base) i)) front back type w hcount
    hvalues hsupports
  have heval : eval (apply host code (rounds + 1)) (.var base) { s with locals }
      = .ok [start] { s with locals } := by
    simp [hlocals base hbase, hstart]
  have hshows := shows_memory hread hsize
  rw [hvalues] at hshows
  exact eval_decodeMemory hreader (hfits (type, w) (by rw [hvalues]; simp)) hshows (by simp)
    (head_ne_quoted (by simp) _) heval (eval_head (by simp) heval _)

end Named

/-! ## Names of variables -/

/-- The names of arguments and results have an underscore; those of other variables have none. -/
theorem ne_of_underscore {name other : String} (h : '_' ∈ name.toList) (h' : '_' ∉ other.toList) :
    name ≠ other := by
  rintro rfl
  exact h' h

theorem length_argNames (count : Nat) : (argNames count).length = count :=
  Storage.length_numbered _ _

theorem nodup_argNames (count : Nat) : (argNames count).Nodup :=
  Storage.nodup_numbered _ _

theorem underscore_of_mem_numbered {stem name : String} {count : Nat} (hstem : '_' ∈ stem.toList)
    (h : name ∈ Storage.numbered stem count) : '_' ∈ name.toList := by
  obtain ⟨i, -, rfl⟩ := List.mem_map.1 h
  simp [hstem]

theorem underscore_of_mem_argNames {name : String} {count : Nat} (h : name ∈ argNames count) :
    '_' ∈ name.toList :=
  underscore_of_mem_numbered (by decide) h

theorem underscore_endName (number : Nat) : '_' ∈ (endName number).toList := by
  simp [endName]

/-- No numbered name is that of an end, unless its stem begins with the same letter. -/
theorem endName_not_mem_numbered {stem : String} {letter : Char}
    (hstem : stem.toList.head? = some letter) (hletter : letter ≠ 'e') (number count : Nat) :
    endName number ∉ Storage.numbered stem count := by
  intro h
  obtain ⟨i, -, h⟩ := List.mem_map.1 h
  have hfirst := congrArg (fun name => name.toList.head?) h
  simp only [endName, String.toList_append, List.head?_append, hstem, Option.some_or] at hfirst
  exact hletter (Option.some.inj hfirst)

theorem endName_not_mem_argNames (number count : Nat) : endName number ∉ argNames count :=
  endName_not_mem_numbered rfl (by decide) number count

/-! ## Functions and outer variables -/

/-- A function knows nothing of the variables where it is called, and leaves them alone. -/
theorem runFunction_locals {f : Yul.Function} {words results : List Word}
    (h : runFunction host code rounds f words s = .ok results t) (locals : Locals Word) :
    runFunction host code rounds f words { s with locals } = .ok results { t with locals } := by
  have hargs : words.length = f.params.length := by
    by_contra hne
    rw [runFunction, invoke_of_ne hne] at h
    cases h
  rw [runFunction] at h ⊢
  cases hbody : execAll (apply host code rounds) rounds f.body
      { s with locals := { inner := f.params.zip words ++ f.results.map (·, 0) } } with
  | error why u =>
    rw [invoke_of_error hargs hbody] at h
    cases h
  | ok flow u =>
    rw [invoke_of_ok hargs hbody] at h
    cases h
    exact invoke_of_ok hargs hbody

/-! ## Calls of other contracts -/

/-- The word that a call for a signature starts with, its selector in front. -/
def selectorWord (signature : String) : Word :=
  Word.ofNumeral (Abi.selector signature) <<< 224

/-- The four bytes that a call for a signature starts with. -/
def selectorData (signature : String) : List UInt8 :=
  (selectorWord signature).bytes.take 4

@[simp] theorem length_selectorData (signature : String) :
    (selectorData signature).length = 4 := by
  simp [selectorData]

/-- **A call is answered**: the contract at an address takes the input, and what it returned can be
copied to memory. -/
structure Answered (run : Apply) (target : Word) (input answer : List UInt8) : Prop where
  gas : ∀ s, ∃ w, run [] "gas" [] s = .ok [w] s
  call : ∀ gas place count : Word, ∀ s, s.memory.read place.toNat count.toNat = input →
    ∃ t, run [] "call" [gas, target, 0, place, count, 0, 0] s = .ok [1] t ∧
      t.memory = s.memory ∧ t.locals = s.locals
  size : ∀ s, run [] "returndatasize" [] s = .ok [BitVec.ofNat 256 answer.length] s
  copy : ∀ place : Word, ∀ s,
    run [] "returndatacopy" [place, 0, BitVec.ofNat 256 answer.length] s
      = .ok [] { s with memory := s.memory.write place.toNat answer }

section Calls

variable {contract : String} {m : Routine} {number : Nat} {values : List (Ty × Word)}
  {target : Word}

/-- The code that writes the input of a call. -/
def callInput (m : Routine) (number : Nat) (types : List Ty) : List Yul.Stmt :=
  [.define "ptr" .free,
    .mstore (.var "ptr")
      (.binary "shl" (.num 224) (.literal (Abi.selector (Abi.methodSignature m))))]
  ++ encode (endName number) (.add (.var "ptr") (.num 4)) (typedVars types (argNames types.length))

/-- The call that a function for calls makes. -/
def callExpr (number : Nat) : Yul.Expr :=
  .call "call"
    [.call "gas" [], .var "target", .num 0, .var "ptr", .sub (.var (endName number)) (.var "ptr"),
      .num 0, .num 0]

/-- The code that reads the result of a call. -/
def callResult (type : Ty) : List Yul.Stmt :=
  if type.isVoid then []
  else
    [revertIf (.binary "lt" (.call "returndatasize" []) (.num 32)),
      .run "returndatacopy" [.var "ptr", .num 0, .call "returndatasize" []],
      .assign "ret" (decodeMemory type (.var "ptr") (.var "ptr"))]

theorem callDefinition_body (contract : String) (m : Routine) (number : Nat) :
    (callDefinition contract m number).body = callInput m number (m.params.map Typed.type)
      ++ [.guard (.isZero (callExpr number)) (.run "revert_forward" [])]
      ++ callResult m.returns := by
  simp [callDefinition, callInput, callExpr, callResult]

/-- The input of a call is written, and two variables tell where it stands. -/
theorem execAll_callInput (hrounds : 32 < rounds)
    (htypes : m.params.map Typed.type = values.map Prod.fst)
    (hsupports : Supports code (callDefinition contract m number).calls)
    (hvars : ∀ pair ∈ (argNames values.length).zip (values.map Prod.snd),
      s.locals.get? pair.1 = some pair.2)
    (hfree : s.memory.read 64 32 = Word.bytes (BitVec.ofNat 256 p))
    (hroom : p + 4 + 96 * values.length < 2 ^ 256) :
    ∃ memory locals, execAll (apply host code (rounds + 2)) n
        (callInput m number (m.params.map Typed.type)) s = .ok .next { s with memory, locals } ∧
      (∀ name, name ≠ "ptr" → name ≠ endName number → locals.get? name = s.locals.get? name) ∧
      locals.get? "ptr" = some (BitVec.ofNat 256 p) ∧
      locals.get? (endName number) = some (BitVec.ofNat 256
        (p + (selectorData (Abi.methodSignature m) ++ encoded values).length)) ∧
      memory.read p (selectorData (Abi.methodSignature m) ++ encoded values).length
        = selectorData (Abi.methodSignature m) ++ encoded values := by
  -- the input starts at the free pointer: the selector in the first word, of which four bytes count
  have hp : (BitVec.ofNat 256 p).toNat = p := Word.toNat_ofNat (by omega)
  have hfour := length_selectorData (Abi.methodSignature m)
  have hfirst : exec (apply host code (rounds + 2)) n (.define "ptr" .free) s
      = .ok .next { s with locals := s.locals.declareAll [("ptr", BitVec.ofNat 256 p)] } :=
    exec_define_of_ok (eval_free hfree)
  have hnew (name : String) :
      (s.locals.declareAll [("ptr", BitVec.ofNat 256 p)]).get? name
        = if name = "ptr" then some (BitVec.ofNat 256 p) else s.locals.get? name :=
    get?_declareAll_singleton _ _ _ _
  have hstore : exec (apply host code (rounds + 2)) n (.mstore (.var "ptr")
      (.binary "shl" (.num 224) (.literal (Abi.selector (Abi.methodSignature m)))))
      { s with locals := s.locals.declareAll [("ptr", BitVec.ofNat 256 p)] }
      = .ok .next { s with
          locals := s.locals.declareAll [("ptr", BitVec.ofNat 256 p)]
          memory := s.memory.write p
            (selectorWord (Abi.methodSignature m)).bytes } := by
    rw [exec_mstore (by simp) (by simp) (by simp [hnew]; rfl) (by simp; rfl), hp]
    rfl
  have hend := ne_of_underscore (underscore_endName number) (show '_' ∉ "ptr".toList by decide)
  -- the arguments are written over the rest of that word, behind the four bytes
  have hencode := @execAll_encode_behind host code rounds n p
    { s with
      locals := s.locals.declareAll [("ptr", BitVec.ofNat 256 p)]
      memory := s.memory.write p (selectorWord (Abi.methodSignature m)).bytes }
    values (argNames values.length) (endName number) (.add (.var "ptr") (.num 4))
    (selectorData (Abi.methodSignature m)) hrounds (length_argNames _)
    (hsupports.mono fun name hname => ?_) ?_ (endName_not_mem_argNames _ _)
    (fun pair hpair => ?_) ?_ (by rwa [hfour])
  · obtain ⟨memory, locals, hexec, hkept, hstop, hread⟩ := hencode
    refine ⟨memory, locals, ?_, fun name hptr hname => ?_, ?_, hstop, hread⟩
    · rw [callInput, htypes, List.length_map, List.cons_append, execAll_of_next hfirst,
        List.cons_append, execAll_of_next hstore, List.nil_append, hexec]
    · rw [hkept name hname, hnew, if_neg hptr]
    · rw [hkept "ptr" hend.symm, hnew, if_pos rfl]
  · rw [Yul.Function.calls, callDefinition_body, callInput, htypes, List.length_map]
    simp only [Yul.Stmt.callsAll_append, List.mem_append]
    exact .inl (.inl (.inr hname))
  · rw [hfour, BitVec.ofNat_add]
    exact .add (.var hend.symm (by rw [hnew, if_pos rfl])) (.num 4)
  · have hname := underscore_of_mem_argNames (List.of_mem_zip hpair).1
    rw [hnew, if_neg (ne_of_underscore hname (by decide)), hvars pair hpair]
  · rw [hfour]
    exact Memory.read_write_take _ (by simp)

/-- **The call is made** with the input that was written. -/
theorem exec_call {input answer : List UInt8}
    (hanswered : Answered (apply host code rounds) target input answer)
    (htarget : s.locals.get? "target" = some target)
    (hptr : s.locals.get? "ptr" = some (BitVec.ofNat 256 p))
    (hstop : s.locals.get? (endName number) = some (BitVec.ofNat 256 (p + input.length)))
    (hinput : s.memory.read p input.length = input) (hsize : p + input.length < 2 ^ 256) :
    ∃ t, exec (apply host code rounds) n
        (.guard (.isZero (callExpr number)) (.run "revert_forward" [])) s = .ok .next t ∧
      t.memory = s.memory ∧ t.locals = s.locals := by
  have hp : (BitVec.ofNat 256 p).toNat = p := Word.toNat_ofNat (by omega)
  have hcount : (BitVec.ofNat 256 (p + input.length) - BitVec.ofNat 256 p).toNat
      = input.length := by
    rw [Word.ofNat_add_sub_ofNat, Word.toNat_ofNat (by omega)]
  have hsub : eval (apply host code rounds) (.sub (.var (endName number)) (.var "ptr")) s
      = .ok [BitVec.ofNat 256 (p + input.length) - BitVec.ofNat 256 p] s :=
    eval_sub (by simp) (by simp) (by simp [hstop]) (by simp [hptr])
  obtain ⟨gas, hgas⟩ := hanswered.gas s
  obtain ⟨t, hcall, hmemory, hlocals⟩ := hanswered.call gas (BitVec.ofNat 256 p)
    (BitVec.ofNat 256 (p + input.length) - BitVec.ofNat 256 p) s (by rwa [hp, hcount])
  have heval : eval (apply host code rounds) (callExpr number) s = .ok [1] t := by
    have hplain (name : String) :
        Yul.Expr.sub (.var (endName number)) (.var "ptr") ≠ .quoted name := by
      simp [Yul.Expr.sub]
    rw [callExpr, eval, bind_apply, ← hcall]
    simp [hplain, hsub, hptr, htarget, hgas, quotedNames]
  refine ⟨t, ?_, hmemory, hlocals⟩
  rw [Yul.Expr.isZero, exec, bind_apply, single_apply, eval, bind_apply,
    evalArgs_cons _ _ (by simp [callExpr])]
  simp [heval, Word.truth]

/-- The variables of a function for calls. -/
def callLocals (target : Word) (words : List Word) (results : List String) : Locals Word where
  inner := ("target", target) :: ((argNames words.length).zip words ++ results.map (·, 0))

theorem get?_callLocals {words : List Word} (results : List String) {pair : String × Word}
    (h : pair ∈ (argNames words.length).zip words) :
    (callLocals target words results).get? pair.1 = some pair.2 := by
  have hne := ne_of_underscore (underscore_of_mem_argNames (List.of_mem_zip h).1)
    (show '_' ∉ "target".toList by decide)
  have hnames : (((argNames words.length).zip words).map Prod.fst).Nodup := by
    rw [List.map_fst_zip (Nat.le_of_eq (length_argNames _))]
    exact nodup_argNames _
  simp only [callLocals, Locals.get?, List.flatten_nil, List.append_nil, Table.get?_cons,
    if_neg hne, Table.get?_append, Table.get?_of_mem hnames h, Option.some_or]

theorem get?_callLocals_ret (words : List Word) :
    (callLocals target words ["ret"]).get? "ret" = some 0 := by
  have hne : ∀ entry ∈ (argNames words.length).zip words, entry.1 ≠ "ret" := fun entry hentry =>
    ne_of_underscore (underscore_of_mem_argNames (List.of_mem_zip hentry).1) (by decide)
  simp [callLocals, Locals.get?, Table.get?_cons, Table.get?_append, Table.get?_eq_none hne]

/-- The input is written and the call is made. -/
theorem execAll_call {results : List String} {answer : List UInt8} (hrounds : 32 < rounds)
    (htypes : m.params.map Typed.type = values.map Prod.fst)
    (hsupports : Supports code (callDefinition contract m number).calls)
    (hlocals : s.locals = callLocals target (values.map Prod.snd) results)
    (hfree : s.memory.read 64 32 = Word.bytes (BitVec.ofNat 256 p))
    (hroom : p + 4 + 96 * values.length < 2 ^ 256)
    (hanswered : Answered (apply host code (rounds + 2)) target
      (selectorData (Abi.methodSignature m) ++ encoded values) answer) :
    ∃ t, execAll (apply host code (rounds + 2)) n
        (callInput m number (m.params.map Typed.type)
          ++ [.guard (.isZero (callExpr number)) (.run "revert_forward" [])]) s = .ok .next t ∧
      t.locals.get? "ptr" = some (BitVec.ofNat 256 p) ∧
      t.locals.get? "ret" = s.locals.get? "ret" := by
  have hsize : p + (selectorData (Abi.methodSignature m) ++ encoded values).length < 2 ^ 256 := by
    have htexts := length_encodedTexts_le values
    rw [List.length_append, length_selectorData, length_encoded]
    omega
  have hend {name : String} (h : '_' ∉ name.toList) : name ≠ endName number :=
    (ne_of_underscore (underscore_endName number) h).symm
  obtain ⟨memory, locals, hinput, hkept, hptr, hstop, hread⟩ := @execAll_callInput host code rounds
    n p s contract m number values hrounds htypes hsupports
    (by
      simpa [hlocals] using fun pair =>
        @get?_callLocals target (values.map Prod.snd) results pair)
    hfree hroom
  have htarget : locals.get? "target" = some target := by
    rw [hkept "target" (by decide) (hend (by decide)), hlocals]
    simp [callLocals, Locals.get?, Table.get?_cons]
  obtain ⟨t, hcall, -, htlocals⟩ := @exec_call host code (rounds + 2) n p
    { s with memory, locals } number target _ answer hanswered htarget hptr hstop hread hsize
  refine ⟨t, (execAll_append hinput _).trans ((execAll_of_next hcall).trans rfl), ?_, ?_⟩
  · rw [htlocals, hptr]
  · rw [htlocals, hkept "ret" (by decide) (hend (by decide))]

/-- **The result of a call is read** from what was returned. -/
theorem execAll_callResult {type : Ty} {w : Word} {input rest answer : List UInt8}
    (htype : type.isWord)
    (hsupports : Supports code (Yul.Stmt.callsAll (callResult type)))
    (hfits : Fits type w)
    (hanswered : Answered (apply host code (rounds + 1)) target input answer)
    (hanswer : answer = encoded [(type, w)] ++ rest) (hsize : p + answer.length < 2 ^ 256)
    (hptr : s.locals.get? "ptr" = some (BitVec.ofNat 256 p))
    (hret : (s.locals.get? "ret").isSome) :
    ∃ t, execAll (apply host code (rounds + 1)) n (callResult type) s = .ok .next t ∧
      t.locals.get? "ret" = some w := by
  have hp : (BitVec.ofNat 256 p).toNat = p := Word.toNat_ofNat (by omega)
  have hlength := congrArg List.length hanswer
  rw [List.length_append, length_encoded, List.length_singleton] at hlength
  have hlong : ¬ BitVec.ofNat 256 answer.length < 32#256 := by
    rw [BitVec.lt_def, BitVec.toNat_ofNat, BitVec.toNat_ofNat]
    omega
  have hvoid : type.isVoid = false := by
    cases type <;> first | rfl | cases htype
  rw [callResult, if_neg (by simp [hvoid])] at hsupports ⊢
  -- too little that was returned would be refused here
  have hcheck : exec (apply host code (rounds + 1)) n
      (revertIf (.binary "lt" (.call "returndatasize" []) (.num 32))) s = .ok .next s := by
    simp [revertIf, quotedNames, hanswered.size, Word.truth, hlong]
  have hcopy : exec (apply host code (rounds + 1)) n
      (.run "returndatacopy" [.var "ptr", .num 0, .call "returndatasize" []]) s
      = .ok .next { s with memory := s.memory.write p answer } := by
    have hargs : evalArgs (apply host code (rounds + 1))
        [.var "ptr", .num 0, .call "returndatasize" []] s
        = .ok [BitVec.ofNat 256 p, 0, BitVec.ofNat 256 answer.length] s := by
      simp [quotedNames, hanswered.size, hptr]
    have hrun := hanswered.copy (BitVec.ofNat 256 p) s
    rw [hp] at hrun
    exact exec_run_of_ok hargs hrun
  have hread : (s.memory.write p answer).read p (encoded [(type, w)]).length
      = encoded [(type, w)] := by
    rw [Memory.read_write_take _ (by rw [hanswer]; simp), hanswer, List.take_left' rfl]
  -- the word is decoded from the copy in memory, which ends where the answer ends
  have hshows := @shows_memory (encoded [(type, w)]) (BitVec.ofNat 256 p)
    (s.memory.write p answer) (by rwa [hp])
    (by rw [hp, length_encoded, List.length_singleton]; omega)
  have hvar : eval (apply host code (rounds + 1)) (.var "ptr")
      { s with memory := s.memory.write p answer }
      = .ok [BitVec.ofNat 256 p] { s with memory := s.memory.write p answer } := by
    simp [hptr]
  have hdecode := @eval_decodeMemory host code rounds
    { s with memory := s.memory.write p answer } w [] [] type (.var "ptr") (.var "ptr")
    (BitVec.ofNat 256 p) (hsupports.mono fun name hname => by
      simp [Yul.Stmt.callsAll, Yul.Stmt.calls, hname]) hfits hshows (by simp) (by simp) hvar
    (by simpa using hvar)
  refine ⟨_, (execAll_of_next hcheck).trans ((execAll_of_next hcopy).trans
    (execAll_of_next (exec_assign_of_ok hdecode hret))), ?_⟩
  obtain ⟨old, hold⟩ := Option.isSome_iff_exists.1 hret
  exact Locals.get?_set_self _ hold

/-- **A call hands its arguments over and gives what was returned.** -/
theorem runFunction_callDefinition {answer : List UInt8} (hrounds : 32 < rounds)
    (htypes : m.params.map Typed.type = values.map Prod.fst)
    (hsupports : Supports code (callDefinition contract m number).calls)
    (hfree : s.memory.read 64 32 = Word.bytes (BitVec.ofNat 256 p))
    (hroom : p + 4 + 96 * values.length < 2 ^ 256)
    (hanswered : Answered (apply host code (rounds + 2)) target
      (selectorData (Abi.methodSignature m) ++ encoded values) answer) :
    (m.returns.isVoid →
      ∃ t, runFunction host code (rounds + 2) (callDefinition contract m number)
        (target :: values.map Prod.snd) s = .ok [] t) ∧
    ∀ w rest, m.returns.isWord → Fits m.returns w →
      answer = encoded [(m.returns, w)] ++ rest → p + answer.length < 2 ^ 256 →
      ∃ t, runFunction host code (rounds + 2) (callDefinition contract m number)
        (target :: values.map Prod.snd) s = .ok [w] t := by
  have hcount : m.params.length = values.length := by
    simpa using congrArg List.length htypes
  have hargs : (target :: values.map Prod.snd).length
      = (callDefinition contract m number).params.length := by
    simp [callDefinition, length_argNames, hcount]
  have hlocals : ({
        inner := (callDefinition contract m number).params.zip (target :: values.map Prod.snd)
          ++ (callDefinition contract m number).results.map (·, 0) } : Locals Word)
      = callLocals target (values.map Prod.snd) (resultVars m.returns) := by
    simp [callDefinition, callLocals, hcount]
  -- Up to the answer the body is the same whether or not the method returns a word.
  obtain ⟨t, hexec, hptr, hret⟩ := @execAll_call host code rounds (rounds + 2) p
    { s with locals := callLocals target (values.map Prod.snd) (resultVars m.returns) } contract m
    number values target _ answer hrounds htypes hsupports rfl hfree hroom hanswered
  constructor
  · intro hvoid
    have hresults : resultVars m.returns = [] := by
      cases hreturns : m.returns <;> simp [hreturns, Ty.isVoid] at hvoid <;> rfl
    have hbody : execAll (apply host code (rounds + 2)) (rounds + 2)
        (callDefinition contract m number).body { s with locals := {
          inner := (callDefinition contract m number).params.zip (target :: values.map Prod.snd)
            ++ (callDefinition contract m number).results.map (·, 0) } } = .ok .next t := by
      rw [hlocals, callDefinition_body, callResult, if_pos hvoid, List.append_nil]
      exact hexec
    refine ⟨{ t with locals := s.locals }, ?_⟩
    rw [runFunction, invoke_of_ok hargs hbody]
    simp [callDefinition, hresults]
  · intro w rest hword hfits hanswer hsize
    have hresults : resultVars m.returns = ["ret"] := by
      cases hreturns : m.returns <;> simp [hreturns, Ty.isWord] at hword <;> rfl
    rw [hresults, get?_callLocals_ret] at hret
    have hreads : Supports code (Yul.Stmt.callsAll (callResult m.returns)) :=
      hsupports.mono fun name hname => by
        rw [Yul.Function.calls, callDefinition_body, Yul.Stmt.callsAll_append]
        exact List.mem_append_right _ hname
    -- What follows checks the length of the answer and reads the word from its start.
    obtain ⟨u, hresult, hw⟩ := @execAll_callResult host code (rounds + 1) (rounds + 2) p t target
      m.returns w _ rest answer hword hreads hfits hanswered hanswer hsize hptr (by rw [hret]; rfl)
    have hbody : execAll (apply host code (rounds + 2)) (rounds + 2)
        (callDefinition contract m number).body { s with locals := {
          inner := (callDefinition contract m number).params.zip (target :: values.map Prod.snd)
            ++ (callDefinition contract m number).results.map (·, 0) } } = .ok .next u := by
      rw [hlocals, callDefinition_body]
      exact (execAll_append hexec _).trans hresult
    refine ⟨{ u with locals := s.locals }, ?_⟩
    rw [runFunction, invoke_of_ok hargs hbody]
    simp [callDefinition, hresults, hw]

end Calls

/-! ## Deployments -/

/-- **A contract is created** from its code with an input behind it. -/
structure Created (run : Apply) (contract : String) (creation input : List UInt8) (address : Word) :
    Prop where
  size : ∀ s, run [contract] "datasize" [] s = .ok [BitVec.ofNat 256 creation.length] s
  code : ∃ place : Word, (∀ s, run [contract] "dataoffset" [] s = .ok [place] s) ∧
    ∀ start : Word, ∀ s, run [] "datacopy" [start, place, BitVec.ofNat 256 creation.length] s
      = .ok [] { s with memory := s.memory.write start.toNat creation }
  create : ∀ place count : Word, ∀ s,
    s.memory.read place.toNat count.toNat = creation ++ input →
    ∃ t, run [] "create" [0, place, count] s = .ok [address] t ∧ t.locals = s.locals

section Deployments

variable {c : Contract} {number : Nat} {values : List (Ty × Word)} {address : Word}

/-- The code that puts the code of a contract into memory. -/
def deployCode (contract : String) : List Yul.Stmt :=
  [.define "size" (.call "datasize" [.quoted contract]), .define "ptr" .free,
    .run "datacopy" [.var "ptr", .call "dataoffset" [.quoted contract], .var "size"]]

/-- The creation that a function for deployments asks for. -/
def createExpr (number : Nat) : Yul.Expr :=
  .call "create" [.num 0, .var "ptr", .sub (.var (endName number)) (.var "ptr")]

theorem deployDefinition_body (c : Contract) (number : Nat)
    (htypes : c.constructorParams.map Typed.type = values.map Prod.fst) :
    (deployDefinition c number).body = deployCode c.name
      ++ encode (endName number) (.add (.var "ptr") (.var "size"))
        (typedVars (values.map Prod.fst) (argNames values.length))
      ++ [.assign "addr" (createExpr number),
        .guard (.isZero (.var "addr")) (.run "revert_forward" [])] := by
  simp [deployDefinition, deployCode, createExpr, htypes]

/-- The variables once the code of the contract stands in memory. -/
def deployLocals (l : Locals Word) (place length : Nat) : Locals Word :=
  (l.declareAll [("size", BitVec.ofNat 256 length)]).declareAll [("ptr", BitVec.ofNat 256 place)]

theorem get?_deployLocals (l : Locals Word) (place length : Nat) (name : String) :
    (deployLocals l place length).get? name
      = if name = "ptr" then some (BitVec.ofNat 256 place)
        else if name = "size" then some (BitVec.ofNat 256 length) else l.get? name := by
  rw [deployLocals, get?_declareAll_singleton, get?_declareAll_singleton]

/-- The code of the contract is put into memory. -/
theorem execAll_deployCode {creation input : List UInt8}
    (hcreated : Created (apply host code rounds) c.name creation input address)
    (hfree : s.memory.read 64 32 = Word.bytes (BitVec.ofNat 256 p)) (hroom : p < 2 ^ 256) :
    execAll (apply host code rounds) n (deployCode c.name) s = .ok .next { s with
      locals := deployLocals s.locals p creation.length
      memory := s.memory.write p creation } := by
  have hp : (BitVec.ofNat 256 p).toNat = p := Word.toNat_ofNat (by omega)
  obtain ⟨place, hplace, hcopy⟩ := hcreated.code
  have hsize : exec (apply host code rounds) n
      (.define "size" (.call "datasize" [.quoted c.name])) s = .ok .next { s with
        locals := s.locals.declareAll [("size", BitVec.ofNat 256 creation.length)] } :=
    exec_define_of_ok (by simp [quotedNames, hcreated.size])
  have hptr : exec (apply host code rounds) n (.define "ptr" .free)
      { s with locals := s.locals.declareAll [("size", BitVec.ofNat 256 creation.length)] }
      = .ok .next { s with locals := deployLocals s.locals p creation.length } :=
    exec_define_of_ok (@eval_free host code rounds p
      { s with locals := s.locals.declareAll [("size", BitVec.ofNat 256 creation.length)] } hfree)
  have hargs : evalArgs (apply host code rounds)
      [.var "ptr", .call "dataoffset" [.quoted c.name], .var "size"]
      { s with locals := deployLocals s.locals p creation.length }
      = .ok [BitVec.ofNat 256 p, place, BitVec.ofNat 256 creation.length]
        { s with locals := deployLocals s.locals p creation.length } := by
    simp [quotedNames, hplace, get?_deployLocals]
  have hrun := hcopy (BitVec.ofNat 256 p)
    { s with locals := deployLocals s.locals p creation.length }
  rw [hp] at hrun
  exact (execAll_of_next hsize).trans ((execAll_of_next hptr).trans
    ((execAll_of_next (exec_run_of_ok hargs hrun)).trans rfl))

/-- **The contract is created** from what was written. -/
theorem execAll_create {creation input : List UInt8}
    (hcreated : Created (apply host code rounds) c.name creation input address)
    (haddress : address ≠ 0) (hptr : s.locals.get? "ptr" = some (BitVec.ofNat 256 p))
    (hstop : s.locals.get? (endName number)
      = some (BitVec.ofNat 256 (p + (creation ++ input).length)))
    (hinput : s.memory.read p (creation ++ input).length = creation ++ input)
    (hsize : p + (creation ++ input).length < 2 ^ 256) (haddr : (s.locals.get? "addr").isSome) :
    ∃ t, execAll (apply host code rounds) n
        [.assign "addr" (createExpr number),
          .guard (.isZero (.var "addr")) (.run "revert_forward" [])] s = .ok .next t ∧
      t.locals.get? "addr" = some address := by
  have hp : (BitVec.ofNat 256 p).toNat = p := Word.toNat_ofNat (by omega)
  have hcount : (BitVec.ofNat 256 (p + (creation ++ input).length) - BitVec.ofNat 256 p).toNat
      = (creation ++ input).length := by
    rw [Word.ofNat_add_sub_ofNat, Word.toNat_ofNat (by omega)]
  have hsub : eval (apply host code rounds) (.sub (.var (endName number)) (.var "ptr")) s
      = .ok [BitVec.ofNat 256 (p + (creation ++ input).length) - BitVec.ofNat 256 p] s :=
    eval_sub (by simp) (by simp) (by simp [hstop]) (by simp [hptr])
  obtain ⟨t, hcreate, hlocals⟩ := hcreated.create (BitVec.ofNat 256 p)
    (BitVec.ofNat 256 (p + (creation ++ input).length) - BitVec.ofNat 256 p) s (by rwa [hp, hcount])
  have heval : eval (apply host code rounds) (createExpr number) s = .ok [address] t := by
    have hplain (name : String) :
        Yul.Expr.sub (.var (endName number)) (.var "ptr") ≠ .quoted name := by
      simp [Yul.Expr.sub]
    rw [createExpr, eval, bind_apply, ← hcreate]
    simp [hplain, hsub, hptr, quotedNames]
  rw [← hlocals] at haddr
  obtain ⟨old, hold⟩ := Option.isSome_iff_exists.1 haddr
  have hset := t.locals.get?_set_self address hold
  refine ⟨{ t with locals := t.locals.set "addr" address }, ?_, hset⟩
  have hnonzero : ¬ address = 0#256 := haddress
  rw [execAll_of_next (exec_assign_of_ok heval haddr)]
  simp [hset, Word.truth, hnonzero]

/-- **A deployment hands its arguments over** behind the code of the contract. -/
theorem runFunction_deployDefinition {creation : List UInt8} (hrounds : 32 < rounds)
    (htypes : c.constructorParams.map Typed.type = values.map Prod.fst)
    (hsupports : Supports code (deployDefinition c number).calls)
    (hfree : s.memory.read 64 32 = Word.bytes (BitVec.ofNat 256 p))
    (hroom : p + creation.length + 96 * values.length < 2 ^ 256)
    (hcreated : Created (apply host code (rounds + 2)) c.name creation (encoded values) address)
    (haddress : address ≠ 0) :
    ∃ t, runFunction host code (rounds + 2) (deployDefinition c number) (values.map Prod.snd) s
      = .ok [address] t := by
  have hcount : c.constructorParams.length = values.length := by
    simpa using congrArg List.length htypes
  have hargs : (values.map Prod.snd).length = (deployDefinition c number).params.length := by
    simp [deployDefinition, length_argNames, hcount]
  have hunderscore {name : String} (h : name ∈ argNames values.length) {other : String}
      (h' : '_' ∉ other.toList) : name ≠ other :=
    ne_of_underscore (underscore_of_mem_argNames h) h'
  have hend {name : String} (h : '_' ∉ name.toList) : name ≠ endName number :=
    (ne_of_underscore (underscore_endName number) h).symm
  have hsize : p + (creation ++ encoded values).length < 2 ^ 256 := by
    have htexts := length_encodedTexts_le values
    rw [List.length_append, length_encoded]
    omega
  have hnames : (((argNames values.length).zip (values.map Prod.snd)).map Prod.fst).Nodup := by
    rw [List.map_fst_zip (by simp [length_argNames])]
    exact nodup_argNames _
  have haddr : ∀ entry ∈ (argNames values.length).zip (values.map Prod.snd), entry.1 ≠ "addr" :=
    fun entry hentry => hunderscore (List.of_mem_zip hentry).1 (by decide)
  -- the arguments are encoded behind the code of the contract, which is in memory by then
  have hbehind := @execAll_encode_behind host code rounds (rounds + 2) p
    { s with
      locals := deployLocals { inner := (argNames values.length).zip (values.map Prod.snd)
        ++ [("addr", 0)] } p creation.length
      memory := s.memory.write p creation } values
    (argNames values.length) (endName number) (.add (.var "ptr") (.var "size")) creation hrounds
    (length_argNames _) (hsupports.mono fun name hname => ?_) ?_ (endName_not_mem_argNames _ _)
    (fun pair hpair => ?_) (Memory.read_write_self _ _ _) hroom
  · obtain ⟨memory, locals, hencode, hkept, hstop, hread⟩ := hbehind
    obtain ⟨t, hcreate, ht⟩ := @execAll_create host code (rounds + 2) (rounds + 2) p
      { s with memory, locals } c number address creation (encoded values) hcreated haddress
      (by rw [hkept "ptr" (hend (by decide)), get?_deployLocals, if_pos rfl]) hstop hread hsize
      (by
        rw [hkept "addr" (hend (by decide)), get?_deployLocals]
        simp [Locals.get?, Table.get?_append, Table.get?_eq_none haddr, Table.get?_cons])
    -- the three parts of the body run one after another
    have hcode := @execAll_deployCode host code (rounds + 2) (rounds + 2) p
      { s with locals := { inner := (argNames values.length).zip (values.map Prod.snd)
        ++ [("addr", 0)] } } c address creation (encoded values) hcreated hfree (by omega)
    have hbody : execAll (apply host code (rounds + 2)) (rounds + 2)
        (deployDefinition c number).body { s with locals := {
          inner := (deployDefinition c number).params.zip (values.map Prod.snd)
            ++ (deployDefinition c number).results.map (·, 0) } } = .ok .next t := by
      rw [deployDefinition_body c number htypes, List.append_assoc]
      refine (execAll_append ?_ _).trans ((execAll_append hencode _).trans hcreate)
      simpa [deployDefinition, hcount] using hcode
    refine ⟨{ t with locals := s.locals }, ?_⟩
    rw [runFunction, invoke_of_ok hargs hbody]
    simp [deployDefinition, ht]
  · rw [Yul.Function.calls, deployDefinition_body c number htypes]
    simp only [Yul.Stmt.callsAll_append, List.mem_append]
    exact .inl (.inr hname)
  · rw [BitVec.ofNat_add]
    exact .add (.var (hend (by decide)) (by rw [get?_deployLocals, if_pos rfl]))
      (.var (hend (by decide)) (by rw [get?_deployLocals, if_neg (by decide), if_pos rfl]))
  · have hmem := (List.of_mem_zip hpair).1
    rw [get?_deployLocals, if_neg (hunderscore hmem (by decide)),
      if_neg (hunderscore hmem (by decide))]
    simp only [Locals.get?, List.flatten_nil, List.append_nil, Table.get?_append,
      Table.get?_of_mem hnames hpair, Option.some_or]

end Deployments

end Machine

end Covenant
