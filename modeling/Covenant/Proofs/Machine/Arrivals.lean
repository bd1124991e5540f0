import Covenant.Proofs.Machine.Passing

/-!
# Values that arrive

The case of a dispatcher calls its function on the words that were encoded, and returns the encoding
of what the function gives; the code that creates a contract reads the words its constructor is
applied to. Together with what calls and deployments write, values arrive as they were
(`values_arrive`).
-/

namespace Covenant

namespace Machine

open Emit

variable {host : Host} {code : List Yul.Function} {rounds n p : Nat} {s t : State}

/-! ## Cases of a dispatcher -/

section Dispatch

variable {r : Route} {values : List (Ty × Word)} {number : Nat}

theorem runFunction_requireNoValue (h : host.callvalue = 0) :
    runFunction host code rounds requireNoValue [] s = .ok [] s := by
  simp [runFunction, invoke, requireNoValue, revertIf, quotedNames, h]

theorem runFunction_requireCalldata {size : Nat} (h : size ≤ host.calldata.length)
    (hlength : host.calldata.length < 2 ^ 256) :
    runFunction host code rounds requireCalldata [BitVec.ofNat 256 size] s = .ok [] s := by
  have hnot : ¬ BitVec.ofNat 256 host.calldata.length < BitVec.ofNat 256 size := by
    rw [BitVec.lt_def, BitVec.toNat_ofNat, BitVec.toNat_ofNat]
    omega
  simp [runFunction, invoke, requireCalldata, revertIf, quotedNames, Locals.get?, Table.get?_cons,
    Word.truth, hnot]

/-- The arguments of a call are checked and read. -/
theorem execAll_decoding {selector rest : List UInt8}
    (hinputs : r.inputs = values.map Prod.fst)
    (hsupports : Supports code (Yul.Stmt.callsAll r.decoding))
    (hguard : r.guarded → host.callvalue = 0) (hfits : ∀ v ∈ values, Fits v.1 v.2)
    (hcalldata : host.calldata = selector ++ encoded values ++ rest)
    (hselector : selector.length = 4) (hsize : host.calldata.length < 2 ^ 256) :
    ∃ locals, execAll (apply host code (rounds + 1)) n r.decoding s
        = .ok .next { s with locals } ∧
      evalArgs (apply host code (rounds + 1)) ((argNames values.length).map .var) { s with locals }
        = .ok (values.map Prod.snd) { s with locals } := by
  have hlength := congrArg List.length hcalldata
  rw [List.length_append, List.length_append, hselector, length_encoded] at hlength
  have hcalls := hsupports
  rw [Route.decoding, hinputs, List.length_map, Yul.Stmt.callsAll_append, Yul.Stmt.callsAll_append]
    at hcalls
  -- Each of the two guards is present only for some routes, and passes where it is.
  have hvalue : execAll (apply host code (rounds + 1)) n
      (if r.guarded then [.run "require_no_value" []] else []) s = .ok .next s := by
    by_cases hguarded : r.guarded
    · rw [if_pos hguarded]
      exact execAll_of_next (exec_shared hcalls (show requireNoValue ∈ shared by simp [shared])
        (by simp [hguarded, Yul.Stmt.callsAll, Yul.Stmt.calls, requireNoValue, Yul.Stmt.run,
          Yul.Expr.calls]) rfl (runFunction_requireNoValue (hguard hguarded)))
    · rw [if_neg hguarded]
      rfl
  have hlong : execAll (apply host code (rounds + 1)) n
      (if (values.map Prod.fst).isEmpty then []
        else [.run "require_calldata" [.num (4 + 32 * values.length)]]) s = .ok .next s := by
    by_cases hempty : (values.map Prod.fst).isEmpty
    · rw [if_pos hempty]
      rfl
    · rw [if_neg hempty]
      exact execAll_of_next (exec_shared hcalls (show requireCalldata ∈ shared by simp [shared])
        (by simp [hempty, Yul.Stmt.callsAll, Yul.Stmt.calls, requireCalldata, Yul.Stmt.run,
          Yul.Expr.calls]) (evalArgs_single (by simp) (by rw [eval_num]; rfl))
        (runFunction_requireCalldata (by omega) hsize))
  obtain ⟨locals, hdecode, hvars, -⟩ := @execAll_decodeCalldata host code rounds n s values
    (argNames values.length) (nodup_argNames _) (length_argNames _)
    (hcalls.mono fun name hname => List.mem_append_right _ hname) hfits
    (shows_calldata hcalldata hselector hsize)
  refine ⟨locals, ?_, evalArgs_named (by simp [length_argNames]) hvars⟩
  rw [Route.decoding, hinputs, List.length_map, List.append_assoc]
  exact (execAll_append hvalue _).trans ((execAll_append hlong _).trans hdecode)

/-- Bytes of memory are returned. -/
theorem exec_return {place count : Yul.Expr} {start size : Word}
    (hargs : evalArgs (apply host code rounds) [place, count] s = .ok [start, size] s) :
    exec (apply host code rounds) n (.run "return" [place, count]) s
      = .error (.returned (s.memory.read start.toNat size.toNat)) s := by
  rw [Yul.Stmt.run, exec, bind_apply, eval, bind_apply, hargs]
  simp

/-- What was written is returned. -/
theorem execAll_returnEncoding {names : List String} {results : List (Ty × Word)}
    (hrounds : 32 < rounds) (hcount : names.length = results.length)
    (hsupports : Supports code (Yul.Stmt.callsAll
      (encode (endName number) (.var "ptr") (typedVars (results.map Prod.fst) names))))
    (hstop : endName number ∉ names) (hptr : s.locals.get? "ptr" = some (BitVec.ofNat 256 p))
    (hvars : ∀ pair ∈ names.zip (results.map Prod.snd), s.locals.get? pair.1 = some pair.2)
    (hroom : p + 96 * results.length < 2 ^ 256) :
    ∃ u, execAll (apply host code (rounds + 2)) n
        (encode (endName number) (.var "ptr") (typedVars (results.map Prod.fst) names)
          ++ [.run "return" [.var "ptr", .sub (.var (endName number)) (.var "ptr")]]) s
      = .error (.returned (encoded results)) u := by
  have hp : (BitVec.ofNat 256 p).toNat = p := Word.toNat_ofNat (by omega)
  have hsize : (BitVec.ofNat 256 (p + (encoded results).length) - BitVec.ofNat 256 p).toNat
      = (encoded results).length := by
    have htexts := length_encodedTexts_le results
    have hlength := length_encoded results
    rw [Word.ofNat_add_sub_ofNat, Word.toNat_ofNat (by omega)]
  have hend : "ptr" ≠ endName number :=
    (ne_of_underscore (underscore_endName number) (by decide)).symm
  obtain ⟨memory, locals, hencode, hkept, hfinish, hread⟩ := @execAll_encode_behind host code rounds
    n p s results names (endName number) (.var "ptr") [] hrounds hcount hsupports (.var hend hptr)
    hstop hvars rfl hroom
  rw [List.nil_append] at hfinish hread
  have hvar : eval (apply host code (rounds + 2)) (.var "ptr") { s with memory, locals }
      = .ok [BitVec.ofNat 256 p] { s with memory, locals } := by
    simp [hkept "ptr" hend, hptr]
  have hsub := eval_sub (by simp) (by simp) (show eval (apply host code (rounds + 2))
    (.var (endName number)) { s with memory, locals } = .ok _ _ by simp [hfinish]; rfl) hvar
  have hreturn := @exec_return host code (rounds + 2) n { s with memory, locals } _ _ _ _
    (evalArgs_pair (by simp) (by simp [Yul.Expr.sub]) hvar hsub)
  rw [hp, hsize, hread] at hreturn
  refine ⟨{ s with memory, locals }, ?_⟩
  rw [execAll_append hencode, execAll, bind_apply, hreturn, andThen_error]

/-- What the function of a route gives is encoded and returned. -/
theorem execAll_answering {results : List Word} (hrounds : 32 < rounds)
    (hsupports : Supports code (Yul.Stmt.callsAll (r.answering number)))
    (hresults : results.length = r.outputs.length)
    (hcall : eval (apply host code (rounds + 2)) r.invocation s = .ok results t)
    (hfree : t.memory.read 64 32 = Word.bytes (BitVec.ofNat 256 p))
    (hroom : p + 96 * results.length < 2 ^ 256) :
    ∃ u, execAll (apply host code (rounds + 2)) n (r.answering number) s
      = .error (.returned (encoded (r.outputs.zip results))) u := by
  by_cases hempty : r.outputs.isEmpty
  · have hnone : r.outputs = [] := List.isEmpty_iff.1 hempty
    obtain rfl : results = [] := by
      simpa [hnone] using hresults
    -- no results: nothing is encoded, and nothing is returned
    have hevaluate : exec (apply host code (rounds + 2)) n (.evaluate r.invocation) s
        = .ok .next t := by
      simp [hcall]
    have hreturn := @exec_return host code (rounds + 2) n t (.num 0) (.num 0) 0 0 (by simp)
    refine ⟨t, ?_⟩
    rw [Route.answering, if_pos hempty, execAll_of_next hevaluate, execAll, bind_apply, hreturn]
    simp [hnone, encoded, encodedHeads, encodedTexts, Memory.read]
  · -- the results are declared, encoded at the free pointer, and returned from there
    have hfst : (r.outputs.zip results).map Prod.fst = r.outputs :=
      List.map_fst_zip (Nat.le_of_eq hresults.symm)
    have hsnd : (r.outputs.zip results).map Prod.snd = results :=
      List.map_snd_zip (Nat.le_of_eq hresults)
    have hlength : (r.outputs.zip results).length = results.length := by
      rw [List.length_zip, hresults, Nat.min_self]
    have hcount : r.resultNames.length = results.length :=
      (Storage.length_numbered _ _).trans hresults.symm
    have hnames : ((r.resultNames.zip results).map Prod.fst).Nodup := by
      rw [List.map_fst_zip (Nat.le_of_eq hcount)]
      exact Storage.nodup_numbered _ _
    rw [Route.answering, if_neg hempty] at hsupports ⊢
    have hdeclare : exec (apply host code (rounds + 2)) n
        (.declare r.resultNames (some r.invocation)) s
        = .ok .next { t with locals := t.locals.declareAll (r.resultNames.zip results) } := by
      simp [hcall, hcount]
    have hptr := @exec_define_of_ok (apply host code (rounds + 2))
      { t with locals := t.locals.declareAll (r.resultNames.zip results) } _ n "ptr" .free _
      (eval_free hfree)
    obtain ⟨u, hreturn⟩ := @execAll_returnEncoding host code rounds n p
      { t with
        locals := (t.locals.declareAll (r.resultNames.zip results)).declareAll
          [("ptr", BitVec.ofNat 256 p)] } number r.resultNames (r.outputs.zip results) hrounds
      (hcount.trans hlength.symm)
      (hsupports.mono fun name hname => by
        rw [hfst] at hname
        simp only [Yul.Stmt.callsAll_append, List.mem_append]
        exact .inl (.inr hname))
      (endName_not_mem_numbered rfl (by decide) _ _) (by rw [get?_declareAll_singleton, if_pos rfl])
      (fun pair hpair => by
        rw [hsnd] at hpair
        have hname := underscore_of_mem_numbered (by decide) (List.of_mem_zip hpair).1
        have hne := ne_of_underscore hname (show '_' ∉ "ptr".toList by decide)
        rw [get?_declareAll_singleton, if_neg hne, Locals.get?_declareAll,
          Table.get?_of_mem hnames hpair, Option.some_or])
      (by rwa [hlength])
    rw [hfst] at hreturn
    refine ⟨u, ?_⟩
    rw [List.cons_append, List.cons_append, execAll_of_next hdeclare, List.cons_append,
      List.cons_append, execAll_of_next hptr]
    exact hreturn

/-- **A case of the dispatcher calls its function on what was encoded**, and returns the encoding of
what the function gives. -/
theorem execAll_case {f : Yul.Function} {selector rest : List UInt8} {results : List Word}
    (hrounds : 32 < rounds) (hinputs : r.inputs = values.map Prod.fst)
    (hsupports : Supports code (Yul.Stmt.callsAll (r.case number).body))
    (hguard : r.guarded → host.callvalue = 0) (hfits : ∀ v ∈ values, Fits v.1 v.2)
    (hcalldata : host.calldata = selector ++ encoded values ++ rest)
    (hselector : selector.length = 4) (hsize : host.calldata.length < 2 ^ 256)
    (hname : r.function ∉ operationNames) (hfunction : function? code r.function = some f)
    (hrun : runFunction host code (rounds + 1) f (values.map Prod.snd) s = .ok results t)
    (hresults : results.length = r.outputs.length)
    (hfree : t.memory.read 64 32 = Word.bytes (BitVec.ofNat 256 p))
    (hroom : p + 96 * results.length < 2 ^ 256) :
    ∃ u, execAll (apply host code (rounds + 2)) n (r.case number).body s
      = .error (.returned (encoded (r.outputs.zip results))) u := by
  rw [Route.case, Yul.Stmt.callsAll_append] at hsupports
  obtain ⟨locals, hdecode, hargs⟩ := @execAll_decoding host code (rounds + 1) n s r values selector
    rest hinputs (hsupports.mono fun name hname => List.mem_append_left _ hname) hguard hfits
    hcalldata hselector hsize
  have hcall : eval (apply host code (rounds + 2)) r.invocation { s with locals }
      = .ok results { t with locals } := by
    rw [Route.invocation, hinputs, List.length_map, eval, bind_apply, hargs, andThen_ok,
      apply_of_function hname hfunction, runFunction_locals hrun locals]
  obtain ⟨u, hanswer⟩ := @execAll_answering host code rounds n p { s with locals }
    { t with locals } r number results hrounds
    (hsupports.mono fun name hname => List.mem_append_right _ hname) hresults hcall hfree hroom
  exact ⟨u, (execAll_append hdecode _).trans hanswer⟩

end Dispatch

/-! ## Construction -/

/-- **A contract is under construction**: its code runs with an input behind it. -/
structure Deployed (run : Apply) (contract : String) (creation input : List UInt8) : Prop where
  whole : ∀ s, run [] "codesize" [] s
    = .ok [BitVec.ofNat 256 (creation.length + input.length)] s
  size : ∀ s, run [contract] "datasize" [] s = .ok [BitVec.ofNat 256 creation.length] s
  copy : ∀ place : Word, ∀ s,
    run [] "codecopy"
        [place, BitVec.ofNat 256 creation.length, BitVec.ofNat 256 input.length] s
      = .ok [] { s with memory := s.memory.write place.toNat input }

section Construction

variable {contract : String} {values : List (Ty × Word)} {creation : List UInt8}

theorem runFunction_allocate {size : Word}
    (hfree : s.memory.read 64 32 = Word.bytes (BitVec.ofNat 256 p)) :
    runFunction host code rounds allocate [size] s = .ok [BitVec.ofNat 256 p]
      { s with memory := s.memory.write 64 (Word.bytes (BitVec.ofNat 256 p + size)) } := by
  simp [runFunction, invoke, allocate, Yul.Expr.free, Locals.get?, Table.get?_cons, Locals.set,
    Table.set, hfree, Word.ofBytes_bytes]

/-- The code that puts the input of a construction into memory, once its size is known. -/
def copyInput (contract : String) (count : Nat) : List Yul.Stmt :=
  [revertIf (.binary "lt" (.var "args_size") (.num (32 * count))),
    .define "args" (.call "allocate" [.var "args_size"]),
    .run "codecopy" [.var "args", .call "datasize" [.quoted contract], .var "args_size"]]

theorem constructorArguments_of_ne {types : List Ty} (contract : String) (h : types ≠ []) :
    Context.constructorArguments contract types =
      .define "args_size" (.sub (.call "codesize" []) (.call "datasize" [.quoted contract]))
        :: (copyInput contract types.length
          ++ (types.zip (argNames types.length)).mapIdx fun i (type, name) =>
            .define name (decodeMemory type (.var "args") (head (.var "args") i))) := by
  rw [Context.constructorArguments, if_neg (by simpa using h)]
  rfl

/-- The input of a construction is put into memory. -/
theorem execAll_copyInput {names : List String} {count : Nat} {input : List UInt8}
    (hsupports : Supports code names) (hallocate : "allocate" ∈ names)
    (hdeployed : Deployed (apply host code (rounds + 1)) contract creation input)
    (hknown : s.locals.get? "args_size" = some (BitVec.ofNat 256 input.length))
    (hlong : 32 * count ≤ input.length)
    (hfree : s.memory.read 64 32 = Word.bytes (BitVec.ofNat 256 p))
    (hroom : p + input.length < 2 ^ 256) :
    ∃ t, execAll (apply host code (rounds + 1)) n (copyInput contract count) s = .ok .next t ∧
      t.locals.get? "args" = some (BitVec.ofNat 256 p) ∧
      t.memory.read p input.length = input := by
  have hp : (BitVec.ofNat 256 p).toNat = p := Word.toNat_ofNat (by omega)
  have hnot : ¬ BitVec.ofNat 256 input.length < BitVec.ofNat 256 (32 * count) := by
    rw [BitVec.lt_def, BitVec.toNat_ofNat, BitVec.toNat_ofNat]
    omega
  have hcheck : exec (apply host code (rounds + 1)) n
      (revertIf (.binary "lt" (.var "args_size") (.num (32 * count)))) s = .ok .next s := by
    simp [revertIf, hknown, Word.truth, hnot]
  obtain ⟨u, hu, hargs, hsize⟩ : ∃ u, exec (apply host code (rounds + 1)) n
      (.define "args" (.call "allocate" [.var "args_size"])) s = .ok .next u ∧
      u.locals.get? "args" = some (BitVec.ofNat 256 p) ∧
      u.locals.get? "args_size" = some (BitVec.ofNat 256 input.length) := by
    refine ⟨_, exec_define_of_ok (eval_shared hsupports (show allocate ∈ shared by simp [shared])
      hallocate (evalArgs_single (by simp) (show eval _ (.var "args_size") s = .ok _ s by
        simp [hknown]; rfl)) (runFunction_allocate hfree)), ?_, ?_⟩
    · rw [get?_declareAll_singleton, if_pos rfl]
    · rw [get?_declareAll_singleton, if_neg (by decide), hknown]
  have hwords : evalArgs (apply host code (rounds + 1))
      [.var "args", .call "datasize" [.quoted contract], .var "args_size"] u
      = .ok [BitVec.ofNat 256 p, BitVec.ofNat 256 creation.length,
          BitVec.ofNat 256 input.length] u := by
    simp [quotedNames, hargs, hsize, hdeployed.size]
  have hcopy := hdeployed.copy (BitVec.ofNat 256 p) u
  rw [hp] at hcopy
  exact ⟨_, (execAll_of_next hcheck).trans ((execAll_of_next hu).trans
    (execAll_of_next (exec_run_of_ok hwords hcopy))), hargs, Memory.read_write_self _ _ _⟩

/-- **The code that creates a contract reads the arguments of the constructor** as they were
written. -/
theorem execAll_constructorArguments
    (hsupports : Supports code
      (Yul.Stmt.callsAll (Context.constructorArguments contract (values.map Prod.fst))))
    (hfits : ∀ v ∈ values, Fits v.1 v.2)
    (hdeployed : Deployed (apply host code (rounds + 1)) contract creation (encoded values))
    (hsize : creation.length + (encoded values).length < 2 ^ 256)
    (hfree : s.memory.read 64 32 = Word.bytes (BitVec.ofNat 256 p))
    (hroom : p + (encoded values).length < 2 ^ 256) :
    ∃ t, execAll (apply host code (rounds + 1)) n
        (Context.constructorArguments contract (values.map Prod.fst)) s = .ok .next t ∧
      evalArgs (apply host code (rounds + 1)) ((argNames values.length).map .var) t
        = .ok (values.map Prod.snd) t := by
  by_cases hempty : values = []
  · subst hempty
    exact ⟨s, rfl, rfl⟩
  · have htypes : values.map Prod.fst ≠ [] := by simpa using hempty
    have hlength := length_encoded values
    -- The arguments are what the deployed code holds past the creation code, so their length is a
    -- difference.
    have hleft : BitVec.ofNat 256 (creation.length + (encoded values).length)
        - BitVec.ofNat 256 creation.length = BitVec.ofNat 256 (encoded values).length :=
      Word.ofNat_add_sub_ofNat _ _
    have hwhole : eval (apply host code (rounds + 1))
        (.sub (.call "codesize" []) (.call "datasize" [.quoted contract])) s
        = .ok [BitVec.ofNat 256 (encoded values).length] s := by
      rw [← hleft]
      exact eval_sub (by simp) (by simp) (by simp [quotedNames, hdeployed.whole])
        (by simp [quotedNames, hdeployed.size])
    rw [constructorArguments_of_ne contract htypes, List.length_map] at hsupports ⊢
    have hcopies : "allocate" ∈ Yul.Stmt.callsAll (copyInput contract values.length) := by
      simp [copyInput, Yul.Stmt.callsAll, Yul.Stmt.calls, Yul.Stmt.define, Yul.Expr.calls]
    obtain ⟨t, hcopy, hargs, hread⟩ := @execAll_copyInput host code rounds n p
      { s with
        locals := s.locals.declareAll
          [("args_size", BitVec.ofNat 256 (encoded values).length)] } contract creation _
      values.length (encoded values) hsupports
      (by
        simp only [Yul.Stmt.callsAll, Yul.Stmt.callsAll_append, List.mem_append]
        exact .inr (.inl hcopies))
      hdeployed (by rw [get?_declareAll_singleton, if_pos rfl]) (by omega) hfree hroom
    have hp : (BitVec.ofNat 256 p).toNat = p := Word.toNat_ofNat (by omega)
    obtain ⟨locals, hdecode, hvars, -⟩ := @execAll_decodeMemory host code rounds n t values
      (argNames values.length) "args" (BitVec.ofNat 256 p) (nodup_argNames _) (length_argNames _)
      (fun h => ne_of_underscore (underscore_of_mem_argNames h) (by decide) rfl) hargs
      (hsupports.mono fun name hname => by
        simp only [Yul.Stmt.callsAll, Yul.Stmt.callsAll_append, List.mem_append]
        exact .inr (.inr hname)) hfits (by rwa [hp]) (by rwa [hp])
    refine ⟨{ t with locals }, ?_, evalArgs_named (by simp [length_argNames]) hvars⟩
    rw [execAll_of_next (exec_define_of_ok hwhole), execAll_append hcopy, hdecode]

end Construction

/-! ## Arrival -/

/-- **The function behind a case gives some results** on words: it is in the code, a call that must
come without money does, and there is room to write the results. -/
structure Ready (host : Host) (code : List Yul.Function) (rounds : Nat) (r : Route)
    (words results : List Word) (s : State) : Prop where
  unpaid : r.guarded → host.callvalue = 0
  outside : r.function ∉ operationNames
  count : results.length = r.outputs.length
  runs : ∃ f t p, function? code r.function = some f ∧
    runFunction host code (rounds + 1) f words s = .ok results t ∧
    t.memory.read 64 32 = Word.bytes (BitVec.ofNat 256 p) ∧ p + 96 * results.length < 2 ^ 256

/-- **Values arrive** where code writes them and other code reads them. -/
structure Arrive (values : List (Ty × Word)) : Prop where
  /-- The words of variables are written: their encoding stands from the place where it starts to
  where the variable for its end says, and nothing in front is touched. -/
  written : ∀ host code rounds n s stop e start names, 32 < rounds →
    names.length = values.length → stop ∉ names →
    Supports code (Yul.Stmt.callsAll (encode stop e (typedVars (values.map Prod.fst) names))) →
    Steady (apply host code (rounds + 2)) stop s e start →
    (∀ pair ∈ names.zip (values.map Prod.snd), s.locals.get? pair.1 = some pair.2) →
    start.toNat + 96 * values.length < 2 ^ 256 →
    ∃ memory locals finish, execAll (apply host code (rounds + 2)) n
        (encode stop e (typedVars (values.map Prod.fst) names)) s
          = .ok .next { s with memory, locals } ∧
      locals.get? stop = some finish ∧ start.toNat ≤ finish.toNat ∧
      memory.read start.toNat (finish.toNat - start.toNat) = encoded values ∧
      ∀ i, i < start.toNat → memory i = s.memory i
  /-- Behind a selector each value is read from the arguments of a call. -/
  fromCalldata : ∀ host code rounds s selector rest, selector.length = 4 →
    host.calldata = selector ++ encoded values ++ rest → host.calldata.length < 2 ^ 256 →
    ∀ i (h : i < values.length), Supports code (decodeCalldata values[i].1 (4 + 32 * i)).calls →
      eval (apply host code (rounds + 1)) (decodeCalldata values[i].1 (4 + 32 * i)) s
        = .ok [values[i].2] s
  /-- Each value is read from where the encoding stands in memory. -/
  fromMemory : ∀ host code rounds s e start, (∀ name, e ≠ .quoted name) →
    eval (apply host code (rounds + 1)) e s = .ok [start] s →
    s.memory.read start.toNat (encoded values).length = encoded values →
    start.toNat + (encoded values).length < 2 ^ 256 →
    ∀ i (h : i < values.length), Supports code (decodeMemory values[i].1 e (head e i)).calls →
      eval (apply host code (rounds + 1)) (decodeMemory values[i].1 e (head e i)) s
        = .ok [values[i].2] s
  /-- No part of the encoding overlaps another one or reaches beyond the end, and the word of a text
  is the distance of its part. -/
  apart : (parts values).Pairwise (fun part other => part.1 + part.2 ≤ other.1) ∧
    (∀ part ∈ parts values, part.1 + part.2 ≤ (encoded values).length) ∧
    ∀ i (h : i < values.length), isDynamic values[i].1 →
      ∃ place, (place, values[i].2.textSize) ∈ parts values ∧
        ∃ front back, encoded values = front ++ Word.bytes (BitVec.ofNat 256 place) ++ back ∧
          front.length = 32 * i
  /-- A case of a dispatcher calls its function on the words, and returns the encoding of what the
  function gives. -/
  dispatched : ∀ host code rounds n r number s selector rest results, 32 < rounds →
    r.inputs = values.map Prod.fst → selector.length = 4 →
    host.calldata = selector ++ encoded values ++ rest → host.calldata.length < 2 ^ 256 →
    Supports code (Yul.Stmt.callsAll (r.case number).body) →
    Ready host code rounds r (values.map Prod.snd) results s →
    ∃ u, execAll (apply host code (rounds + 2)) n (r.case number).body s
      = .error (.returned (encoded (r.outputs.zip results))) u
  /-- A call hands the words over, and gives what the case of the method returns. -/
  called : ∀ host code rounds contract m number target p s results, 32 < rounds →
    m.params.map Typed.type = values.map Prod.fst → m.returns.isVoid ∨ m.returns.isWord →
    results.length = (Route.ofMethod m).outputs.length →
    (∀ v ∈ (Route.ofMethod m).outputs.zip results, Fits v.1 v.2) →
    Supports code (callDefinition contract m number).calls →
    s.memory.read 64 32 = Word.bytes (BitVec.ofNat 256 p) →
    p + 4 + 96 * (values.length + results.length) < 2 ^ 256 →
    Answered (apply host code (rounds + 2)) target
      (selectorData (Abi.methodSignature m) ++ encoded values)
      (encoded ((Route.ofMethod m).outputs.zip results)) →
    ∃ t, runFunction host code (rounds + 2) (callDefinition contract m number)
      (target :: values.map Prod.snd) s = .ok results t
  /-- A deployment hands the words over behind the code of the contract. -/
  deployed : ∀ host code rounds c number p s creation address, 32 < rounds →
    c.constructorParams.map Typed.type = values.map Prod.fst →
    Supports code (deployDefinition c number).calls →
    s.memory.read 64 32 = Word.bytes (BitVec.ofNat 256 p) →
    p + creation.length + 96 * values.length < 2 ^ 256 → address ≠ 0 →
    Created (apply host code (rounds + 2)) c.name creation (encoded values) address →
    ∃ t, runFunction host code (rounds + 2) (deployDefinition c number) (values.map Prod.snd) s
      = .ok [address] t
  /-- The code that creates a contract applies the constructor to the words. -/
  constructed : ∀ host code rounds n contract p s creation,
    Supports code
      (Yul.Stmt.callsAll (Context.constructorArguments contract (values.map Prod.fst))) →
    s.memory.read 64 32 = Word.bytes (BitVec.ofNat 256 p) →
    p + (encoded values).length < 2 ^ 256 →
    creation.length + (encoded values).length < 2 ^ 256 →
    Deployed (apply host code (rounds + 1)) contract creation (encoded values) →
    ∃ t, execAll (apply host code (rounds + 1)) n
        (Context.constructorArguments contract (values.map Prod.fst)) s = .ok .next t ∧
      evalArgs (apply host code (rounds + 1)) ((argNames values.length).map .var) t
        = .ok (values.map Prod.snd) t

section Arrival

variable {values : List (Ty × Word)}

/-- The values in front of one, and behind it. -/
theorem exists_split {i : Nat} (h : i < values.length) :
    ∃ front back, values = front ++ (values[i].1, values[i].2) :: back ∧ front.length = i := by
  refine ⟨values.take i, values.drop (i + 1), ?_, by simp [Nat.le_of_lt h]⟩
  rw [← List.drop_eq_getElem_cons h, List.take_append_drop]

/-- The word of a text is the distance of its part. -/
theorem text_apart {i : Nat} (h : i < values.length) (htype : isDynamic values[i].1) :
    ∃ place, (place, values[i].2.textSize) ∈ parts values ∧
      ∃ front back, encoded values = front ++ Word.bytes (BitVec.ofNat 256 place) ++ back ∧
        front.length = 32 * i := by
  obtain ⟨front, back, hvalues, hfront⟩ := exists_split h
  refine ⟨textPlace values.length front, List.mem_append_right _ ?_, ?_⟩
  · have hmem := @mem_textParts values[i].2 front back values[i].1 htype (32 * values.length)
    rwa [← hvalues] at hmem
  · obtain ⟨rest, himage⟩ := encoded_eq_head values[i].1 values[i].2 front back
    rw [if_pos htype, ← hvalues] at himage
    exact ⟨_, rest, himage, by rw [length_encodedHeads, hfront]⟩

/-- The results of a call are none, or one of the type that is returned. -/
theorem results_cases {type : Ty} {results : List Word} (h : type.isVoid ∨ type.isWord)
    (hcount : results.length = (resultTypes type).length) :
    type.isVoid ∧ results = [] ∨ type.isWord ∧ resultTypes type = [type] ∧ ∃ w, results = [w] := by
  rcases h with h | h
  · have htypes : resultTypes type = [] := by
      cases type <;> simp [Ty.isVoid] at h <;> rfl
    rw [htypes] at hcount
    exact .inl ⟨h, List.length_eq_zero_iff.1 hcount⟩
  · have htypes : resultTypes type = [type] := by
      cases type <;> simp [Ty.isWord] at h <;> rfl
    rw [htypes] at hcount
    exact .inr ⟨h, htypes, List.length_eq_one_iff.1 hcount⟩

/-- **Values arrive as they were**: whatever their types, the words that fit them are read back
where they were written, and go unchanged into the functions, constructors and calls they are
for. -/
theorem values_arrive (hfits : ∀ v ∈ values, Fits v.1 v.2) : Arrive values where
  written host code rounds n s stop e start names hrounds hcount hstop hsupports hstart hvars
      hroom := by
    have htexts := length_encodedTexts_le values
    have hlength := length_encoded values
    obtain ⟨memory, locals, hexec, -, hend, hread, hkept⟩ := @execAll_encode_named host code rounds
      n s values names stop e start hrounds hcount hsupports hstart hstop hvars hroom
    -- The end of the encoding does not wrap around, by the room that is assumed.
    have hfinish : (start + BitVec.ofNat 256 (encoded values).length).toNat
        = start.toNat + (encoded values).length := by
      rw [BitVec.toNat_add, BitVec.toNat_ofNat]
      omega
    refine ⟨memory, locals, _, hexec, hend, by omega, ?_, hkept⟩
    rw [hfinish, Nat.add_sub_cancel_left, hread]
  fromCalldata host code rounds s selector rest hselector hcalldata hsize i hi hsupports := by
    obtain ⟨front, back, hvalues, rfl⟩ := exists_split hi
    have hshows := shows_calldata hcalldata hselector hsize
    have hfit := hfits _ (List.getElem_mem hi)
    -- The element is named first: the list it is taken from is about to be split around it.
    generalize values[front.length] = v at hvalues hsupports hfit ⊢
    subst hvalues
    exact eval_decodeCalldata hsupports hfit hshows
  fromMemory host code rounds s e start hunquoted hstart hread hsize i hi hsupports := by
    obtain ⟨front, back, hvalues, rfl⟩ := exists_split hi
    have hshows := shows_memory hread hsize
    have hfit := hfits _ (List.getElem_mem hi)
    generalize values[front.length] = v at hvalues hsupports hfit ⊢
    subst hvalues
    exact eval_decodeMemory hsupports hfit hshows hunquoted (head_ne_quoted hunquoted _) hstart
      (eval_head hunquoted hstart _)
  apart := ⟨parts_pairwise values, fun _ => le_length_of_mem_parts, fun _ => text_apart⟩
  dispatched host code rounds n r number s selector rest results hrounds hinputs hselector hcalldata
      hsize hsupports hready := by
    obtain ⟨f, t, p, hfunction, hrun, hfree, hroom⟩ := hready.runs
    exact execAll_case hrounds hinputs hsupports hready.unpaid hfits hcalldata hselector hsize
      hready.outside hfunction hrun hready.count hfree hroom
  called host code rounds contract m number target p s results hrounds htypes hreturns hcount
      hresults hsupports hfree hroom hanswered := by
    obtain ⟨hnone, hone⟩ := runFunction_callDefinition hrounds htypes hsupports hfree (by omega)
      hanswered
    rcases results_cases hreturns hcount with ⟨hvoid, rfl⟩ | ⟨hword, htypes, w, rfl⟩
    · exact hnone hvoid
    · have hanswer : (Route.ofMethod m).outputs.zip [w] = [(m.returns, w)] := by
        rw [Route.ofMethod, htypes]
        rfl
      rw [hanswer] at hresults hone
      refine hone w [] hword (hresults _ List.mem_cons_self) (List.append_nil _).symm ?_
      have htexts := length_encodedTexts_le [(m.returns, w)]
      rw [length_encoded]
      simp only [List.length_singleton] at htexts hroom ⊢
      omega
  deployed host code rounds c number p s creation address hrounds htypes hsupports hfree hroom
      haddress hcreated :=
    runFunction_deployDefinition hrounds htypes hsupports hfree hroom hcreated haddress
  constructed host code rounds n contract p s creation hsupports hfree hroom hsize hdeployed :=
    execAll_constructorArguments hsupports hfits hdeployed hsize hfree hroom

/-- What a host does that answers one input of one address. -/
def answering (target : Word) (input answer : List UInt8) :
    List (String × (List Word → Action (List Word))) :=
  [("gas", fun _ => pure [30000]),
    ("call", fun
      | [_, address, _, place, count, _, _] => do
        let s ← state
        pure [Word.truth (address = target ∧ s.memory.read place.toNat count.toNat = input)]
      | _ => stop .stuck),
    ("returndatasize", fun _ => pure [BitVec.ofNat 256 answer.length]),
    ("returndatacopy", fun
      | [place, first, count] => do
        let bytes := (answer.drop first.toNat).take count.toNat
        change fun s => { s with memory := s.memory.write place.toNat bytes }
        pure []
      | _ => stop .stuck)]

/-- A host that gives an input to the code it runs, and answers it for one address. -/
def peerHost (target : Word) (input answer : List UInt8) : Host where
  keccak _ := 0
  calldata := input
  callvalue := 0
  immutable _ := 0
  other name := ((answering target input answer).lookup name).map fun f _ words => f words

theorem apply_peerHost {target : Word} {input answer : List UInt8} {name : String}
    {f : List Word → Action (List Word)} (hname : name ∉ operationNames)
    (hcode : function? code name = none)
    (hf : (answering target input answer).lookup name = some f) (words : List Word) :
    apply (peerHost target input answer) code rounds [] name words = f words := by
  unfold apply
  rw [builtin_eq_none hname, hcode, peerHost]
  simp only [hf, Option.map_some]

theorem answered_peerHost (target : Word) (input answer : List UInt8)
    (hcode : ∀ name ∈ ["gas", "call", "returndatasize", "returndatacopy"],
      function? code name = none) (hsize : answer.length < 2 ^ 256) :
    Answered (apply (peerHost target input answer) code rounds) target input answer where
  gas s := by
    rw [apply_peerHost (by decide) (hcode _ (by simp)) rfl]
    exact ⟨30000, rfl⟩
  call gas place count s hinput := by
    rw [apply_peerHost (by decide) (hcode _ (by simp)) rfl]
    exact ⟨s, by simp [hinput, Word.truth], rfl, rfl⟩
  size s := by
    rw [apply_peerHost (by decide) (hcode _ (by simp)) rfl]
    rfl
  copy place s := by
    rw [apply_peerHost (by decide) (hcode _ (by simp)) rfl]
    have hcount : (BitVec.ofNat 256 answer.length).toNat = answer.length :=
      Word.toNat_ofNat (by omega)
    simp only [hcount, bind_apply, change_apply, andThen_ok, pure_apply]
    simp

/-- The text `hi`. -/
def hi : Word :=
  Word.ofBytes ([0x68, 0x69] ++ List.replicate 30 0)

/-- A number, a text and a truth value. -/
def greeting : List (Ty × Word) :=
  [(.number, 7), (.text, hi), (.boolean, 1)]

/-- A method that takes such values and returns a text. -/
def greet : Routine where
  name := "greet"
  returns := .text
  params := [⟨"times", .number⟩, ⟨"words", .text⟩, ⟨"loud", .boolean⟩]

/-- A function for the method that returns the text it is given. -/
def greetFunction : Yul.Function where
  name := methodFunction "greet"
  params := ["times", "words", "loud"]
  results := ["ret"]
  body := [.assign "ret" (.var "words")]

/-- A state in which memory is free from 128 on. -/
def freeState : State where
  memory := Memory.write (fun _ => 0) 64 (Word.bytes (BitVec.ofNat 256 128))
  storage _ := 0

/-- **A greeting arrives**: the case of the method returns the encoding of the text, and a call that
is answered with it gives the text. -/
theorem values_arrive_greeting :
    (∀ v ∈ greeting, Fits v.1 v.2) ∧
      (∃ u, execAll (apply (peerHost 1 (selectorData (Abi.methodSignature greet)
          ++ encoded greeting) []) (shared ++ [greetFunction]) 35) 0
          ((Route.ofMethod greet).case 1).body freeState
        = .error (.returned (encoded [(.text, hi)])) u) ∧
      ∃ t, runFunction (peerHost 1 (selectorData (Abi.methodSignature greet) ++ encoded greeting)
          (encoded [(.text, hi)])) shared 35 (callDefinition "Greeter" greet 1)
          (1 :: greeting.map Prod.snd) freeState = .ok [hi] t := by
  have htext : Fits .text hi := by
    unfold Fits Word.IsText
    decide +kernel
  have hfits : ∀ v ∈ greeting, Fits v.1 v.2 := by
    simpa [greeting, Fits] using htext
  have hfree : freeState.memory.read 64 32 = Word.bytes (BitVec.ofNat 256 128) :=
    Memory.read_write_self _ _ _
  have hlength : (encoded greeting).length = 160 := by
    decide +kernel
  have hanswer : (encoded [(.text, hi)]).length = 96 := by
    decide +kernel
  refine ⟨hfits, ?_, ?_⟩
  · refine (values_arrive hfits).dispatched _ _ _ _ (Route.ofMethod greet) _ _
      (selectorData (Abi.methodSignature greet)) [] [hi] (by decide) rfl (length_selectorData _)
      (List.append_nil _).symm (by simp [peerHost, hlength]) ?_ ?_
    · exact ⟨by decide, fun f hf _ => List.mem_append_left _ hf,
        fun _ _ f hf _ => List.mem_append_left _ hf⟩
    · refine ⟨fun _ => rfl, by decide, rfl, greetFunction, freeState, 128, rfl, ?_, hfree,
        by decide⟩
      simp [runFunction, invoke, greetFunction, greeting, Locals.get?, Table.get?_cons, Locals.set,
        Table.set]
  · refine (values_arrive hfits).called _ _ _ "Greeter" greet 1 1 128 freeState [hi] (by decide) rfl
      (.inr rfl) rfl (by simpa [Route.ofMethod, greet, resultTypes] using htext) ?_ hfree
      (by decide) (answered_peerHost _ _ _ (by decide) (by rw [hanswer]; decide))
    exact ⟨by decide, fun f hf _ => hf, fun _ _ f hf _ => hf⟩

end Arrival

end Machine

end Covenant
