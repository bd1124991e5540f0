import Covenant.Proofs.Storage.Entries
import Covenant.Proofs.Storage.Slots

/-!
# What the functions of a variable do

Each generated function of a variable, run on the machine: which slots it reads and writes, what it
gives, and where it is refused.
-/

namespace Covenant

namespace Storage

open Machine

/-! ## Refusals -/

/-- The word whose first four bytes mark a code. -/
def panicTag : Word := 0x4e487b71 <<< 224

/-- What is returned when code reverts with a code. -/
def panicData (code : Word) : List UInt8 :=
  panicTag.bytes.take 4 ++ code.bytes

/-- The state in which code has reverted with a code. -/
def panicked (code : Word) (s : State) : State :=
  { s with
    memory := (s.memory.write 0 panicTag.bytes).write 4 code.bytes
    locals := { inner := [("code", code)] } }

section Functions

variable (host : Host) (code : List Yul.Function) (rounds : Nat)

/-- **Reverting with a code** only changes memory. -/
theorem runFunction_panicError (why : Word) (s : State) :
    runFunction host code rounds Emit.panicError [why] s
      = .error (.reverted (panicData why)) (panicked why s) := by
  have htag : Word.ofNumeral "0x4e487b71" <<< 224 = panicTag := by
    decide
  simp [runFunction, invoke, Emit.panicError, htag, Locals.get?, Table.get?_cons,
    Memory.read_tagged_word, panicData, panicked]

variable {code}

theorem ofNumeral_indexCode : Word.ofNumeral "0x32" = 0x32 := by
  decide

theorem apply_panicError (hpanic : function? code "panic_error" = some Emit.panicError)
    (names : List String) (words : List Word) :
    apply host code (rounds + 1) names "panic_error" words
      = runFunction host code rounds Emit.panicError words :=
  apply_of_function (by simp [operationNames]) hpanic

/-! ## Arrays -/

/-- The length of an array is read. -/
theorem runFunction_arrayLength (name : String) (slot : Word) (s : State) :
    runFunction host code rounds (arrayLength name slot) [] s
      = .ok [s.storage slot] { s with trace := s.trace ++ [.slot slot] } := by
  simp [runFunction, invoke, arrayLength, Locals.get?, Locals.set, Table.get?_cons, Table.set]

/-- **An element below the length is read.** -/
theorem runFunction_arrayGet_of_lt {name : String} {slot index : Word} {s : State}
    (h : index < s.storage slot) :
    runFunction host code rounds (arrayGet name slot) [index] s
      = .ok [s.storage (Location.elements slot + index)]
        { s with
          trace := s.trace ++ [.slot slot, .slot (Location.elements slot + index)] } := by
  simp [runFunction, invoke, arrayGet, beyond, Locals.get?, Locals.set, Table.get?_cons, Table.set,
    Word.truth, h]

/-- **From the length on, reading is refused.** -/
theorem runFunction_arrayGet_of_le {name : String} {slot index : Word} {s : State}
    (hpanic : function? code "panic_error" = some Emit.panicError)
    (h : ¬ index < s.storage slot) :
    runFunction host code (rounds + 1) (arrayGet name slot) [index] s
      = .error (.reverted (panicData 0x32))
        (panicked 0x32 { s with trace := s.trace ++ [.slot slot] }) := by
  rw [runFunction]
  simp [invoke, arrayGet, beyond, Locals.get?, Table.get?_cons, Word.truth, h, Emit.indexCode,
    ofNumeral_indexCode, apply_panicError host rounds hpanic, runFunction_panicError, panicked]

/-- **Beyond the largest index, writing is refused.** -/
theorem runFunction_arraySet_of_gt {name : String} {slot index value : Word} {s : State}
    (hpanic : function? code "panic_error" = some Emit.panicError)
    (h : maxArrayIndex < index) :
    runFunction host code (rounds + 1) (arraySet name slot) [index, value] s
      = .error (.reverted (panicData 0x32)) (panicked 0x32 s) := by
  rw [runFunction]
  simp [invoke, arraySet, Locals.get?, Table.get?_cons, Word.truth, h, Emit.indexCode,
    ofNumeral_indexCode, apply_panicError host rounds hpanic, runFunction_panicError, panicked]

/-- **An element below the length is written.** -/
theorem runFunction_arraySet_of_lt {name : String} {slot index value : Word} {s : State}
    (hmax : ¬ maxArrayIndex < index) (h : index < s.storage slot) :
    runFunction host code rounds (arraySet name slot) [index, value] s
      = .ok []
        { s with
          storage := fun a =>
            if a = Location.elements slot + index then value else s.storage a
          trace := s.trace ++ [.slot slot, .slot (Location.elements slot + index)] } := by
  simp [runFunction, invoke, arraySet, beyond, Locals.get?, Table.get?_cons, Word.truth, h, hmax]

/-- **From the length on, writing makes the array longer.** -/
theorem runFunction_arraySet_of_le {name : String} {slot index value : Word} {s : State}
    (hmax : ¬ maxArrayIndex < index) (h : ¬ index < s.storage slot) :
    runFunction host code rounds (arraySet name slot) [index, value] s
      = .ok []
        { s with
          storage := fun a =>
            if a = Location.elements slot + index then value
            else if a = slot then index + 1 else s.storage a
          trace :=
            s.trace ++ [.slot slot, .slot slot, .slot (Location.elements slot + index)] } := by
  simp [runFunction, invoke, arraySet, beyond, Locals.get?, Table.get?_cons, Word.truth, h, hmax,
    Locals.enter, Locals.leave]

/-! ## Scalars -/

theorem runFunction_scalarGet (name : String) (slot : Word) (s : State) :
    runFunction host code rounds
        { name, results := ["value"], body := [.assign "value" (.sload (decimal slot))] } [] s
      = .ok [s.storage slot] { s with trace := s.trace ++ [.slot slot] } := by
  simp [runFunction, invoke, Locals.get?, Locals.set, Table.get?_cons, Table.set]

theorem runFunction_scalarSet (name : String) (slot value : Word) (s : State) :
    runFunction host code rounds
        { name, params := ["value"], body := [.sstore (decimal slot) (.var "value")] } [value] s
      = .ok []
        { s with
          storage := fun a => if a = slot then value else s.storage a
          trace := s.trace ++ [.slot slot] } := by
  simp [runFunction, invoke, Locals.get?, Table.get?_cons]

/-! ## Mappings -/

/-- Variables are evaluated to their values. -/
theorem evalArgs_vars (run : Apply) {pairs : List (String × Word)} {s : State}
    (h : ∀ p ∈ pairs, s.locals.get? p.1 = some p.2) :
    evalArgs run ((pairs.map Prod.fst).map Yul.Expr.var) s = .ok (pairs.map Prod.snd) s := by
  induction pairs with
  | nil => rfl
  | cons p pairs ih =>
    have hrest := ih fun q hq => h q (List.mem_cons_of_mem _ hq)
    have hfirst := h p List.mem_cons_self
    simp only [List.map_cons]
    rw [evalArgs_cons _ _ (by simp), bind_apply, hrest, andThen_ok]
    simp [hfirst]

theorem nodup_keyNames (arity : Nat) : (keyNames arity ++ ["value"]).Nodup := by
  refine List.nodup_append.2 ⟨?_, by simp, ?_⟩
  · rw [keyNames]
    split
    · simp
    · exact nodup_numbered _ _
  · intro name hname other hother
    rw [List.mem_singleton.1 hother]
    rw [keyNames] at hname
    split at hname
    · rw [List.mem_singleton.1 hname]
      decide
    · obtain ⟨i, -, rfl⟩ := List.mem_map.1 hname
      intro heq
      have hlist := congrArg String.toList heq
      simp at hlist

theorem entrySlot_not_mem (arity : Nat) : entrySlot arity ∉ operationNames := by
  refine not_mem_operationNames ?_
  simp [entrySlot]

/-- **The slot of an entry** is found if there are as many keys as the mapping has; else the code
makes no sense. -/
theorem eval_entrySlot {arity : Nat} (base : Word)
    (hslot : function? code (entrySlot arity) = some (entrySlotFunction arity))
    {pairs : List (String × Word)} {s : State}
    (h : ∀ p ∈ pairs, s.locals.get? p.1 = some p.2) :
    (pairs.length ≠ arity
        ∧ eval (apply host code (rounds + 1))
            (.call (entrySlot arity) (hexadecimal base :: (pairs.map Prod.fst).map .var)) s
          = .error .stuck s)
      ∨ (pairs.length = arity
        ∧ ∃ memory, eval (apply host code (rounds + 1))
            (.call (entrySlot arity) (hexadecimal base :: (pairs.map Prod.fst).map .var)) s
          = .ok [entryWord host.keccak base (pairs.map Prod.snd)]
            { s with
              memory
              trace := s.trace
                ++ (hashedInputs host.keccak base (pairs.map Prod.snd)).reverse.map .hash }
          ∧ ∀ i, 64 ≤ i → memory i = s.memory i) := by
  have hargs : evalArgs (apply host code (rounds + 1))
      (hexadecimal base :: (pairs.map Prod.fst).map .var) s
      = .ok (base :: pairs.map Prod.snd) s := by
    rw [evalArgs_cons _ _ (by simp), bind_apply, evalArgs_vars _ h, andThen_ok]
    simp
  rw [eval, bind_apply, hargs, andThen_ok, apply_of_function (entrySlot_not_mem arity) hslot]
  by_cases harity : pairs.length = arity
  · refine Or.inr ⟨harity, ?_⟩
    have hrun := runFunction_entrySlot_scratch host code rounds base (pairs.map Prod.snd) s
    rwa [List.length_map, harity] at hrun
  · refine Or.inl ⟨harity, invoke_of_ne ?_⟩
    simp [entrySlotFunction, length_numbered, harity]

/-- The expression for the slot of an entry, as the functions of a mapping have it. -/
def entryExpr (arity : Nat) (base : Word) : Yul.Expr :=
  .call (entrySlot arity) (hexadecimal base :: (keyNames arity).map .var)

/-- The same in a state where the keys and a value are all the variables there are. -/
theorem eval_entryExpr {arity : Nat} (base value : Word) {keys : List Word} {s : State}
    (hslot : function? code (entrySlot arity) = some (entrySlotFunction arity))
    (hkeys : keys.length = (keyNames arity).length)
    (hs : s.locals = { inner := (keyNames arity).zip keys ++ [("value", value)] }) :
    (keys.length ≠ arity
        ∧ eval (apply host code (rounds + 1)) (entryExpr arity base) s = .error .stuck s)
      ∨ (keys.length = arity
        ∧ ∃ memory, eval (apply host code (rounds + 1)) (entryExpr arity base) s
          = .ok [entryWord host.keccak base keys]
            { s with
              memory
              trace := s.trace ++ (hashedInputs host.keccak base keys).reverse.map .hash }
          ∧ ∀ i, 64 ≤ i → memory i = s.memory i) := by
  have hfound : ∀ p ∈ (keyNames arity).zip keys, s.locals.get? p.1 = some p.2 := by
    rintro ⟨name, key⟩ hp
    rw [hs]
    exact Locals.get?_zip_append hkeys.symm (nodup_keyNames arity) (List.mem_append_left _ hp)
  have hlength : ((keyNames arity).zip keys).length = keys.length := by
    rw [List.length_zip, ← hkeys, Nat.min_self]
  have hcases := eval_entrySlot host rounds base hslot hfound
  rw [List.map_fst_zip (Nat.le_of_eq hkeys.symm), List.map_snd_zip (Nat.le_of_eq hkeys),
    hlength] at hcases
  exact hcases

/-- The function that reads an entry. -/
def mappingGet (name : String) (arity : Nat) (base : Word) : Yul.Function where
  name := name
  params := keyNames arity
  results := ["value"]
  body := [.assign "value" (.sload (entryExpr arity base))]

/-- The function that writes an entry. -/
def mappingSet (name : String) (arity : Nat) (base : Word) : Yul.Function where
  name := name
  params := keyNames arity ++ ["value"]
  body := [.sstore (entryExpr arity base) (.var "value")]

@[simp] theorem entryExpr_ne_quoted (arity : Nat) (base : Word) (name : String) :
    entryExpr arity base ≠ .quoted name := by
  simp [entryExpr]

/-- **An entry is read.** -/
theorem runFunction_mappingGet (name : String) {arity : Nat} (base : Word) {keys : List Word}
    (s : State) (hslot : function? code (entrySlot arity) = some (entrySlotFunction arity))
    (hkeys : keys.length = (keyNames arity).length) :
    (keys.length ≠ arity
        ∧ ∃ locals, runFunction host code (rounds + 1) (mappingGet name arity base) keys s
          = .error .stuck { s with locals })
      ∨ (keys.length = arity
        ∧ ∃ memory, runFunction host code (rounds + 1) (mappingGet name arity base) keys s
          = .ok [s.storage (entryWord host.keccak base keys)]
            { s with
              memory
              trace := s.trace ++ (hashedInputs host.keccak base keys).reverse.map .hash
                ++ [.slot (entryWord host.keccak base keys)] }
          ∧ ∀ i, 64 ≤ i → memory i = s.memory i) := by
  -- what the body begins with; the names of the keys are all different
  obtain ⟨start, hstart⟩ : ∃ start : Locals Word,
      start = { inner := (keyNames arity).zip keys ++ [("value", 0)] } := ⟨_, rfl⟩
  have hvalue : start.get? "value" = some 0 := by
    rw [hstart]
    exact Locals.get?_zip_append hkeys.symm (nodup_keyNames arity) (by simp)
  rw [runFunction]
  rcases eval_entryExpr host rounds (s := { s with locals := start }) base 0 hslot hkeys hstart with
    ⟨harity, hstuck⟩ | ⟨harity, memory, hfind, hmemory⟩
  · have hbody : execAll (apply host code (rounds + 1)) (rounds + 1)
        (mappingGet name arity base).body { s with locals := start }
        = .error .stuck { s with locals := start } := by
      simp [mappingGet, hstuck]
    rw [hstart] at hbody
    exact Or.inl ⟨harity, _, invoke_of_error hkeys hbody⟩
  · have hbody : execAll (apply host code (rounds + 1)) (rounds + 1)
        (mappingGet name arity base).body { s with locals := start }
        = .ok .next
          { s with
            memory
            trace := s.trace ++ (hashedInputs host.keccak base keys).reverse.map .hash
              ++ [.slot (entryWord host.keccak base keys)]
            locals := start.set "value" (s.storage (entryWord host.keccak base keys)) } := by
      simp [mappingGet, hfind, hvalue]
    rw [hstart] at hbody
    refine Or.inr ⟨harity, memory, ?_, hmemory⟩
    rw [invoke_of_ok hkeys hbody, ← hstart]
    simp [mappingGet, Locals.get?_set_self _ hvalue]

/-- **An entry is written.** -/
theorem runFunction_mappingSet (name : String) {arity : Nat} (base value : Word) {keys : List Word}
    (s : State) (hslot : function? code (entrySlot arity) = some (entrySlotFunction arity))
    (hkeys : keys.length = (keyNames arity).length) :
    (keys.length ≠ arity
        ∧ ∃ locals,
          runFunction host code (rounds + 1) (mappingSet name arity base) (keys ++ [value]) s
          = .error .stuck { s with locals })
      ∨ (keys.length = arity
        ∧ ∃ memory,
          runFunction host code (rounds + 1) (mappingSet name arity base) (keys ++ [value]) s
          = .ok []
            { s with
              memory
              storage := fun a =>
                if a = entryWord host.keccak base keys then value else s.storage a
              trace := s.trace ++ (hashedInputs host.keccak base keys).reverse.map .hash
                ++ [.slot (entryWord host.keccak base keys)] }
          ∧ ∀ i, 64 ≤ i → memory i = s.memory i) := by
  -- the locals that the body starts with, named: the value stands behind the keys
  obtain ⟨start, hstart⟩ : ∃ start : Locals Word,
      start = { inner := (keyNames arity).zip keys ++ [("value", value)] } := ⟨_, rfl⟩
  have hvalue : start.get? "value" = some value := by
    rw [hstart]
    exact Locals.get?_zip_append hkeys.symm (nodup_keyNames arity) (by simp)
  have hargs : (keys ++ [value]).length = (mappingSet name arity base).params.length := by
    simp [mappingSet, hkeys]
  have hlocals : (mappingSet name arity base).params.zip (keys ++ [value])
      ++ (mappingSet name arity base).results.map (·, (0 : Word))
      = (keyNames arity).zip keys ++ [("value", value)] := by
    simp only [mappingSet, List.map_nil, List.append_nil]
    rw [List.zip_append hkeys.symm]
    rfl
  rw [runFunction]
  rcases eval_entryExpr host rounds (s := { s with locals := start }) base value hslot hkeys hstart
    with ⟨harity, hstuck⟩ | ⟨harity, memory, hfind, hmemory⟩
  · have hbody : execAll (apply host code (rounds + 1)) (rounds + 1)
        (mappingSet name arity base).body { s with locals := start }
        = .error .stuck { s with locals := start } := by
      simp [mappingSet, hstuck, hvalue]
    rw [hstart, ← hlocals] at hbody
    exact Or.inl ⟨harity, _, invoke_of_error hargs hbody⟩
  · have hbody : execAll (apply host code (rounds + 1)) (rounds + 1)
        (mappingSet name arity base).body { s with locals := start }
        = .ok .next
          { s with
            memory
            storage := fun a =>
              if a = entryWord host.keccak base keys then value else s.storage a
            trace := s.trace ++ (hashedInputs host.keccak base keys).reverse.map .hash
              ++ [.slot (entryWord host.keccak base keys)]
            locals := start } := by
      simp [mappingSet, hfind, hvalue]
    rw [hstart, ← hlocals] at hbody
    refine Or.inr ⟨harity, memory, ?_, hmemory⟩
    rw [invoke_of_ok hargs hbody]
    rfl

end Functions

end Storage

end Covenant
