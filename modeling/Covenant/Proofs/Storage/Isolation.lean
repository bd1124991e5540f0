import Covenant.Keccak
import Covenant.Proofs.Storage.Access

/-!
# Variables do not share storage

The functions of a variable access no slots but those of the variable. Slots of scalars and arrays
are all different. Slots of entries are found by hashing, so of them it is said what it takes for
two to be the same: a collision of the hash function, or a hash that is the base word of a mapping.
-/

namespace Covenant

namespace Storage

open Machine

/-! ## The code that variables rely on -/

/-- The functions that those of the variables of a layout rely on. -/
def accessCode (layout : Layout) : List Yul.Function :=
  layout.arities.map entrySlotFunction ++ Emit.shared

theorem entrySlot_injective {m n : Nat} (h : entrySlot m = entrySlot n) : m = n :=
  Text.append_toString_injective h

theorem function?_entrySlot {layout : Layout} {arity : Nat} (h : arity ∈ layout.arities) :
    function? (accessCode layout) (entrySlot arity) = some (entrySlotFunction arity) := by
  have hfind : (layout.arities.map entrySlotFunction).find? (·.name = entrySlot arity)
      = some (entrySlotFunction arity) := by
    generalize layout.arities = arities at h
    induction arities with
    | nil => cases h
    | cons n arities ih =>
      rw [List.map_cons, List.find?_cons]
      by_cases hn : n = arity
      · simp [hn, entrySlotFunction]
      · have hname : entrySlot n ≠ entrySlot arity := fun heq => hn (entrySlot_injective heq)
        rcases List.mem_cons.1 h with rfl | h
        · exact absurd rfl hn
        · simp only [entrySlotFunction, hname, decide_false]
          exact ih h
  rw [function?, accessCode, List.find?_append, hfind, Option.some_or]

theorem function?_panicError (layout : Layout) :
    function? (accessCode layout) "panic_error" = some Emit.panicError := by
  have hnone : (layout.arities.map entrySlotFunction).find? (·.name = "panic_error") = none := by
    refine List.find?_eq_none.2 fun f hf => ?_
    obtain ⟨n, -, rfl⟩ := List.mem_map.1 hf
    have hname : entrySlot n ≠ "panic_error" := by
      intro heq
      have hlist := congrArg String.toList heq
      simp [entrySlot] at hlist
    simp [entrySlotFunction, hname]
  rw [function?, accessCode, List.find?_append, hnone, Option.none_or]
  rfl

theorem mem_arities {layout : Layout} {cell : Cell} {arity bucket : Nat}
    (hcell : cell ∈ layout.cells) (h : cell.location = .mapping arity bucket) : arity ∈ layout.arities := by
  refine List.mem_eraseDups.2 (List.mem_filterMap.2 ⟨cell, hcell, ?_⟩)
  rw [h]
  rfl

/-! ## What a run accesses -/

/-- The slots in a trace. -/
def slotsOf (trace : List Access) : List Word :=
  trace.filterMap fun
    | .slot slot => some slot
    | .hash _ => none

@[simp] theorem slotsOf_append (trace more : List Access) :
    slotsOf (trace ++ more) = slotsOf trace ++ slotsOf more :=
  List.filterMap_append

@[simp] theorem slotsOf_hash (inputs : List (List UInt8)) :
    slotsOf (inputs.map Access.hash) = [] := by
  induction inputs with
  | nil => rfl
  | cons input inputs ih => exact ih

/-- The state in which a run ends or stops. -/
def finalState {α : Type} : EStateM.Result Stop State α → State
  | .ok _ s => s
  | .error _ s => s

/-- **The slots that a run accesses.** -/
def accessedSlots {α : Type} (x : Action α) (s : State) : List Word :=
  slotsOf (finalState (x { s with trace := [] })).trace

/-- **The slots of a location**: those it takes, and those of the entries of a mapping. -/
inductive Location.Owns (keccak : List UInt8 → Word) : Location → Word → Prop where
  | taken {location : Location} {a : Word} (h : location.Takes a) : Owns keccak location a
  | entry (arity bucket : Nat) (keys : List Word) (h : keys.length = arity) :
    Owns keccak (.mapping arity bucket) (entryWord keccak (Location.base arity bucket) keys)

section Accessed

variable {host : Host} {code : List Yul.Function} {rounds : Nat} {args : List Word} {s : State}
  {creation : Bool} {cell : Cell} {setting : Yul.Setting} {f : Yul.Function}

theorem accessedSlots_of_ne (h : args.length ≠ f.params.length) :
    accessedSlots (runFunction host code rounds f args) s = [] := by
  rw [accessedSlots, runFunction, invoke_of_ne h]
  rfl

/-- **The functions of a scalar** access its slot. -/
theorem accessedSlots_scalar {slot a : Word} (hlocation : cell.location = .scalar slot)
    (hf : .function setting f ∈ accessors creation cell)
    (ha : a ∈ accessedSlots (runFunction host code rounds f args) s) : a = slot := by
  by_cases hargs : args.length = f.params.length
  · simp only [accessors, hlocation, reader, writer, List.mem_cons, List.not_mem_nil, or_false,
      Yul.Item.function.injEq] at hf
    rcases hf with ⟨-, rfl⟩ | ⟨-, rfl⟩
    · obtain rfl := List.length_eq_zero_iff.1 hargs
      rw [accessedSlots, runFunction_scalarGet] at ha
      exact List.mem_singleton.1 ha
    · obtain ⟨value, rfl⟩ := List.length_eq_one_iff.1 hargs
      simp only [List.nil_append] at ha
      rw [accessedSlots, runFunction_scalarSet] at ha
      exact List.mem_singleton.1 ha
  · rw [accessedSlots_of_ne hargs] at ha
    cases ha

/-- **The functions of an array** access the slot of its length, and those of elements up to the
largest index if the length is no larger than it may be. -/
theorem accessedSlots_array {slot a : Word} (hlocation : cell.location = .array slot)
    (hpanic : function? code "panic_error" = some Emit.panicError)
    (hlength : s.storage slot ≤ maxArrayIndex + 1)
    (hf : .function setting f ∈ accessors creation cell)
    (ha : a ∈ accessedSlots (runFunction host code (rounds + 1) f args) s) :
    (Location.array slot).Takes a := by
  by_cases hargs : args.length = f.params.length
  · simp only [accessors, hlocation, List.mem_cons, List.not_mem_nil, or_false,
      Yul.Item.function.injEq] at hf
    rcases hf with ⟨-, rfl⟩ | ⟨-, rfl⟩ | ⟨-, rfl⟩
    · -- the length
      obtain rfl := List.length_eq_zero_iff.1 hargs
      rw [accessedSlots, runFunction_arrayLength] at ha
      rw [List.mem_singleton.1 ha]
      exact .length slot
    · -- reading an element
      obtain ⟨index, rfl⟩ := List.length_eq_one_iff.1 hargs
      by_cases hindex : index < s.storage slot
      · rw [accessedSlots,
          runFunction_arrayGet_of_lt _ _ (s := { s with trace := [] }) hindex] at ha
        -- an index below a length that is allowed is an index that is allowed
        have hmax : index ≤ maxArrayIndex := by
          have hone : (maxArrayIndex + 1).toNat = maxArrayIndex.toNat + 1 := rfl
          rw [BitVec.le_def, hone] at hlength
          rw [BitVec.lt_def] at hindex
          rw [BitVec.le_def]
          omega
        rcases List.mem_cons.1 ha with rfl | ha
        · exact .length a
        · rw [List.mem_singleton.1 ha]
          exact .element slot index hmax
      · rw [accessedSlots,
          runFunction_arrayGet_of_le _ _ (s := { s with trace := [] }) hpanic hindex] at ha
        rw [List.mem_singleton.1 ha]
        exact .length slot
    · -- writing an element
      obtain ⟨index, rest, rfl⟩ := List.exists_cons_of_length_eq_add_one hargs
      obtain ⟨value, rfl⟩ := List.length_eq_one_iff.1 (Nat.succ.inj hargs)
      by_cases hmax : maxArrayIndex < index
      · rw [accessedSlots,
          runFunction_arraySet_of_gt _ _ (s := { s with trace := [] }) hpanic hmax] at ha
        cases ha
      · have hle : index ≤ maxArrayIndex := BitVec.not_lt.1 hmax
        -- the length is read in both cases, and also written if the array grows
        have hmem : a = slot ∨ a = Location.elements slot + index := by
          by_cases hindex : index < s.storage slot
          · rw [accessedSlots,
              runFunction_arraySet_of_lt _ _ (s := { s with trace := [] }) hmax hindex] at ha
            simpa [slotsOf, finalState] using ha
          · rw [accessedSlots,
              runFunction_arraySet_of_le _ _ (s := { s with trace := [] }) hmax hindex] at ha
            simpa [slotsOf, finalState] using ha
        rcases hmem with rfl | rfl
        · exact .length a
        · exact .element slot index hle
  · rw [accessedSlots_of_ne hargs] at ha
    cases ha

/-- **The functions of a mapping** access the slot of an entry. -/
theorem accessedSlots_mapping {arity bucket : Nat} {a : Word}
    (hlocation : cell.location = .mapping arity bucket)
    (hslot : function? code (entrySlot arity) = some (entrySlotFunction arity))
    (hf : .function setting f ∈ accessors creation cell)
    (ha : a ∈ accessedSlots (runFunction host code (rounds + 1) f args) s) :
    ∃ keys, keys.length = arity ∧ a = entryWord host.keccak (Location.base arity bucket) keys := by
  by_cases hargs : args.length = f.params.length
  · simp only [accessors, hlocation, List.mem_cons, List.not_mem_nil, or_false, reader, writer,
      Yul.Item.function.injEq] at hf
    rcases hf with ⟨-, rfl⟩ | ⟨-, rfl⟩
    · -- reading an entry
      change a ∈ accessedSlots (runFunction host code (rounds + 1)
        (mappingGet (getter cell.name) arity (Location.base arity bucket)) args) s at ha
      rw [accessedSlots] at ha
      rcases runFunction_mappingGet host rounds (getter cell.name) (Location.base arity bucket)
        { s with trace := [] } hslot hargs with
        ⟨-, locals, hstuck⟩ | ⟨harity, memory, hrun, -⟩
      · rw [hstuck] at ha
        cases ha
      · rw [hrun] at ha
        exact ⟨args, harity, by simpa [slotsOf_append, finalState, slotsOf] using ha⟩
    · -- the value to be written comes behind the keys
      obtain ⟨keys, value, rfl⟩ : ∃ keys value, args = keys ++ [value] := by
        have hne : args ≠ [] := by
          rintro rfl
          simp at hargs
        exact ⟨_, _, (List.dropLast_concat_getLast hne).symm⟩
      change a ∈ accessedSlots (runFunction host code (rounds + 1)
        (mappingSet (setter cell.name) arity (Location.base arity bucket)) (keys ++ [value])) s
        at ha
      have hkeys : keys.length = (keyNames arity).length := by
        simpa using hargs
      rw [accessedSlots] at ha
      rcases runFunction_mappingSet host rounds (setter cell.name) (Location.base arity bucket)
        value { s with trace := [] } hslot hkeys with
        ⟨-, locals, hstuck⟩ | ⟨harity, memory, hrun, -⟩
      · rw [hstuck] at ha
        cases ha
      · rw [hrun] at ha
        exact ⟨keys, harity, by simpa [slotsOf_append, finalState, slotsOf] using ha⟩
  · rw [accessedSlots_of_ne hargs] at ha
    cases ha

/-- **The functions of a readonly variable** access no slot. -/
theorem accessedSlots_immutable (hlocation : cell.location.IsImmutable)
    (hf : .function setting f ∈ accessors creation cell) :
    accessedSlots (runFunction host code rounds f args) s = [] := by
  by_cases hargs : args.length = f.params.length
  · cases hcell : cell.location with
    | scalar slot => rw [hcell] at hlocation; exact hlocation.elim
    | array slot => rw [hcell] at hlocation; exact hlocation.elim
    | mapping arity bucket => rw [hcell] at hlocation; exact hlocation.elim
    -- a literal stands in the code
    | inlined source word =>
      simp only [accessors, hcell, List.mem_cons, List.not_mem_nil, or_false, reader,
        Yul.Item.function.injEq] at hf
      obtain ⟨-, rfl⟩ := hf
      obtain rfl := List.length_eq_zero_iff.1 hargs
      simp [accessedSlots, runFunction, invoke, Locals.get?, Table.get?_cons, finalState, slotsOf]
    | staged source index =>
      -- in memory while the contract is created, and in the code from then on
      cases creation with
      | true =>
        simp only [accessors, hcell, if_true, List.mem_cons, List.not_mem_nil, or_false, reader,
          writer, Yul.Item.function.injEq] at hf
        rcases hf with ⟨-, rfl⟩ | ⟨-, rfl⟩
        · obtain rfl := List.length_eq_zero_iff.1 hargs
          simp [accessedSlots, runFunction, invoke, Locals.get?, Table.get?_cons, finalState,
            slotsOf]
        · obtain ⟨value, rfl⟩ := List.length_eq_one_iff.1 hargs
          simp [accessedSlots, runFunction, invoke, Locals.get?, Table.get?_cons, finalState,
            slotsOf]
      | false =>
        simp only [accessors, hcell, Bool.false_eq_true, if_false, List.mem_cons, List.not_mem_nil,
          or_false, reader, Yul.Item.function.injEq] at hf
        obtain ⟨-, rfl⟩ := hf
        obtain rfl := List.length_eq_zero_iff.1 hargs
        simp [accessedSlots, runFunction, invoke, Locals.get?, Table.get?_cons, finalState,
          slotsOf, quotedNames]
  · exact accessedSlots_of_ne hargs

end Accessed

/-! ## Main statement -/

/-- **The hashes of some inputs clash**: two different inputs have the same hash, or a hash is the
base word of a mapping. -/
def Clash (keccak : List UInt8 → Word) (layout : Layout) (inputs : List (List UInt8)) : Prop :=
  (∃ x ∈ inputs, ∃ y ∈ inputs, x ≠ y ∧ keccak x = keccak y)
    ∨ ∃ x ∈ inputs, ∃ cell ∈ layout.cells, ∃ arity bucket,
      cell.location = .mapping arity bucket ∧ keccak x = Location.base arity bucket

/-- **The variables of a layout do not share storage**, in the code that creates the contract or in
the code that stays. -/
structure Isolated (host : Host) (creation : Bool) (layout : Layout) : Prop where
  /-- The functions of a variable access its own slots only. -/
  accessed : ∀ cell ∈ layout.cells, ∀ setting f, .function setting f ∈ accessors creation cell →
    ∀ rounds args s, (∀ slot, cell.location = .array slot → s.storage slot ≤ maxArrayIndex + 1) →
      ∀ a ∈ accessedSlots (runFunction host (accessCode layout) (rounds + 1) f args) s,
        cell.location.Owns host.keccak a
  /-- An element is written exactly up to the largest index, which keeps the length as it may be. -/
  admitted : ∀ cell ∈ layout.cells, ∀ slot, cell.location = .array slot →
    ∀ rounds index value s, s.storage slot ≤ maxArrayIndex + 1 →
      (index ≤ maxArrayIndex ↔ ∃ t, t.storage slot ≤ maxArrayIndex + 1
        ∧ runFunction host (accessCode layout) (rounds + 1) (arraySet cell.name slot)
          [index, value] s = .ok [] t)
  /-- The slots of scalars and arrays are below the cursor. -/
  below : ∀ cell ∈ layout.cells, ∀ a, cell.location.Takes a → a < layout.next
  /-- The elements of an array do not wrap. -/
  unwrapped : ∀ cell ∈ layout.cells, ∀ slot, cell.location = .array slot →
    ∀ index, index ≤ maxArrayIndex →
      (Location.elements slot + index).toNat = slot.toNat + 1 + index.toNat
  /-- Two scalars or arrays have no slot in common. -/
  apart : ∀ (i j : Nat) (p q : Cell), i ≠ j → layout.cells[i]? = some p →
    layout.cells[j]? = some q → ∀ a b, p.location.Takes a → q.location.Takes b → a ≠ b
  /-- The generated function finds the slots of entries by hashing 64 bytes for each key. -/
  entry : ∀ cell ∈ layout.cells, ∀ arity bucket, cell.location = .mapping arity bucket →
    ∀ keys, keys.length = arity →
      (∀ input ∈ hashedInputs host.keccak (Location.base arity bucket) keys, input.length = 64)
      ∧ ∀ rounds s, ∃ memory,
        runFunction host (accessCode layout) rounds (entrySlotFunction arity)
            (Location.base arity bucket :: keys) s
          = .ok [entryWord host.keccak (Location.base arity bucket) keys]
            { s with
              memory
              trace := s.trace ++ (hashedInputs host.keccak (Location.base arity bucket)
                keys).reverse.map .hash }
  /-- Entries of different mappings, or of one mapping under different keys, share a slot only if
  the hashes clash. -/
  collision : ∀ (i j : Nat) (p q : Cell), layout.cells[i]? = some p → layout.cells[j]? = some q →
    ∀ arity m arity' n, p.location = .mapping arity m → q.location = .mapping arity' n →
    ∀ keys keys', keys.length = arity → keys'.length = arity' → (i ≠ j ∨ keys ≠ keys') →
    entryWord host.keccak (Location.base arity m) keys
      = entryWord host.keccak (Location.base arity' n) keys' →
    Clash host.keccak layout (hashedInputs host.keccak (Location.base arity m) keys
      ++ hashedInputs host.keccak (Location.base arity' n) keys')

section Isolation

variable {host : Host} {creation : Bool} {layout : Layout}

/-- The functions of a variable access its own slots only. -/
theorem owns_of_accessed {cell : Cell} (hcell : cell ∈ layout.cells) {setting : Yul.Setting}
    {f : Yul.Function} (hf : .function setting f ∈ accessors creation cell) {rounds : Nat}
    {args : List Word} {s : State}
    (hlength : ∀ slot, cell.location = .array slot → s.storage slot ≤ maxArrayIndex + 1) {a : Word}
    (ha : a ∈ accessedSlots (runFunction host (accessCode layout) (rounds + 1) f args) s) :
    cell.location.Owns host.keccak a := by
  have hpanic := function?_panicError layout
  cases hlocation : cell.location with
  | scalar slot =>
    rw [accessedSlots_scalar hlocation hf ha]
    exact .taken (.scalar slot)
  | array slot => exact .taken (accessedSlots_array hlocation hpanic (hlength slot hlocation) hf ha)
  | mapping arity bucket =>
    have hslot := function?_entrySlot (mem_arities hcell hlocation)
    obtain ⟨keys, hkeys, rfl⟩ := accessedSlots_mapping hlocation hslot hf ha
    exact .entry arity bucket keys hkeys
  | inlined source word =>
    have himm : cell.location.IsImmutable := by rw [hlocation]; trivial
    rw [accessedSlots_immutable himm hf] at ha
    cases ha
  | staged source index =>
    have himm : cell.location.IsImmutable := by rw [hlocation]; trivial
    rw [accessedSlots_immutable himm hf] at ha
    cases ha

/-- An element is written exactly up to the largest index. -/
theorem arraySet_admits {name : String} {slot index value : Word} {rounds : Nat} {s : State}
    (hslot : slot.toNat + 2 ^ 128 ≤ 2 ^ 256) (hlength : s.storage slot ≤ maxArrayIndex + 1) :
    index ≤ maxArrayIndex ↔ ∃ t, t.storage slot ≤ maxArrayIndex + 1
      ∧ runFunction host (accessCode layout) (rounds + 1) (arraySet name slot) [index, value] s
        = .ok [] t := by
  constructor
  · intro hindex
    have hmax : ¬ maxArrayIndex < index := BitVec.not_lt.2 hindex
    have hother : slot ≠ Location.elements slot + index := by
      intro heq
      have := congrArg BitVec.toNat heq
      rw [toNat_element hslot hindex] at this
      omega
    by_cases hlt : index < s.storage slot
    · refine ⟨_, ?_, runFunction_arraySet_of_lt host _ hmax hlt⟩
      simpa [hother] using hlength
    · refine ⟨_, ?_, runFunction_arraySet_of_le host _ hmax hlt⟩
      -- the write made the array longer, but no longer than it may be
      have hgrown : index + 1 ≤ maxArrayIndex + 1 := by
        have hone : (1 : Word).toNat = 1 := rfl
        have hmaxNat := toNat_maxArrayIndex
        rw [BitVec.le_def] at hindex ⊢
        rw [BitVec.toNat_add, BitVec.toNat_add, hone]
        omega
      simpa [hother] using hgrown
  · rintro ⟨t, -, hrun⟩
    by_cases hmax : maxArrayIndex < index
    · rw [runFunction_arraySet_of_gt host _ (function?_panicError layout) hmax] at hrun
      cases hrun
    · exact BitVec.not_lt.1 hmax

/-- Different places of a list are in order one way or the other. -/
theorem pairwise_of_ne {α : Type} {R : α → α → Prop} {l : List α} (h : l.Pairwise R) {i j : Nat}
    {p q : α} (hij : i ≠ j) (hp : l[i]? = some p) (hq : l[j]? = some q) : R p q ∨ R q p := by
  obtain ⟨hi, rfl⟩ := List.getElem?_eq_some_iff.1 hp
  obtain ⟨hj, rfl⟩ := List.getElem?_eq_some_iff.1 hq
  rcases Nat.lt_or_gt_of_ne hij with hlt | hgt
  · exact Or.inl (List.pairwise_iff_getElem.1 h i j hi hj hlt)
  · exact Or.inr (List.pairwise_iff_getElem.1 h j i hj hi hgt)

/-- Mappings at different places have different base words, if they have as many keys. -/
theorem Planned.base_ne (hplanned : Planned layout.cells layout.next)
    (hcount : layout.cells.length < 2 ^ 128) {i j : Nat} {p q : Cell} (hij : i ≠ j)
    (hp : layout.cells[i]? = some p) (hq : layout.cells[j]? = some q) {arity m n : Nat}
    (hm : p.location = .mapping arity m) (hn : q.location = .mapping arity n) :
    Location.base arity m ≠ Location.base arity n := by
  have hle : bucketCount layout.cells arity ≤ layout.cells.length := List.countP_le_length
  have hmlt := hplanned.bucket p (List.mem_of_getElem? hp) arity m hm
  have hnlt := hplanned.bucket q (List.mem_of_getElem? hq) arity n hn
  intro hbase
  have heq : m = n := Location.base_injective (by omega) (by omega) hbase
  rcases pairwise_of_ne hplanned.numbered hij hp hq with hlt | hlt
  · have := hlt arity m n hm hn
    omega
  · have := hlt arity n m hn hm
    omega

/-- **Storage isolation.** On a contract with fewer than 2^128 variables, a layout that can be
planned has a cell for each variable and keeps the variables apart. -/
theorem plan_isolated (host : Host) (creation : Bool) (c : Contract) (layout : Layout)
    (hcount : c.stateVars.length < 2 ^ 128) (hplan : plan c = .ok layout) :
    layout.cells.map Cell.owner = c.stateVars ∧ Isolated host creation layout := by
  have hplanned := plan_planned hcount hplan
  have hcells : layout.cells.length < 2 ^ 128 := by
    rwa [← List.length_map Cell.owner, plan_owners hplan]
  have hnext : layout.next.toNat < 2 ^ 256 := layout.next.isLt
  refine ⟨plan_owners hplan, ?_, ?_, ?_, ?_, ?_, ?_, ?_⟩
  · intro cell hcell setting f hf rounds args s hlength a ha
    exact owns_of_accessed hcell hf hlength ha
  · intro cell hcell slot hslot rounds index value s hlength
    have := hplanned.array cell hcell slot hslot
    exact arraySet_admits (by omega) hlength
  · intro cell hcell a ha
    exact BitVec.lt_def.2 (hplanned.below cell hcell a ha)
  · intro cell hcell slot hslot index hindex
    have := hplanned.array cell hcell slot hslot
    exact toNat_element (by omega) hindex
  · -- slots grow with the cells, whichever of the two comes first
    intro i j p q hij hp hq a b ha hb heq
    rcases pairwise_of_ne hplanned.apart hij hp hq with hlt | hlt
    · have := hlt a b ha hb
      rw [heq] at this
      omega
    · have := hlt b a hb ha
      rw [heq] at this
      omega
  · intro cell _ arity bucket _ keys hkeys
    refine ⟨fun input hinput => length_of_mem_hashedInputs hinput, fun rounds s => ?_⟩
    rw [← hkeys]
    exact runFunction_entrySlot host _ rounds _ keys s
  · intro i j p q hp hq arity m arity' n hm hn keys keys' hkeys hkeys' hdiffer heq
    rcases entryWord_eq heq with ⟨x, hx, y, hy, hxy⟩ | ⟨x, hx, hbase⟩ | ⟨hbase, hsame⟩
    · exact Or.inl ⟨x, List.mem_append_left _ hx, y, List.mem_append_right _ hy, hxy⟩
    · rcases hbase with hbase | hbase
      · exact Or.inr ⟨x, hx, p, List.mem_of_getElem? hp, arity, m, hm, hbase⟩
      · exact Or.inr ⟨x, hx, q, List.mem_of_getElem? hq, arity', n, hn, hbase⟩
    · -- the same base word and the same keys: then it is the same mapping
      have harity : arity = arity' := by
        rw [← hkeys, ← hkeys', hsame]
      subst harity
      rcases hdiffer with hij | hkeysNe
      · exact absurd hbase (hplanned.base_ne hcells hij hp hq hm hn)
      · exact absurd hsame hkeysNe

end Isolation

/-- A host with the hash function of the chain. -/
def chainHost : Host where
  keccak input := Word.ofBytes (keccak256 input)
  calldata := []
  callvalue := 0
  immutable _ := 0
  other _ := none

/-- A contract with a scalar, an array and mappings with one and two keys. -/
def ledger : Contract where
  name := "Ledger"
  stateVars :=
    [{ name := "total", type := .number },
      { name := "entries", type := .array .number },
      { name := "balances", type := .mapping [.address none] .number },
      { name := "allowances", type := .mapping [.address none, .address none] .number },
      { name := "owner", type := .address none }]

theorem plan_isolated_ledger :
    ∃ layout, plan ledger = .ok layout ∧ layout.next = arrayStride + 2
      ∧ layout.cells.map Cell.owner = ledger.stateVars ∧ Isolated chainHost false layout :=
  ⟨_, rfl, rfl, plan_isolated chainHost false ledger _ (by decide) rfl⟩

end Storage

end Covenant
