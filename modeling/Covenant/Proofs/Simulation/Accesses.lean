import Covenant.Proofs.Code.Linking
import Covenant.Proofs.Machine.Arithmetic
import Covenant.Proofs.Simulation.Reference
import Covenant.Proofs.Storage.Access

/-!
# Variables on the machine and in the world

The machine serves a world if it answers for the environment what the world has, and finds the words
of readonly variables in the code or in memory (`Serves`, `Prepared`). Then the generated functions
of variables read what the world reads, and write what it writes.
-/

namespace Covenant

namespace Machine

/-- **The host answers an instruction** without operands with a word. -/
def Host.Answers (host : Host) (instruction : String) (w : Word) : Prop :=
  ∀ names, apply host [] 0 names instruction [] = pure [w]

/-- What is no function of the code is answered by the host. -/
theorem Host.Answers.apply_eq {host : Host} {instruction : String} {w : Word}
    (h : host.Answers instruction w) {code : List Yul.Function}
    (hcode : function? code instruction = none) (rounds : Nat) (names : List String) :
    apply host code rounds names instruction [] = pure [w] := by
  rw [← h names]
  unfold apply
  rw [hcode, function?, List.find?_nil]
  cases builtin host names instruction [] with
  | some action => rfl
  | none => cases host.other instruction <;> rfl

end Machine

namespace Simulation

open Emit Machine

variable {x : Context} {host : Host} {w : Reference.World} {code : List Yul.Function}
  {bodies : List Stmt} {p rounds : Nat} {s t : State} {name : String} {names : List String}

/-- **The machine serves a world**: it hashes alike, it answers for the environment, and its code
has the words of the readonly variables. -/
structure Serves (x : Context) (host : Host) (w : Reference.World) : Prop where
  layout : w.layout = x.layout
  keccak : w.keccak = host.keccak
  self : host.Answers "address" w.self
  environment : ∀ space member m, Environment.member? space member = some m →
    host.Answers m.builtin (w.environment space member)
  inlined : ∀ name source word, x.layout.location? name = some (.inlined source word) →
    w.readonly name = Word.ofNumeral word
  immutable : x.creation = false → ∀ name source index,
    x.layout.location? name = some (.staged source index) → w.readonly name = host.immutable name

/-- **Memory is prepared**: it tells the first free place, and while the contract is created, it
holds the words of readonly variables below that place. -/
structure Prepared (x : Context) (w : Reference.World) (p : Nat) (m : Memory) : Prop where
  low : 96 ≤ p
  high : p < 2 ^ 256
  free : m.read 64 32 = Word.bytes (BitVec.ofNat 256 p)
  staged : x.creation = true → ∀ name source index,
    x.layout.location? name = some (.staged source index) →
      Storage.stagingAddress index + 32 ≤ p ∧
        Word.ofBytes (m.read (Storage.stagingAddress index) 32) = w.readonly name

theorem Prepared.still (h : Prepared x w p s.memory) (hstill : Still p s t) :
    Prepared x w p t.memory where
  low := h.low
  high := h.high
  free := by
    have hlow := h.low
    rw [hstill.read_eq (by omega) (by omega), h.free]
  staged hcreation name source index hlocation := by
    obtain ⟨hle, hword⟩ := h.staged hcreation name source index hlocation
    have hlow : 64 ≤ Storage.stagingAddress index := by
      unfold Storage.stagingAddress Storage.stagingStart
      omega
    exact ⟨hle, by rw [hstill.read_eq hlow hle, hword]⟩

/-! ## The functions of a variable -/

/-- The functions of a variable are found where it has a location. -/
theorem function?_accessor (hlinked : Linked x bodies code) {location : Storage.Location}
    (h : x.layout.location? name = some location) (setting : Yul.Setting) (f : Yul.Function)
    (hf : ∀ cell : Storage.Cell, cell.name = name → cell.location = location →
      .function setting f ∈ Storage.accessors x.creation cell) :
    f ∈ code ∧ function? code f.name = some f := by
  obtain ⟨cell, hcell, hname, hlocation⟩ := exists_cell h
  have hmem := hlinked.accessors cell hcell setting f (hf cell hname hlocation)
  exact ⟨hmem, function?_of_mem hlinked.distinct hmem⟩

/-- A shared function that a function of the code applies is found. -/
theorem function?_shared (hlinked : Linked x bodies code) {f g : Yul.Function} (hg : g ∈ code)
    (hf : f ∈ shared) (hname : f.name ∈ g.calls) : f ∈ code ∧ function? code f.name = some f := by
  have hmem := hlinked.shared g hg f hf hname
  exact ⟨hmem, function?_of_mem hlinked.distinct hmem⟩

/-! ## Reading -/

/-- The function that reads a variable of one word. -/
def wordGetter (name : String) (value : Yul.Expr) : Yul.Function where
  name := Storage.getter name
  results := ["value"]
  body := [.assign "value" value]

/-- It gives the word that it evaluates. -/
theorem runFunction_wordGetter {value : Yul.Expr} {a : Word} {trace : List Access}
    (h : ∀ locals, eval (apply host code rounds) value { s with locals }
      = .ok [a] { s with trace, locals }) :
    runFunction host code rounds (wordGetter name value) [] s = .ok [a] { s with trace } := by
  simp [runFunction, invoke, wordGetter, h, Locals.get?, Locals.set, Table.get?_cons, Table.set]

/-- **A variable of one word is read.** -/
theorem yields_getter (hlinked : Linked x bodies code) (hserves : Serves x host w)
    (hprepared : Prepared x w p s.memory) {location : Storage.Location}
    (h : x.layout.location? name = some location) (hword : location.isWord) :
    Yields p (apply host code (rounds + 1) names (Storage.getter name) []) s
      (.ok [w.property s.storage name] : Except Execution.Panic _) := by
  -- whatever the function evaluates, it gives that word
  have hread (setting : Yul.Setting) (value : Yul.Expr) {a : Word} (trace : List Access)
      (hf : ∀ cell : Storage.Cell, cell.name = name → cell.location = location →
        .function setting (wordGetter name value) ∈ Storage.accessors x.creation cell)
      (heval : ∀ locals, eval (apply host code rounds) value { s with locals }
        = .ok [a] { s with trace, locals }) :
      Yields p (apply host code (rounds + 1) names (Storage.getter name) []) s
        (.ok [a] : Except Execution.Panic _) := by
    obtain ⟨-, hfind⟩ := function?_accessor hlinked h setting _ hf
    rw [apply_of_function (not_mem_operationNames (underscore_getter name)) hfind]
    exact ⟨_, runFunction_wordGetter heval, rfl, rfl, rfl, fun _ _ _ => rfl⟩
  rw [Reference.World.property, hserves.layout, h]
  cases location with
  | scalar slot =>
    refine hread .inline (.sload (Storage.decimal slot)) (s.trace ++ [.slot slot]) ?_ ?_
    · rintro cell rfl hcell
      simp [Storage.accessors, hcell, Storage.reader, wordGetter]
    · simp
  | inlined source word =>
    rw [hserves.inlined name source word h]
    refine hread .inline (.literal word) s.trace ?_ ?_
    · rintro cell rfl hcell
      simp [Storage.accessors, hcell, Storage.reader, wordGetter]
    · simp
  | staged source index =>
    cases hcreation : x.creation with
    | false =>
      rw [hserves.immutable hcreation name source index h]
      refine hread .inline (.call "loadimmutable" [.quoted name]) s.trace ?_ ?_
      · rintro cell rfl hcell
        simp [Storage.accessors, hcell, hcreation, Storage.reader, wordGetter]
      · simp [quotedNames]
    | true =>
      obtain ⟨hle, hstaged⟩ := hprepared.staged hcreation name source index h
      rw [← hstaged]
      refine hread .inline (.mload (.num (Storage.stagingAddress index))) s.trace ?_ ?_
      · rintro cell rfl hcell
        simp [Storage.accessors, hcell, hcreation, Storage.reader, wordGetter]
      · have hhigh := hprepared.high
        have hplace : (BitVec.ofNat 256 (Storage.stagingAddress index)).toNat
            = Storage.stagingAddress index := Word.toNat_ofNat (by omega)
        simp [hplace]
  | mapping | array => cases hword

/-- **The length of an array is read.** -/
theorem yields_lengthGetter (hlinked : Linked x bodies code) (hserves : Serves x host w)
    {slot : Word} (h : x.layout.location? name = some (.array slot)) :
    Yields p (apply host code (rounds + 1) names (Storage.lengthGetter name) []) s
      (.ok [w.length s.storage name] : Except Execution.Panic _) := by
  obtain ⟨-, hfind⟩ := function?_accessor hlinked h .inline (Storage.arrayLength name slot)
    (by rintro cell rfl hcell; simp [Storage.accessors, hcell])
  rw [Reference.World.length, hserves.layout, h,
    apply_of_function (not_mem_operationNames (underscore_lengthGetter name)) hfind]
  exact ⟨_, Storage.runFunction_arrayLength host rounds name slot s, rfl, rfl, rfl,
    fun _ _ _ => rfl⟩

/-- What a mapping's functions apply is there. -/
theorem function?_entrySlot (hlinked : Linked x bodies code) {arity bucket : Nat}
    (h : x.layout.location? name = some (.mapping arity bucket)) :
    function? code (Storage.entrySlot arity) = some (Storage.entrySlotFunction arity) := by
  obtain ⟨cell, hcell, -, hlocation⟩ := exists_cell h
  have harity : arity ∈ x.layout.arities :=
    List.mem_eraseDups.2 (List.mem_filterMap.2 ⟨cell, hcell, by rw [hlocation]; rfl⟩)
  exact function?_of_mem hlinked.distinct (hlinked.entrySlots arity harity)

/-- A mapping whose functions have named parameters has keys. -/
theorem length_keyNames (hlinked : Linked x bodies code) {arity bucket : Nat}
    (h : x.layout.location? name = some (.mapping arity bucket)) :
    (Storage.keyNames arity).length = arity := by
  obtain ⟨hmem, -⟩ := function?_accessor hlinked h .inline
    (Storage.mappingGet (Storage.getter name) arity (Storage.Location.base arity bucket))
    (by rintro cell rfl hcell; simp [Storage.accessors, hcell, Storage.reader, Storage.mappingGet,
      Storage.entryExpr])
  have hnamed := (hlinked.heads _ hmem).2
  unfold Storage.keyNames
  split
  · rename_i hzero
    simp [Storage.mappingGet, Storage.keyNames, hzero] at hnamed
  · exact Storage.length_numbered _ _

/-- The functions of an array can refuse an index. -/
theorem function?_panicError (hlinked : Linked x bodies code) {f : Yul.Function} (hf : f ∈ code)
    (hname : "panic_error" ∈ f.calls) : function? code "panic_error" = some panicError :=
  (function?_shared hlinked hf (show panicError ∈ shared by simp [shared]) hname).2

/-- **An entry of a mapping or an element of an array is read.** -/
theorem yields_entry (hlinked : Linked x bodies code) (hserves : Serves x host w)
    {location : Storage.Location} (h : x.layout.location? name = some location) {keys : List Word}
    (hcount : location.indices? = some keys.length) :
    Yields p (apply host code (rounds + 2) names (Storage.getter name) keys) s
      (oneWord (w.entry s.storage name keys)) := by
  have hoperation := not_mem_operationNames (underscore_getter name)
  unfold Reference.World.entry
  rw [hserves.layout, h]
  -- Only mappings and arrays have entries; the number of keys excludes the other locations.
  cases location with
  | mapping arity bucket =>
    obtain rfl : arity = keys.length := Option.some.inj hcount
    obtain ⟨-, hfind⟩ := function?_accessor hlinked h .inline
      (Storage.mappingGet (Storage.getter name) keys.length
        (Storage.Location.base keys.length bucket))
      (by rintro cell rfl hcell; simp [Storage.accessors, hcell, Storage.reader,
        Storage.mappingGet, Storage.entryExpr])
    rw [apply_of_function hoperation hfind, hserves.keccak]
    rcases Storage.runFunction_mappingGet host rounds (Storage.getter name)
      (Storage.Location.base keys.length bucket) s (function?_entrySlot hlinked h)
      (length_keyNames hlinked h).symm with ⟨hne, -⟩ | ⟨-, memory, hrun, hmemory⟩
    · exact absurd rfl hne
    · exact ⟨_, hrun, rfl, rfl, rfl, fun i hi _ => hmemory i hi⟩
  | array slot =>
    obtain ⟨index, rfl⟩ := List.length_eq_one_iff.1 (Option.some.inj hcount).symm
    obtain ⟨hmem, hfind⟩ := function?_accessor hlinked h .flat (Storage.arrayGet name slot)
      (by rintro cell rfl hcell; simp [Storage.accessors, hcell])
    have hpanic := function?_panicError hlinked hmem
      (by simp [Yul.Function.calls, Storage.arrayGet, Yul.Stmt.callsAll, Yul.Stmt.calls,
        Yul.Expr.calls, Yul.Expr.callsAll])
    rw [apply_of_function hoperation hfind]
    dsimp only
    -- An index within the length is read, one beyond it panics, as in the reference.
    by_cases hindex : index < s.storage slot
    · rw [if_pos hindex]
      exact ⟨_, Storage.runFunction_arrayGet_of_lt host (rounds + 1) hindex, rfl, rfl, rfl,
        fun _ _ _ => rfl⟩
    · rw [if_neg hindex]
      exact ⟨_, _, Storage.runFunction_arrayGet_of_le host rounds hpanic hindex⟩
  | scalar | inlined | staged => cases hcount

/-! ## Writing -/

/-- **A run writes storage and gives no words**, or it reverts. -/
def Stores (p : Nat) (y : Action (List Word)) (s : State) :
    Except Execution.Panic (Word → Word) → Prop
  | .ok storage => ∃ t, y s = .ok [] t ∧ Still p { s with storage } t
  | .error _ => Reverts y s

/-- **A variable of one word is written.** -/
theorem stores_setter (hlinked : Linked x bodies code) (hserves : Serves x host w) {slot : Word}
    (h : x.layout.location? name = some (.scalar slot)) (value : Word) :
    Stores p (apply host code (rounds + 1) names (Storage.setter name) [value]) s
      (.ok (w.setProperty s.storage name value)) := by
  obtain ⟨-, hfind⟩ := function?_accessor hlinked h .inline
    { name := Storage.setter name, params := ["value"]
      body := [.sstore (Storage.decimal slot) (.var "value")] }
    (by rintro cell rfl hcell; simp [Storage.accessors, hcell, Storage.writer])
  rw [Reference.World.setProperty, hserves.layout, h,
    apply_of_function (not_mem_operationNames (underscore_setter name)) hfind]
  exact ⟨_, Storage.runFunction_scalarSet host rounds _ slot value s, rfl, rfl, rfl,
    fun _ _ _ => rfl⟩

/-- **An entry of a mapping or an element of an array is written.** -/
theorem stores_entry (hlinked : Linked x bodies code) (hserves : Serves x host w)
    {location : Storage.Location} (h : x.layout.location? name = some location) {keys : List Word}
    (hcount : location.indices? = some keys.length) (value : Word) :
    Stores p (apply host code (rounds + 2) names (Storage.setter name) (keys ++ [value])) s
      (w.setEntry s.storage name keys value) := by
  have hoperation := not_mem_operationNames (underscore_setter name)
  unfold Reference.World.setEntry
  rw [hserves.layout, h]
  cases location with
  | mapping arity bucket =>
    obtain rfl : arity = keys.length := Option.some.inj hcount
    obtain ⟨-, hfind⟩ := function?_accessor hlinked h .inline
      (Storage.mappingSet (Storage.setter name) keys.length
        (Storage.Location.base keys.length bucket))
      (by rintro cell rfl hcell; simp [Storage.accessors, hcell, Storage.writer,
        Storage.mappingSet, Storage.entryExpr])
    rw [apply_of_function hoperation hfind, hserves.keccak]
    rcases Storage.runFunction_mappingSet host rounds (Storage.setter name)
      (Storage.Location.base keys.length bucket) value s (function?_entrySlot hlinked h)
      (length_keyNames hlinked h).symm with ⟨hne, -⟩ | ⟨-, memory, hrun, hmemory⟩
    · exact absurd rfl hne
    · exact ⟨_, hrun, rfl, rfl, rfl, fun i hi _ => hmemory i hi⟩
  -- an index beyond the largest reverts; up to it the length grows where the index reaches it
  | array slot =>
    obtain ⟨index, rfl⟩ := List.length_eq_one_iff.1 (Option.some.inj hcount).symm
    obtain ⟨hmem, hfind⟩ := function?_accessor hlinked h .flat (Storage.arraySet name slot)
      (by rintro cell rfl hcell; simp [Storage.accessors, hcell])
    have hpanic := function?_panicError hlinked hmem
      (by simp [Yul.Function.calls, Storage.arraySet, Yul.Stmt.callsAll, Yul.Stmt.calls,
        Yul.Expr.calls, Yul.Expr.callsAll])
    rw [List.singleton_append, apply_of_function hoperation hfind]
    dsimp only
    by_cases hmax : Storage.maxArrayIndex < index
    · rw [if_pos hmax]
      exact ⟨_, _, Storage.runFunction_arraySet_of_gt host rounds hpanic hmax⟩
    · rw [if_neg hmax]
      by_cases hindex : index < s.storage slot
      · rw [if_pos hindex]
        exact ⟨_, Storage.runFunction_arraySet_of_lt host (rounds + 1) hmax hindex, rfl, rfl, rfl,
          fun _ _ _ => rfl⟩
      · rw [if_neg hindex]
        exact ⟨_, Storage.runFunction_arraySet_of_le host (rounds + 1) hmax hindex, rfl, rfl, rfl,
          fun _ _ _ => rfl⟩
  | scalar | inlined | staged => cases hcount

end Simulation

end Covenant
