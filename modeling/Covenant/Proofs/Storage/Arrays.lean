import Covenant.Proofs.Simulation.Methods

/-!
# Arrays are growable lists

The three functions of an array, called one after the other in any order and on any words. What was
written to the array is a list of indices and values (`writesOf`), and the storage of the array
shows no more than that list (`Shows`): its length is one more than the largest index, and an
element that was skipped is zero. One call keeps this (`Shows.step`), so any number of calls does
(`Shows.perform`), and then the functions give and refuse what a growable list does (`Growable`).

The slot of the length lies directly before the first element, and is that of no element because the
largest index is far below 2^256. Whether other variables keep away is not asked here.
-/

namespace Covenant

namespace Storage

open Machine Emit

/-! ## Calls -/

/-- **A call of a function of an array.** -/
inductive ArrayCall where
  | length
  | get (index : Word)
  | set (index value : Word)
deriving DecidableEq

namespace ArrayCall

/-- The name of the function, for an array of a name. -/
def function (array : String) : ArrayCall → String
  | length => lengthGetter array
  | get _ => getter array
  | set _ _ => setter array

/-- The words that the function is called with. -/
def words : ArrayCall → List Word
  | length => []
  | get index => [index]
  | set index value => [index, value]

/-- What the call writes, as an index and a value: nothing where the index is too large. -/
def write? : ArrayCall → Option (Word × Word)
  | set index value => if index ≤ maxArrayIndex then some (index, value) else none
  | _ => none

/-- **The call is made** in code that has functions for an array of a name. -/
def run (host : Host) (code : List Yul.Function) (rounds : Nat) (array : String)
    (call : ArrayCall) : Action (List Word) :=
  apply host code rounds [] (call.function array) call.words

end ArrayCall

/-- The state after a call. A call that is refused is undone. -/
def stateAfter (run : ArrayCall → Action (List Word)) (s : State) (call : ArrayCall) : State :=
  match run call s with
  | .ok _ t => t
  | .error _ _ => s

/-- **The state after some calls**, made one after the other. -/
def perform (run : ArrayCall → Action (List Word)) (calls : List ArrayCall) (s : State) : State :=
  calls.foldl (stateAfter run) s

/-- **What some calls write**, the latest first. -/
def writesOf (calls : List ArrayCall) : List (Word × Word) :=
  (calls.filterMap ArrayCall.write?).reverse

/-! ## Growable lists -/

/-- **The length of a list after some writes**: zero, or one more than the largest index. -/
inductive LengthAfter : List (Word × Word) → Nat → Prop where
  | nothing : LengthAfter [] 0
  | upTo {writes : List (Word × Word)} (last : Word × Word) (hlast : last ∈ writes)
    (hlargest : ∀ write ∈ writes, write.1 ≤ last.1) : LengthAfter writes (last.1.toNat + 1)

section Lengths

variable {writes : List (Word × Word)} {index value : Word} {m n : Nat}

theorem LengthAfter.lt (h : LengthAfter writes n) : ∀ write ∈ writes, write.1.toNat < n := by
  cases h with
  | nothing => exact fun write hwrite => absurd hwrite List.not_mem_nil
  | upTo last _ hlargest =>
    exact fun write hwrite => Nat.lt_succ_of_le (BitVec.le_def.1 (hlargest write hwrite))

/-- There is one such length. -/
theorem LengthAfter.unique (h : LengthAfter writes m) (h' : LengthAfter writes n) :
    m = n := by
  cases h with
  | nothing =>
    cases h' with
    | nothing => rfl
    | upTo last hlast _ => exact absurd hlast List.not_mem_nil
  | upTo last hlast hlargest =>
    cases h' with
    | nothing => exact absurd hlast List.not_mem_nil
    | upTo other hother hlargest' =>
      have hle := BitVec.le_def.1 (hlargest other hother)
      have hge := BitVec.le_def.1 (hlargest' last hlast)
      omega

/-- The length after one more write: it stays where the index is below it. -/
theorem LengthAfter.cons (h : LengthAfter writes n) :
    LengthAfter ((index, value) :: writes) (if index.toNat < n then n else index.toNat + 1) := by
  split
  · rename_i hlt
    cases h with
    | nothing => exact absurd hlt (Nat.not_lt_zero _)
    | upTo last hlast hlargest =>
      refine .upTo last (List.mem_cons_of_mem _ hlast) fun write hwrite => ?_
      rcases List.mem_cons.1 hwrite with rfl | hwrite
      · exact BitVec.le_def.2 (Nat.le_of_lt_succ hlt)
      · exact hlargest write hwrite
  · rename_i hge
    refine .upTo (index, value) List.mem_cons_self fun write hwrite => ?_
    rcases List.mem_cons.1 hwrite with rfl | hwrite
    · exact BitVec.le_refl _
    · have hlt := h.lt write hwrite
      exact BitVec.le_def.2 (show write.1.toNat ≤ index.toNat by omega)

end Lengths

/-- **The functions of an array do what those of a growable list do**, in a state that some writes
have led to. -/
structure Growable (run : ArrayCall → Action (List Word)) (slot : Word) (s : State)
    (writes : List (Word × Word)) (n : Word) : Prop where
  lengthAfter : LengthAfter writes n.toNat
  length_le : n.toNat ≤ maxArrayIndex.toNat + 1
  /-- The length is given. -/
  length : ∃ t, run .length s = .ok [n] t ∧ t.storage = s.storage
  /-- Below the length, the value that was last written is given, or zero if none was. -/
  get : ∀ index, index < n →
    ∃ t, run (.get index) s = .ok [(writes.lookup index).getD 0] t ∧ t.storage = s.storage
  get_refused : ∀ index, ¬ index < n → RevertsWith (panicData 0x32) (run (.get index)) s
  /-- Up to the largest index an element is written, and no other one and nothing outside of the
  array changes. -/
  set : ∀ index value, index ≤ maxArrayIndex →
    ∃ t, run (.set index value) s = .ok [] t ∧ t.storage (Location.elements slot + index) = value ∧
      (∀ other, other ≤ maxArrayIndex → other ≠ index →
        t.storage (Location.elements slot + other) = s.storage (Location.elements slot + other)) ∧
      ∀ a, ¬ (Location.array slot).Takes a → t.storage a = s.storage a
  set_refused : ∀ index value, maxArrayIndex < index →
    RevertsWith (panicData 0x32) (run (.set index value)) s

/-! ## The slots of an array -/

section Slots

variable {slot index other : Word}

theorem element_ne_length (h : index ≤ maxArrayIndex) : Location.elements slot + index ≠ slot := by
  intro heq
  have hle := BitVec.le_def.1 h
  have hsum := congrArg BitVec.toNat heq
  have hone : (1 : Word).toNat = 1 := rfl
  have hslot := slot.isLt
  rw [toNat_maxArrayIndex] at hle
  rw [Location.elements, BitVec.toNat_add, BitVec.toNat_add, hone] at hsum
  omega

theorem element_inj :
    Location.elements slot + index = Location.elements slot + other ↔ index = other :=
  BitVec.add_right_inj _

end Slots

/-- **An element of an array was written**, and nothing else but the length, where the index was not
below it. -/
structure Wrote (slot index value : Word) (storage after : Word → Word) : Prop where
  element : after (Location.elements slot + index) = value
  length : after slot = if index < storage slot then storage slot else index + 1
  others : ∀ other, other ≤ maxArrayIndex → other ≠ index →
    after (Location.elements slot + other) = storage (Location.elements slot + other)
  outside : ∀ a, ¬ (Location.array slot).Takes a → after a = storage a

/-! ## What storage shows -/

/-- **Storage shows what was written to an array**: the length, and below the largest index the last
value of each element. -/
structure Shows (slot : Word) (storage : Word → Word) (writes : List (Word × Word)) : Prop where
  admitted : ∀ write ∈ writes, write.1 ≤ maxArrayIndex
  length : LengthAfter writes (storage slot).toNat
  element : ∀ index, index ≤ maxArrayIndex →
    storage (Location.elements slot + index) = (writes.lookup index).getD 0

section Shows

variable {slot : Word} {storage after : Word → Word} {writes : List (Word × Word)}
  {index value : Word}

theorem shows_zero (hzero : ∀ a, (Location.array slot).Takes a → storage a = 0) :
    Shows slot storage [] where
  admitted write hwrite := absurd hwrite List.not_mem_nil
  length := by
    rw [hzero slot (.length slot)]
    exact .nothing
  element index hindex := hzero _ (.element slot index hindex)

/-- The length of an array is at most its greatest index and one. -/
theorem Shows.length_le (h : Shows slot storage writes) :
    (storage slot).toNat ≤ maxArrayIndex.toNat + 1 := by
  have hlength := h.length
  generalize (storage slot).toNat = n at hlength
  cases hlength with
  | nothing => omega
  | upTo last hlast _ => exact Nat.succ_le_succ (BitVec.le_def.1 (h.admitted last hlast))

/-- **One more write** is shown afterwards. -/
theorem Shows.cons (h : Shows slot storage writes) (hindex : index ≤ maxArrayIndex)
    (hwrote : Wrote slot index value storage after) :
    Shows slot after ((index, value) :: writes) where
  admitted write hwrite := by
    rcases List.mem_cons.1 hwrite with rfl | hwrite
    · exact hindex
    · exact h.admitted write hwrite
  length := by
    have hle := BitVec.le_def.1 hindex
    have hone : (1 : Word).toNat = 1 := rfl
    rw [toNat_maxArrayIndex] at hle
    rw [hwrote.length, apply_ite BitVec.toNat, BitVec.toNat_add, hone,
      Nat.mod_eq_of_lt (by omega)]
    exact h.length.cons
  element other hother := by
    by_cases heq : other = index
    · subst heq
      rw [hwrote.element, List.lookup_cons_self, Option.getD_some]
    · rw [hwrote.others other hother heq, h.element other hother, List.lookup_cons,
        beq_eq_false_iff_ne.2 heq]

end Shows

/-! ## What the functions do -/

/-- **Code has the functions of an array**, and finds them by their names. -/
structure Offers (code : List Yul.Function) (array : String) (slot : Word) : Prop where
  length : function? code (lengthGetter array) = some (arrayLength array slot)
  get : function? code (getter array) = some (arrayGet array slot)
  set : function? code (setter array) = some (arraySet array slot)
  panic : function? code "panic_error" = some panicError

theorem offers_of_linked {x : Context} {bodies : List Stmt} {code : List Yul.Function}
    (hlinked : Linked x bodies code) {cell : Cell} (hcell : cell ∈ x.layout.cells) {slot : Word}
    (hlocation : cell.location = .array slot) : Offers code cell.name slot := by
  have hmem : ∀ setting f, .function setting f ∈ accessors x.creation cell → f ∈ code :=
    hlinked.accessors cell hcell
  simp only [accessors, hlocation, List.mem_cons, List.not_mem_nil, or_false,
    Yul.Item.function.injEq] at hmem
  have hset := hmem .flat (arraySet cell.name slot) (by simp)
  exact
    { length := function?_of_mem hlinked.distinct
        (hmem .inline (arrayLength cell.name slot) (by simp))
      get := function?_of_mem hlinked.distinct (hmem .flat (arrayGet cell.name slot) (by simp))
      set := function?_of_mem hlinked.distinct hset
      panic := Simulation.function?_panicError hlinked hset
        (by simp [Yul.Function.calls, arraySet, Yul.Stmt.callsAll, Yul.Stmt.calls, Yul.Expr.calls,
          Yul.Expr.callsAll]) }

section Calls

variable (host : Host) (rounds : Nat) {code : List Yul.Function} {array : String} {slot : Word}
  {s : State} {index : Word} (value : Word)

theorem run_length (h : Offers code array slot) :
    ∃ t, ArrayCall.run host code (rounds + 2) array .length s = .ok [s.storage slot] t ∧
      t.storage = s.storage := by
  rw [ArrayCall.run, ArrayCall.function,
    apply_of_function (not_mem_operationNames (underscore_lengthGetter array)) h.length]
  exact ⟨_, runFunction_arrayLength host (rounds + 1) array slot s, rfl⟩

theorem run_get_eq (h : Offers code array slot) :
    ArrayCall.run host code (rounds + 2) array (.get index)
      = runFunction host code (rounds + 1) (arrayGet array slot) [index] :=
  apply_of_function (not_mem_operationNames (underscore_getter array)) h.get

theorem run_set_eq (h : Offers code array slot) :
    ArrayCall.run host code (rounds + 2) array (.set index value)
      = runFunction host code (rounds + 1) (arraySet array slot) [index, value] :=
  apply_of_function (not_mem_operationNames (underscore_setter array)) h.set

/-- **Reading** gives the element below the length. -/
theorem run_get (h : Offers code array slot) (hindex : index < s.storage slot) :
    ∃ t, ArrayCall.run host code (rounds + 2) array (.get index) s
        = .ok [s.storage (Location.elements slot + index)] t ∧ t.storage = s.storage := by
  rw [run_get_eq host rounds h]
  exact ⟨_, runFunction_arrayGet_of_lt host _ hindex, rfl⟩

/-- Reading behind the end is refused. -/
theorem run_get_refused (h : Offers code array slot) (hindex : ¬ index < s.storage slot) :
    RevertsWith (panicData 0x32) (ArrayCall.run host code (rounds + 2) array (.get index)) s := by
  rw [run_get_eq host rounds h]
  exact ⟨_, runFunction_arrayGet_of_le host rounds h.panic hindex⟩

/-- **Writing** changes an element, and the length where the index is not below it. -/
theorem run_set (h : Offers code array slot) (hindex : index ≤ maxArrayIndex) :
    ∃ t, ArrayCall.run host code (rounds + 2) array (.set index value) s = .ok [] t ∧
      Wrote slot index value s.storage t.storage := by
  rw [run_set_eq host rounds value h]
  have hmax : ¬ maxArrayIndex < index := BitVec.not_lt.2 hindex
  have hwrote : Wrote slot index value s.storage fun a =>
      if a = Location.elements slot + index then value
      else if a = slot then if index < s.storage slot then s.storage slot else index + 1
      else s.storage a := by
    refine ⟨if_pos rfl, ?_, fun other hother hne => ?_, fun a ha => ?_⟩
    · rw [if_neg (element_ne_length hindex).symm, if_pos rfl]
    · rw [if_neg (mt element_inj.1 hne), if_neg (element_ne_length hother)]
    · rw [if_neg, if_neg]
      · rintro rfl
        exact ha (.length a)
      · rintro rfl
        exact ha (.element slot index hindex)
  by_cases hlt : index < s.storage slot
  · refine ⟨_, runFunction_arraySet_of_lt host _ hmax hlt, ?_⟩
    -- a length that stays is as good as one that is written again
    have hstays : ∀ a, (if a = slot then s.storage slot else s.storage a) = s.storage a := by
      intro a
      split
      · rename_i ha
        rw [ha]
      · rfl
    simp only [if_pos hlt, hstays] at hwrote
    exact hwrote
  · refine ⟨_, runFunction_arraySet_of_le host _ hmax hlt, ?_⟩
    rw [if_neg hlt] at hwrote
    exact hwrote

/-- Writing at an index that is too great is refused. -/
theorem run_set_refused (h : Offers code array slot) (hindex : maxArrayIndex < index) :
    RevertsWith (panicData 0x32)
      (ArrayCall.run host code (rounds + 2) array (.set index value)) s := by
  rw [run_set_eq host rounds value h]
  exact ⟨_, runFunction_arraySet_of_gt host rounds h.panic hindex⟩

variable {writes : List (Word × Word)} (call : ArrayCall) (calls : List ArrayCall)

/-- **One call keeps what storage shows.** -/
theorem Shows.step (hoffers : Offers code array slot) (h : Shows slot s.storage writes) :
    Shows slot (stateAfter (ArrayCall.run host code (rounds + 2) array) s call).storage
      (call.write?.toList ++ writes) := by
  rw [stateAfter]
  cases call with
  | length =>
    obtain ⟨t, ht, hstorage⟩ := run_length host rounds hoffers
    rw [ht]
    exact hstorage ▸ h
  | get index =>
    by_cases hindex : index < s.storage slot
    · obtain ⟨t, ht, hstorage⟩ := run_get host rounds hoffers hindex
      rw [ht]
      exact hstorage ▸ h
    · obtain ⟨t, ht⟩ := run_get_refused host rounds hoffers hindex
      rw [ht]
      exact h
  | set index value =>
    rw [ArrayCall.write?]
    by_cases hindex : index ≤ maxArrayIndex
    · obtain ⟨t, ht, hwrote⟩ := run_set host rounds value hoffers hindex
      rw [ht, if_pos hindex]
      exact h.cons hindex hwrote
    · obtain ⟨t, ht⟩ := run_set_refused host rounds value hoffers (BitVec.not_le.1 hindex)
      rw [ht, if_neg hindex]
      exact h

/-- **Any number of calls keeps what storage shows**, by induction on the calls. -/
theorem Shows.perform (hoffers : Offers code array slot) (h : Shows slot s.storage writes) :
    Shows slot (perform (ArrayCall.run host code (rounds + 2) array) calls s).storage
      (writesOf calls ++ writes) := by
  induction calls generalizing s writes with
  | nil => exact h
  | cons call calls ih =>
    have hrest := ih (h.step host rounds call hoffers)
    have hwrites : writesOf (call :: calls) = writesOf calls ++ call.write?.toList := by
      rw [writesOf, List.filterMap_cons]
      cases call.write? with
      | none => exact (List.append_nil _).symm
      | some write => exact List.reverse_cons
    rw [hwrites, List.append_assoc]
    exact hrest

/-- **Functions on storage that shows some writes** are those of a growable list. -/
theorem Shows.growable (hoffers : Offers code array slot) (h : Shows slot s.storage writes) :
    Growable (ArrayCall.run host code (rounds + 2) array) slot s writes (s.storage slot) where
  lengthAfter := h.length
  length_le := h.length_le
  length := run_length host rounds hoffers
  get index hindex := by
    have hadmitted : index ≤ maxArrayIndex := by
      have hle := h.length_le
      rw [BitVec.lt_def] at hindex
      exact BitVec.le_def.2 (by omega)
    rw [← h.element index hadmitted]
    exact run_get host rounds hoffers hindex
  get_refused index hindex := run_get_refused host rounds hoffers hindex
  set index value hindex := by
    obtain ⟨t, ht, hwrote⟩ := run_set host rounds value hoffers hindex
    exact ⟨t, ht, hwrote.element, hwrote.others, hwrote.outside⟩
  set_refused index value hindex := run_set_refused host rounds value hoffers hindex

end Calls

/-! ## Main statement -/

/-- **Arrays are growable lists filled with zeros.** Take a contract for which an object is
generated, one of its two pieces of code, valid as an assembler sees it, and an array of its layout
with nothing in its slots. Call the functions of the array by their names, in any order and on any
words. Then the length is zero, or one more than the largest index that was written; it never is
more than one above the largest index an array may have. Reading is refused from the length on, and
below it gives the value last written, or zero. Writing is refused beyond the largest index an array
may have, and up to it changes no other element and nothing outside of the array. -/
theorem array_grows_zero_filled {r : Registry} {active : List String} {store : Emit.Store}
    {c : Contract} {object : Yul.Object} (hbuild : (build r active store c).1 = .ok object)
    {layout : Layout} (hlayout : plan c = .ok layout) {creation : Bool}
    (hvalid : (object.code creation).Valid) {cell : Cell} (hcell : cell ∈ layout.cells)
    {slot : Word} (hlocation : cell.location = .array slot) (host : Host) {rounds : Nat}
    (hrounds : 2 ≤ rounds) {s : State}
    (hzero : ∀ a, (Location.array slot).Takes a → s.storage a = 0) (calls : List ArrayCall) :
    ∃ n, Growable (ArrayCall.run host (object.code creation).functions rounds cell.name) slot
      (perform (ArrayCall.run host (object.code creation).functions rounds cell.name) calls s)
      (writesOf calls) n := by
  obtain ⟨rounds, rfl⟩ := Nat.exists_eq_add_of_le' hrounds
  obtain ⟨bodies, hholds⟩ := Simulation.holds_of_build hbuild hlayout hvalid
  have hoffers := offers_of_linked hholds.linked hcell hlocation
  have hshows := (shows_zero hzero).perform host rounds calls hoffers
  rw [List.append_nil] at hshows
  exact ⟨_, hshows.growable host rounds hoffers⟩

/-- A contract with an array. -/
def series : Contract where
  name := "Series"
  stateVars := [{ name := "items", type := .array .number }]

theorem series_created :
    ((contextFor { contracts := [series] } series).toOption.bind fun x =>
      x.1.creationPiece.toOption.map Piece.deploys) = some [] := by
  decide +kernel

theorem series_stays :
    ((contextFor { contracts := [series] } series).toOption.bind fun x =>
      x.2.runtimePiece.toOption.map fun piece => (piece.deploys, decide piece.code.Valid))
      = some ([], true) := by
  decide +kernel

/-- The elements at two and at zero are written. Then there are three elements, the one in between
is zero, and there is none at three. -/
theorem array_grows_zero_filled_gap :
    ∃ object s t u, (build { contracts := [series] } ["Series"] [] series).1 = .ok object ∧
      s = perform (ArrayCall.run Simulation.zeroHost (object.code false).functions 2 "items")
        [.set 2 7, .set 0 5] Simulation.zeroState ∧
      ArrayCall.run Simulation.zeroHost (object.code false).functions 2 "items" .length s
        = .ok [3] t ∧
      ArrayCall.run Simulation.zeroHost (object.code false).functions 2 "items" (.get 1) s
        = .ok [0] u ∧
      RevertsWith (panicData 0x32)
        (ArrayCall.run Simulation.zeroHost (object.code false).functions 2 "items" (.get 3)) s := by
  obtain ⟨x, hx, hcreated⟩ := Option.bind_eq_some_iff.1 series_created
  obtain ⟨created, hcreated, hdeploys⟩ := Option.map_eq_some_iff.1 hcreated
  obtain ⟨x', hx', hstaying⟩ := Option.bind_eq_some_iff.1 series_stays
  obtain ⟨staying, hstaying, h⟩ := Option.map_eq_some_iff.1 hstaying
  obtain ⟨hdeploys', hvalid⟩ := Prod.mk.inj h
  cases hx.symm.trans hx'
  have hbuild := build_of_pieces ["Series"] [] (toOption_eq_some.1 hx)
    (toOption_eq_some.1 hcreated) (toOption_eq_some.1 hstaying) hdeploys hdeploys'
  obtain ⟨n, hgrowable⟩ := @array_grows_zero_filled _ _ _ _ _ hbuild
    ⟨[⟨_, .array 0⟩], arrayStride⟩ rfl false (of_decide_eq_true hvalid) _ List.mem_cons_self 0 rfl
    Simulation.zeroHost 2 (Nat.le_refl 2) Simulation.zeroState (fun _ _ => rfl)
    [.set 2 7, .set 0 5]
  have hlast : LengthAfter [(0, 5), (2, 7)] 3 := by
    refine .upTo (2, 7) (by decide) fun write hwrite => ?_
    rcases List.mem_pair.1 hwrite with rfl | rfl
    · decide
    · decide
  obtain rfl : n = 3 := BitVec.eq_of_toNat_eq (hgrowable.lengthAfter.unique hlast)
  obtain ⟨t, hlength, -⟩ := hgrowable.length
  obtain ⟨u, hget, -⟩ := hgrowable.get 1 (by decide)
  exact ⟨_, _, t, u, hbuild, rfl, hlength, hget, hgrowable.get_refused 3 (by decide)⟩

end Storage

end Covenant
