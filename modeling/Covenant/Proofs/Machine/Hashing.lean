import Covenant.Proofs.Machine.Encoding
import Covenant.Proofs.Storage.Entries

/-!
# Hashes of words

The function for a number of words writes them one behind the other, from the free place on, and
hashes what it wrote.
-/

namespace Covenant

namespace Machine

open Emit Storage

variable {host : Host} {code : List Yul.Function} {rounds p n : Nat} {s : State}

/-- Words are written one behind the other. -/
theorem execAll_storeWords {start : Word} {index : Nat} {values : List (String × Word)}
    (hptr : s.locals.get? "ptr" = some start)
    (hvars : ∀ v ∈ values, s.locals.get? v.1 = some v.2)
    (hroom : start.toNat + 32 * (index + values.length) < 2 ^ 256) :
    ∃ memory, execAll (apply host code rounds) n
        ((values.map Prod.fst).mapIdx fun i word =>
          .mstore (.add (.var "ptr") (.num (32 * (index + i)))) (.var word)) s
          = .ok .next { s with memory } ∧
      memory.read (start.toNat + 32 * index) (32 * values.length)
        = values.flatMap (fun v => v.2.bytes) ∧
      ∀ i, i < start.toNat + 32 * index → memory i = s.memory i := by
  -- The words already stored lie below the place of the next one, so later stores leave them.
  induction values generalizing s index with
  | nil => exact ⟨s.memory, rfl, rfl, fun _ _ => rfl⟩
  | cons v values ih =>
    obtain ⟨hv, hrest⟩ := List.forall_mem_cons.1 hvars
    rw [List.length_cons] at hroom
    have hfirst : exec (apply host code rounds) n
        (.mstore (.add (.var "ptr") (.num (32 * index))) (.var v.1)) s
        = .ok .next { s with
            memory := s.memory.write (start.toNat + 32 * index) v.2.bytes } := by
      have hplace : eval (apply host code rounds) (.add (.var "ptr") (.num (32 * index))) s
          = .ok [start + BitVec.ofNat 256 (32 * index)] s := by
        simp [hptr]
      have hvalue : eval (apply host code rounds) (.var v.1) s = .ok [v.2] s := by
        simp [hv]
      rw [exec_mstore (by simp) (by simp) hplace hvalue, toNat_head (by omega)]
    obtain ⟨memory, hexec, hread, hkept⟩ := @ih
      { s with memory := s.memory.write (start.toNat + 32 * index) v.2.bytes } (index + 1)
      hptr hrest (by omega)
    have hword := read_head v.2.length_bytes hkept
    refine ⟨memory, ?_, ?_, fun i hi => ?_⟩
    · rw [List.map_cons, List.mapIdx_cons, Nat.add_zero, execAll_of_next hfirst, ← hexec]
      simp only [Nat.add_assoc, Nat.add_comm 1]
    · rw [show start.toNat + 32 * (index + 1) = start.toNat + 32 * index + 32 by omega] at hread
      rw [List.length_cons, show 32 * (values.length + 1) = 32 + 32 * values.length by omega,
        Memory.read_append, hword, hread, List.flatMap_cons]
    · exact (hkept i (by omega)).trans (Memory.write_of_lt _ _ hi)

theorem numbered_word_ne {name : String} {count : Nat} (h : name ∈ numbered "word" count) :
    name ≠ "ptr" ∧ name ≠ "hash" := by
  obtain ⟨i, -, rfl⟩ := List.mem_map.1 h
  constructor <;>
    · intro heq
      have hlist := congrArg String.toList heq
      simp at hlist

/-- The variables that the words to hash are in: the words by their names, and no hash yet. -/
def hashTable (words : List Word) : Table Word :=
  (numbered "word" words.length).zip words ++ [("hash", 0)]

theorem get?_hashTable {words : List Word} {place w : Word} {name : String}
    (h : (name, w) ∈ hashTable words) :
    Locals.get? { inner := ("ptr", place) :: hashTable words } name = some w := by
  have hnames : (numbered "word" words.length ++ ["hash"]).Nodup := by
    refine List.nodup_append.2 ⟨nodup_numbered _ _, by simp, ?_⟩
    intro name hname other hother
    rw [List.mem_singleton.1 hother]
    exact (numbered_word_ne hname).2
  have hne : name ≠ "ptr" := by
    rcases List.mem_append.1 h with h | h
    · exact (numbered_word_ne (List.of_mem_zip h).1).1
    · cases List.mem_singleton.1 h
      decide
  have hget := Locals.get?_zip_append (length_numbered _ _) hnames h
  simp only [Locals.get?, List.flatten_nil, List.append_nil, Table.get?_cons, if_neg hne] at hget ⊢
  exact hget

/-- The words are written behind the free place. -/
theorem execAll_hashWords (words : List Word) (hroom : p + 32 * words.length < 2 ^ 256)
    (hlocals : s.locals = { inner := ("ptr", BitVec.ofNat 256 p) :: hashTable words }) :
    ∃ memory, execAll (apply host code rounds) n ((numbered "word" words.length).mapIdx
        fun i word => .mstore (.add (.var "ptr") (.num (32 * i))) (.var word)) s
          = .ok .next { s with memory } ∧
      memory.read p (32 * words.length) = words.flatMap Word.bytes ∧
      ∀ i, i < p → memory i = s.memory i := by
  have hp : (BitVec.ofNat 256 p).toNat = p := Word.toNat_ofNat (by omega)
  have hlength := length_numbered "word" words.length
  have hfst : ((numbered "word" words.length).zip words).map Prod.fst
      = numbered "word" words.length := List.map_fst_zip (Nat.le_of_eq hlength)
  have hzip : ((numbered "word" words.length).zip words).length = words.length := by
    rw [List.length_zip, hlength, Nat.min_self]
  have hbytes : ((numbered "word" words.length).zip words).flatMap (fun v => v.2.bytes)
      = words.flatMap Word.bytes := by
    have hsnd : ((numbered "word" words.length).zip words).map Prod.snd = words :=
      List.map_snd_zip (Nat.le_of_eq hlength.symm)
    rw [← List.flatMap_map (f := Prod.snd) (g := Word.bytes), hsnd]
  have hvars : ∀ v ∈ (numbered "word" words.length).zip words, s.locals.get? v.1 = some v.2 := by
    intro v hv
    rw [hlocals]
    exact get?_hashTable (List.mem_append_left _ hv)
  have hptr : s.locals.get? "ptr" = some (BitVec.ofNat 256 p) := by
    simp [hlocals, Locals.get?, Table.get?_cons]
  obtain ⟨memory, hstore, hread, hkept⟩ := @execAll_storeWords host code rounds n s _ 0 _ hptr hvars
    (by rw [hp, hzip]; omega)
  rw [hp, hbytes, hzip] at hread
  rw [hp] at hkept
  simp only [hfst, Nat.zero_add] at hstore
  exact ⟨memory, hstore, hread, hkept⟩

/-- **The function for a number of words hashes them**, one behind the other, and what lies below
the free place stays. -/
theorem runFunction_hashDefinition (words : List Word)
    (hfree : s.memory.read 64 32 = Word.bytes (BitVec.ofNat 256 p))
    (hroom : p + 32 * words.length < 2 ^ 256) :
    ∃ memory trace, runFunction host code rounds (hashDefinition words.length) words s
        = .ok [host.keccak (words.flatMap Word.bytes)] { s with memory, trace } ∧
      ∀ i, i < p → memory i = s.memory i := by
  have hp : (BitVec.ofNat 256 p).toNat = p := Word.toNat_ofNat (by omega)
  have hcount : (BitVec.ofNat 256 (32 * words.length)).toNat = 32 * words.length :=
    Word.toNat_ofNat (by omega)
  obtain ⟨memory, hstore, hread, hkept⟩ := @execAll_hashWords host code rounds p rounds
    { s with locals := { inner := ("ptr", BitVec.ofNat 256 p) :: hashTable words } } words hroom rfl
  have hptr : Locals.get? { inner := ("ptr", BitVec.ofNat 256 p) :: hashTable words } "ptr"
      = some (BitVec.ofNat 256 p) := by
    simp [Locals.get?, Table.get?_cons]
  have hhash := @get?_hashTable words (BitVec.ofNat 256 p) 0 "hash" (by simp [hashTable])
  have hdefine : exec (apply host code rounds) rounds (.define "ptr" .free)
      { s with locals := { inner := hashTable words } } = .ok .next
        { s with locals := { inner := ("ptr", BitVec.ofNat 256 p) :: hashTable words } } := by
    simp [Yul.Stmt.define, Yul.Expr.free, hfree, Word.ofBytes_bytes, Locals.declareAll]
  have hbody : execAll (apply host code rounds) rounds (hashDefinition words.length).body
      { s with locals := { inner := hashTable words } }
      = .ok .next { s with
          memory
          trace := s.trace ++ [.hash (words.flatMap Word.bytes)]
          locals := Locals.set { inner := ("ptr", BitVec.ofNat 256 p) :: hashTable words } "hash"
            (host.keccak (words.flatMap Word.bytes)) } := by
    refine (execAll_of_next hdefine).trans ((execAll_append hstore _).trans ?_)
    simp [hptr, hhash, hp, hcount, hread]
  refine ⟨memory, s.trace ++ [.hash (words.flatMap Word.bytes)], ?_, hkept⟩
  rw [runFunction, invoke_of_ok (by simp [hashDefinition, length_numbered]) hbody]
  simp [hashDefinition, Locals.get?_set_self _ hhash]

end Machine

end Covenant
