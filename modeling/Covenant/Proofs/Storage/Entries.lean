import Covenant.Proofs.Machine.Rules

/-!
# The entries of mappings

The slot of an entry is found by hashing: each key is put in front of the word so far, which begins
with the base word of the mapping. This is what the generated function computes. Two entries can
share a slot only through a collision of the hash function, or if a hash is the base word one of
them begins with.
-/

namespace Covenant

namespace Storage

open Machine

/-- **The slot of an entry**, by the hash function, the base word and the keys. -/
def entryWord (keccak : List UInt8 → Word) (base : Word) : List Word → Word
  | [] => base
  | key :: keys => keccak (key.bytes ++ (entryWord keccak base keys).bytes)

/-- **What is hashed to find an entry**, the last one first. -/
def hashedInputs (keccak : List UInt8 → Word) (base : Word) : List Word → List (List UInt8)
  | [] => []
  | key :: keys =>
    (key.bytes ++ (entryWord keccak base keys).bytes) :: hashedInputs keccak base keys

/-! ## Collisions -/

section Collisions

variable {keccak : List UInt8 → Word} {base base' : Word}

theorem length_of_mem_hashedInputs {keys : List Word} {input : List UInt8}
    (h : input ∈ hashedInputs keccak base keys) : input.length = 64 := by
  induction keys with
  | nil => cases h
  | cons key keys ih =>
    rcases List.mem_cons.1 h with rfl | h
    · simp
    · exact ih h

/-- **Entries that share a slot.** Either two different inputs with the same hash were hashed for
them, or a hash is one of the two base words, or they begin with the same word and have the same
keys. -/
theorem entryWord_eq {keys keys' : List Word}
    (h : entryWord keccak base keys = entryWord keccak base' keys') :
    (∃ x ∈ hashedInputs keccak base keys, ∃ y ∈ hashedInputs keccak base' keys',
        x ≠ y ∧ keccak x = keccak y)
      ∨ (∃ x ∈ hashedInputs keccak base keys ++ hashedInputs keccak base' keys',
          keccak x = base ∨ keccak x = base')
      ∨ (base = base' ∧ keys = keys') := by
  induction keys generalizing keys' with
  | nil =>
    cases keys' with
    | nil => exact Or.inr (Or.inr ⟨h, rfl⟩)
    | cons key' keys' =>
      refine Or.inr (Or.inl ⟨_, ?_, Or.inl h.symm⟩)
      exact List.mem_append_right _ List.mem_cons_self
  | cons key keys ih =>
    cases keys' with
    | nil => exact Or.inr (Or.inl ⟨_, List.mem_append_left _ List.mem_cons_self, Or.inr h⟩)
    | cons key' keys' =>
      by_cases hinput : key.bytes ++ (entryWord keccak base keys).bytes
          = key'.bytes ++ (entryWord keccak base' keys').bytes
      · -- the same was hashed last, so the argument goes on with what was hashed before
        obtain ⟨hkey, hrest⟩ := List.append_inj hinput (by simp)
        have hkey : key = key' := Word.bytes_injective hkey
        rcases ih (Word.bytes_injective hrest) with ⟨x, hx, y, hy, hxy⟩ | ⟨x, hx, hbase⟩ | ⟨hb, hk⟩
        · exact Or.inl ⟨x, List.mem_cons_of_mem _ hx, y, List.mem_cons_of_mem _ hy, hxy⟩
        · refine Or.inr (Or.inl ⟨x, ?_, hbase⟩)
          rcases List.mem_append.1 hx with hx | hx
          · exact List.mem_append_left _ (List.mem_cons_of_mem _ hx)
          · exact List.mem_append_right _ (List.mem_cons_of_mem _ hx)
        · exact Or.inr (Or.inr ⟨hb, by rw [hkey, hk]⟩)
      · exact Or.inl ⟨_, List.mem_cons_self, _, List.mem_cons_self, hinput, h⟩

end Collisions

/-! ## The generated function -/

theorem length_numbered (stem : String) (count : Nat) : (numbered stem count).length = count := by
  simp [numbered]

theorem nodup_numbered (stem : String) (count : Nat) : (numbered stem count).Nodup := by
  refine List.Pairwise.map _ (fun i j hij h => hij ?_) List.nodup_range
  have := Text.append_toString_injective h
  omega

theorem numbered_key_ne {name : String} {count : Nat} (h : name ∈ numbered "key" count) :
    name ≠ "slot" ∧ name ≠ "base" := by
  obtain ⟨i, -, rfl⟩ := List.mem_map.1 h
  constructor
  · intro heq
    have := congrArg String.toList heq
    simp at this
  · intro heq
    have := congrArg String.toList heq
    simp at this

theorem nodup_entryNames (count : Nat) :
    (("base" :: numbered "key" count) ++ ["slot"]).Nodup := by
  refine List.nodup_append.2 ⟨List.nodup_cons.2 ⟨?_, nodup_numbered _ _⟩, by simp, ?_⟩
  · exact fun hmem => (numbered_key_ne hmem).2 rfl
  · intro name hname other hother
    rw [List.mem_singleton.1 hother]
    rcases List.mem_cons.1 hname with rfl | hname
    · decide
    · exact (numbered_key_ne hname).1

section Run

variable (host : Host) (code : List Yul.Function) (rounds : Nat)

/-- **One key is hashed.** -/
theorem execAll_hashKey {s : State} {name : String} {key slot : Word}
    (hkey : s.locals.get? name = some key) (hslot : s.locals.get? "slot" = some slot) :
    execAll (apply host code rounds) rounds (hashKey name) s
      = .ok .next
        { s with
          memory := (s.memory.write 0 key.bytes).write 32 slot.bytes
          trace := s.trace ++ [.hash (key.bytes ++ slot.bytes)]
          locals := s.locals.set "slot" (host.keccak (key.bytes ++ slot.bytes)) } := by
  simp [hashKey, hkey, hslot, Memory.read_two_words]

/-- **All keys are hashed**, the last one first. -/
theorem execAll_hashKeys {base : Word} (pairs : List (String × Word)) {s : State}
    (hkeys : ∀ p ∈ pairs, p.1 ≠ "slot" ∧ s.locals.get? p.1 = some p.2)
    (hslot : s.locals.get? "slot" = some base) :
    ∃ memory locals,
      execAll (apply host code rounds) rounds ((pairs.map Prod.fst).reverse.flatMap hashKey) s
          = .ok .next
            { s with
              memory
              trace := s.trace
                ++ (hashedInputs host.keccak base (pairs.map Prod.snd)).reverse.map .hash
              locals }
        ∧ locals.get? "slot" = some (entryWord host.keccak base (pairs.map Prod.snd))
        ∧ (∀ name, name ≠ "slot" → locals.get? name = s.locals.get? name)
        ∧ ∀ i, 64 ≤ i → memory i = s.memory i := by
  induction pairs with
  | nil =>
    exact ⟨s.memory, s.locals, by simp [hashedInputs], hslot, fun _ _ => rfl, fun _ _ => rfl⟩
  | cons p pairs ih =>
    obtain ⟨name, key⟩ := p
    obtain ⟨hname, hkey⟩ := hkeys (name, key) List.mem_cons_self
    obtain ⟨memory, locals, hrun, hword, hother, hmemory⟩ :=
      ih fun q hq => hkeys q (List.mem_cons_of_mem _ hq)
    have hkey' : locals.get? name = some key := (hother name hname).trans hkey
    refine ⟨(memory.write 0 key.bytes).write 32
        (entryWord host.keccak base (pairs.map Prod.snd)).bytes,
      locals.set "slot" (entryWord host.keccak base (key :: pairs.map Prod.snd)), ?_,
      locals.get?_set_self _ hword, fun other hne => ?_, fun i hi => ?_⟩
    · rw [List.map_cons, List.reverse_cons, List.flatMap_append, execAll_append hrun,
        List.flatMap_cons, List.flatMap_nil, List.append_nil,
        execAll_hashKey host code rounds hkey' hword]
      simp only [List.map_cons, hashedInputs, List.reverse_cons, List.map_append, List.map_nil,
        List.append_assoc]
      rfl
    · rw [locals.get?_set_of_ne _ hne, hother other hne]
    · rw [Memory.write_of_ge _ _ (by rw [Word.length_bytes]; omega),
        Memory.write_of_ge _ _ (by rw [Word.length_bytes]; omega), hmemory i hi]

/-- **The generated function finds the entry**, and hashes what is hashed to find it. Memory is
written only below the place of the free pointer. -/
theorem runFunction_entrySlot_scratch (base : Word) (keys : List Word) (s : State) :
    ∃ memory,
      runFunction host code rounds (entrySlotFunction keys.length) (base :: keys) s
        = .ok [entryWord host.keccak base keys]
          { s with
            memory
            trace := s.trace ++ (hashedInputs host.keccak base keys).reverse.map .hash }
      ∧ ∀ i, 64 ≤ i → memory i = s.memory i := by
  -- what the body begins with: the base and the keys by their names, and no slot yet
  obtain ⟨start, hstart⟩ : ∃ start : Table Word, start
      = List.zip ("base" :: numbered "key" keys.length) (base :: keys) ++ [("slot", 0)] := ⟨_, rfl⟩
  obtain ⟨begun, hbegun⟩ : ∃ begun : State, begun = { s with locals := { inner := start } } :=
    ⟨_, rfl⟩
  have hfound : ∀ name w, (name, w) ∈ start → begun.locals.get? name = some w := by
    intro name w hmem
    rw [hstart] at hmem
    rw [hbegun, hstart]
    exact Locals.get?_zip_append (by simp [length_numbered]) (nodup_entryNames _) hmem
  have hbase := hfound "base" base (by simp [hstart])
  have hslot := hfound "slot" 0 (by simp [hstart])
  have hassign : execAll (apply host code rounds) rounds [.assign "slot" (.var "base")] begun
      = .ok .next { begun with locals := begun.locals.set "slot" base } := by
    simp [hbase, hslot]
  have hpairs : ∀ p ∈ (numbered "key" keys.length).zip keys, p.1 ≠ "slot"
      ∧ (begun.locals.set "slot" base).get? p.1 = some p.2 := by
    rintro ⟨name, key⟩ hp
    have hname := (numbered_key_ne (List.of_mem_zip hp).1).1
    refine ⟨hname, ?_⟩
    rw [Locals.get?_set_of_ne _ _ hname]
    exact hfound name key (by simp [hstart, hp])
  have hset : (begun.locals.set "slot" base).get? "slot" = some base :=
    Locals.get?_set_self base hslot
  obtain ⟨memory, locals, hrun, hword, -, hmemory⟩ := execAll_hashKeys host code rounds
    ((numbered "key" keys.length).zip keys) (s := { begun with
      locals := begun.locals.set "slot" base }) hpairs hset
  rw [List.map_fst_zip (Nat.le_of_eq (length_numbered _ _))] at hrun
  rw [List.map_snd_zip (Nat.le_of_eq (length_numbered _ _).symm)] at hrun hword
  have hbody : execAll (apply host code rounds) rounds (entrySlotFunction keys.length).body begun
      = _ := (execAll_append hassign _).trans hrun
  rw [hbegun] at hmemory
  rw [hbegun, hstart] at hbody
  refine ⟨memory, ?_, hmemory⟩
  rw [runFunction, invoke_of_ok (by simp [entrySlotFunction, length_numbered]) hbody]
  simp only [entrySlotFunction, List.map_cons, List.map_nil, hword, Option.getD_some]

/-- **The generated function computes the slot of an entry**, and leaves everything but memory
alone. -/
theorem runFunction_entrySlot (base : Word) (keys : List Word) (s : State) :
    ∃ memory,
      runFunction host code rounds (entrySlotFunction keys.length) (base :: keys) s
        = .ok [entryWord host.keccak base keys]
          { s with
            memory
            trace := s.trace ++ (hashedInputs host.keccak base keys).reverse.map .hash } := by
  obtain ⟨memory, hrun, -⟩ := runFunction_entrySlot_scratch host code rounds base keys s
  exact ⟨memory, hrun⟩

end Run

end Storage

end Covenant
