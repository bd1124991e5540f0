import Covenant.Proofs.Computations
import Covenant.Storage.Layout
import Mathlib.Algebra.Group.Nat.Defs

/-!
# The slots of a layout

One cursor walks over the variables of a contract, and each variable takes slots between the cursor
before it and the cursor behind it. As long as there are fewer than 2^128 variables the cursor does
not wrap, so no two variables take the same slot: not even the last element an array may have is a
slot of the next variable. Mappings take no slots; those with as many keys are numbered.
-/

namespace Covenant

namespace Storage

/-- **A location takes a slot**: that of a scalar, that of the length of an array, or that of an
element of an array up to the largest index. -/
inductive Location.Takes : Location → Word → Prop where
  | scalar (slot : Word) : Takes (.scalar slot) slot
  | length (slot : Word) : Takes (.array slot) slot
  | element (slot index : Word) (h : index ≤ maxArrayIndex) :
    Takes (.array slot) (Location.elements slot + index)

/-- A location that is neither in a slot nor in a mapping. -/
def Location.IsImmutable : Location → Prop
  | .inlined _ _ => True
  | .staged _ _ => True
  | _ => False

theorem toNat_arrayStride : arrayStride.toNat = 2 ^ 128 := rfl

theorem toNat_maxArrayIndex : maxArrayIndex.toNat = 2 ^ 128 - 2 := rfl

/-- The slot of an element, where the region of the array does not wrap. -/
theorem toNat_element {slot index : Word} (hslot : slot.toNat + 2 ^ 128 ≤ 2 ^ 256)
    (hindex : index ≤ maxArrayIndex) :
    (Location.elements slot + index).toNat = slot.toNat + 1 + index.toNat := by
  have hle : index.toNat ≤ 2 ^ 128 - 2 := BitVec.le_def.1 hindex
  have hone : (1 : Word).toNat = 1 := rfl
  rw [Location.elements, BitVec.toNat_add, BitVec.toNat_add, hone]
  omega

/-- The base words of mappings with as many keys differ as their numbers do. -/
theorem Location.base_injective {arity m n : Nat} (hm : m < 2 ^ 128) (hn : n < 2 ^ 128)
    (h : Location.base arity m = Location.base arity n) : m = n := by
  have hlow : ∀ k < 2 ^ 128, (Location.base arity k).toNat % 2 ^ 128 = k := by
    intro k hk
    have hshift : (BitVec.ofNat 256 arity <<< 128).toNat % 2 ^ 128 = 0 := by
      rw [BitVec.toNat_shiftLeft, Nat.shiftLeft_eq]
      omega
    rw [Location.base, BitVec.toNat_or, Nat.or_mod_two_pow, hshift, Nat.zero_or,
      BitVec.toNat_ofNat]
    omega
  rw [← hlow m hm, h, hlow n hn]

/-! ## One variable -/

theorem placeImmutable_isImmutable {c : Contract} {earlier : List Cell} {v : StateVar}
    {location : Location} (h : placeImmutable c earlier v = .ok location) :
    location.IsImmutable := by
  unfold placeImmutable at h
  split at h
  · split at h <;> cases h
  · obtain ⟨word, -, hlocation⟩ := bind_eq_ok.1 h
    cases hlocation
    trivial
  · cases h
    trivial
  · cases h

/-- **What placing a variable can do**: it is a mapping with the next number, an array or a scalar
at the cursor, or it is in no slot. -/
theorem place_cases {c : Contract} {earlier : List Cell} {cursor next : Word} {v : StateVar}
    {location : Location} (h : place c earlier cursor v = .ok (location, next)) :
    (∃ arity, location = .mapping arity (bucketCount earlier arity) ∧ next = cursor)
      ∨ (location = .array cursor ∧ next = cursor + arrayStride)
      ∨ (location = .scalar cursor ∧ next = cursor + 1)
      ∨ (location.IsImmutable ∧ next = cursor) := by
  unfold place at h
  split at h
  · cases h
    exact Or.inl ⟨_, rfl, rfl⟩
  · obtain ⟨-, -, h⟩ := bind_eq_ok.1 h
    obtain ⟨-, -, h⟩ := bind_eq_ok.1 h
    cases h
    exact Or.inr (Or.inl ⟨rfl, rfl⟩)
  · split at h
    · obtain ⟨found, hfound, h⟩ := bind_eq_ok.1 h
      cases h
      exact Or.inr (Or.inr (Or.inr ⟨placeImmutable_isImmutable hfound, rfl⟩))
    · obtain ⟨-, -, h⟩ := bind_eq_ok.1 h
      cases h
      exact Or.inr (Or.inr (Or.inl ⟨rfl, rfl⟩))

/-- **What a variable takes** lies between the cursor before it and the cursor behind it. -/
structure Fits (earlier : List Cell) (cursor : Word) (location : Location) (next : Word) :
    Prop where
  le_next : cursor.toNat ≤ next.toNat
  next_le : next.toNat ≤ cursor.toNat + 2 ^ 128
  takes : ∀ a, location.Takes a → cursor.toNat ≤ a.toNat ∧ a.toNat < next.toNat
  array : ∀ slot, location = .array slot → slot.toNat + 2 ^ 128 ≤ next.toNat
  bucket : ∀ arity bucket, location = .mapping arity bucket → bucket = bucketCount earlier arity

theorem place_fits {c : Contract} {earlier : List Cell} {cursor next : Word} {v : StateVar}
    {location : Location} (hcursor : cursor.toNat + 2 ^ 128 < 2 ^ 256)
    (h : place c earlier cursor v = .ok (location, next)) :
    Fits earlier cursor location next := by
  rcases place_cases h with ⟨arity, rfl, rfl⟩ | ⟨rfl, rfl⟩ | ⟨rfl, rfl⟩ | ⟨himm, rfl⟩
  · -- a mapping
    refine ⟨Nat.le_refl _, Nat.le_add_right _ _, ?_, ?_, ?_⟩
    · rintro a ⟨⟩
    · rintro slot ⟨⟩
    · rintro arity bucket ⟨⟩
      rfl
  · -- an array
    have hnext : (cursor + arrayStride).toNat = cursor.toNat + 2 ^ 128 := by
      rw [BitVec.toNat_add, toNat_arrayStride]
      omega
    refine ⟨by omega, by omega, ?_, ?_, ?_⟩
    · intro a ha
      cases ha with
      | length => omega
      | element _ index hindex =>
        rw [toNat_element (by omega) hindex, hnext]
        have hle : index.toNat ≤ 2 ^ 128 - 2 := BitVec.le_def.1 hindex
        omega
    · rintro slot ⟨⟩
      omega
    · rintro arity bucket ⟨⟩
  · -- a scalar
    have hnext : (cursor + 1).toNat = cursor.toNat + 1 := by
      have hone : (1 : Word).toNat = 1 := rfl
      rw [BitVec.toNat_add, hone]
      omega
    refine ⟨by omega, by omega, ?_, ?_, ?_⟩
    · rintro a ⟨⟩
      omega
    · rintro slot ⟨⟩
    · rintro arity bucket ⟨⟩
  · -- a variable that is kept elsewhere
    refine ⟨Nat.le_refl _, Nat.le_add_right _ _, ?_, ?_, ?_⟩
    · rintro a ⟨⟩ <;> exact himm.elim
    · rintro slot rfl
      exact himm.elim
    · rintro arity bucket rfl
      exact himm.elim

/-! ## All variables -/

/-- **The cells so far and the cursor behind them.** Slots grow with the cells and are below the
cursor, mappings with as many keys have growing numbers. -/
structure Planned (cells : List Cell) (cursor : Word) : Prop where
  cursor_le : cursor.toNat ≤ cells.length * 2 ^ 128
  below : ∀ cell ∈ cells, ∀ a, cell.location.Takes a → a.toNat < cursor.toNat
  array : ∀ cell ∈ cells, ∀ slot, cell.location = .array slot →
    slot.toNat + 2 ^ 128 ≤ cursor.toNat
  bucket : ∀ cell ∈ cells, ∀ arity bucket, cell.location = .mapping arity bucket →
    bucket < bucketCount cells arity
  apart : cells.Pairwise fun p q => ∀ a b, p.location.Takes a → q.location.Takes b →
    a.toNat < b.toNat
  numbered : cells.Pairwise fun p q => ∀ arity m n, p.location = .mapping arity m →
    q.location = .mapping arity n → m < n

theorem planned_nil : Planned [] 0 :=
  ⟨Nat.le_refl _, by simp, by simp, by simp, .nil, .nil⟩

/-- **One more variable.** -/
theorem Planned.snoc {c : Contract} {earlier : List Cell} {cursor next : Word} {v : StateVar}
    {location : Location} (hplanned : Planned earlier cursor)
    (hcount : earlier.length + 1 < 2 ^ 128)
    (h : place c earlier cursor v = .ok (location, next)) :
    Planned (earlier ++ [{ owner := v, location }]) next := by
  have hcursor := hplanned.cursor_le
  have hfits : Fits earlier cursor location next := place_fits (by omega) h
  have hle := hfits.le_next
  have hnext := hfits.next_le
  refine ⟨?_, ?_, ?_, ?_, ?_, ?_⟩
  · rw [List.length_append, List.length_singleton]
    omega
  · intro cell hcell a ha
    rcases List.mem_append.1 hcell with hcell | hcell
    · have := hplanned.below cell hcell a ha
      omega
    · rw [List.mem_singleton.1 hcell] at ha
      exact (hfits.takes a ha).2
  · intro cell hcell slot hslot
    rcases List.mem_append.1 hcell with hcell | hcell
    · have := hplanned.array cell hcell slot hslot
      omega
    · rw [List.mem_singleton.1 hcell] at hslot
      exact hfits.array slot hslot
  · intro cell hcell arity bucket hbucket
    -- the bucket of the new variable is the number of mappings of its arity so far
    have hgrow : bucketCount (earlier ++ [{ owner := v, location }]) arity
        = bucketCount earlier arity + bucketCount [{ owner := v, location }] arity :=
      List.countP_append
    rcases List.mem_append.1 hcell with hcell | hcell
    · have := hplanned.bucket cell hcell arity bucket hbucket
      omega
    · rw [List.mem_singleton.1 hcell] at hbucket
      have hown : bucketCount [{ owner := v, location }] arity = 1 := by
        have hlocation : location = .mapping arity bucket := hbucket
        simp [bucketCount, hlocation, Location.arity?]
      have := hfits.bucket arity bucket hbucket
      omega
  · refine List.pairwise_append.2 ⟨hplanned.apart, List.pairwise_singleton _ _, ?_⟩
    intro p hp q hq a b ha hb
    rw [List.mem_singleton.1 hq] at hb
    have := hplanned.below p hp a ha
    have := (hfits.takes b hb).1
    omega
  · refine List.pairwise_append.2 ⟨hplanned.numbered, List.pairwise_singleton _ _, ?_⟩
    intro p hp q hq arity m n hm hn
    rw [List.mem_singleton.1 hq] at hn
    have := hplanned.bucket p hp arity m hm
    have := hfits.bucket arity n hn
    omega

/-- **All variables.** -/
theorem placeAll_planned {c : Contract} {vars : List StateVar} {earlier : List Cell} {cursor : Word}
    {layout : Layout} (hplanned : Planned earlier cursor)
    (hcount : earlier.length + vars.length < 2 ^ 128)
    (h : placeAll c earlier cursor vars = .ok layout) : Planned layout.cells layout.next := by
  induction vars generalizing earlier cursor with
  | nil =>
    cases h
    exact hplanned
  | cons v vars ih =>
    obtain ⟨⟨location, next⟩, hplace, hrest⟩ := bind_eq_ok.1 h
    rw [List.length_cons] at hcount
    refine ih (hplanned.snoc (by omega) hplace) ?_ hrest
    rw [List.length_append, List.length_singleton]
    omega

/-- **The layout of a contract.** -/
theorem plan_planned {c : Contract} {layout : Layout} (hcount : c.stateVars.length < 2 ^ 128)
    (h : plan c = .ok layout) : Planned layout.cells layout.next :=
  placeAll_planned planned_nil (by simpa using hcount) h

/-- The variables that are placed get their cells behind those there are, one for each. -/
theorem placeAll_owners {c : Contract} {vars : List StateVar} {earlier : List Cell} {cursor : Word}
    {layout : Layout} (h : placeAll c earlier cursor vars = .ok layout) :
    layout.cells.map Cell.owner = earlier.map Cell.owner ++ vars := by
  induction vars generalizing earlier cursor with
  | nil =>
    cases h
    rw [List.append_nil]
  | cons v vars ih =>
    obtain ⟨_, -, hrest⟩ := bind_eq_ok.1 h
    rw [ih hrest, List.map_append, List.append_assoc]
    rfl

/-- **Every variable has its cell**, in the order of the declarations. -/
theorem plan_owners {c : Contract} {layout : Layout} (h : plan c = .ok layout) :
    layout.cells.map Cell.owner = c.stateVars :=
  placeAll_owners h

end Storage

end Covenant
