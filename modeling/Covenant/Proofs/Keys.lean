import Covenant.Emit.Functions
import Mathlib.Data.List.Nodup

/-!
# Items told apart by a key

Members of a contract, and functions of its code, are told apart by their names. Where no key comes
twice, an item is found by its key (`find?_key_iff`). Where one does, the first item of each key is
kept (`firstByKey`): what is put behind other items is kept as far as its keys are new there
(`firstByKey_append`).
-/

namespace Covenant

variable {α β : Type} {key : α → String}

/-- Where no key comes twice, the item of a key is the one that is found. -/
theorem find?_key_iff {items : List α} (hkeys : (items.map key).Nodup) {k : String} {a : α} :
    items.find? (key · = k) = some a ↔ a ∈ items ∧ key a = k := by
  constructor
  · intro h
    exact ⟨List.mem_of_find?_eq_some h, by simpa using List.find?_some h⟩
  · rintro ⟨ha, rfl⟩
    obtain ⟨found, hfound⟩ : ∃ found, items.find? (key · = key a) = some found :=
      Option.isSome_iff_exists.1 (List.find?_isSome.2 ⟨a, ha, by simp⟩)
    have hkey : key found = key a := by simpa using List.find?_some hfound
    rw [hfound, List.inj_on_of_nodup_map hkeys (List.mem_of_find?_eq_some hfound) ha hkey]

/-- Where no key comes twice, one item has the key of an item. -/
theorem filter_key_eq {items : List α} (hkeys : (items.map key).Nodup) {a : α} (ha : a ∈ items) :
    items.filter (key · = key a) = [a] := by
  induction items with
  | nil => cases ha
  | cons b rest ih =>
    rw [List.map_cons, List.nodup_cons] at hkeys
    rcases List.mem_cons.1 ha with rfl | ha
    · have hothers : rest.filter (key · = key a) = [] := by
        refine List.filter_eq_nil_iff.2 fun c hc hkey => hkeys.1 ?_
        exact of_decide_eq_true hkey ▸ List.mem_map_of_mem hc
      rw [List.filter_cons_of_pos (by simp), hothers]
    · have hb : key b ≠ key a := fun heq => hkeys.1 (heq ▸ List.mem_map_of_mem ha)
      rw [List.filter_cons_of_neg (by simpa using hb), ih hkeys.2 ha]

/-- Only the first of several equal items is kept. -/
theorem nodup_eraseDups [BEq α] [LawfulBEq α] (items : List α) : items.eraseDups.Nodup := by
  obtain ⟨size, hsize⟩ : ∃ size, size = items.length := ⟨_, rfl⟩
  induction size using Nat.strongRecOn generalizing items with
  | ind size ih =>
    cases items with
    | nil => exact List.nodup_nil
    | cons a rest =>
      have hshorter : (rest.filter fun b => !b == a).length < size := by
        have hle := List.length_filter_le (fun b => !b == a) rest
        rw [hsize, List.length_cons]
        omega
      rw [List.eraseDups_cons, List.nodup_cons]
      exact ⟨by simp [List.mem_eraseDups], ih _ hshorter _ rfl⟩

/-- Items that are numbered may lose their numbers again. -/
theorem map_mapIdx {γ : Type} {f : Nat → α → β} {g : β → γ} {h : α → γ}
    (hf : ∀ i a, g (f i a) = h a) (items : List α) : (items.mapIdx f).map g = items.map h := by
  refine List.ext_getElem (by simp) fun i hi hi' => ?_
  simp [hf]

namespace Emit

/-! ## The first item of each key -/

/-- Keeping goes on behind what is kept already: only items of new keys are added. -/
theorem foldl_firstByKey (key : α → String) (kept items : List α) :
    items.foldl (fun kept a => if kept.any (key · = key a) then kept else kept ++ [a]) kept =
      kept ++ (firstByKey key items).filter fun a => key a ∉ kept.map key := by
  induction items generalizing kept with
  | nil => simp [firstByKey]
  | cons a rest ih =>
    have hfirst : firstByKey key (a :: rest) =
        a :: (firstByKey key rest).filter fun b => key b ≠ key a := by
      rw [firstByKey, List.foldl_cons, List.any_nil, if_neg Bool.false_ne_true, List.nil_append, ih]
      simp
    have hseen : kept.any (key · = key a) = true ↔ key a ∈ kept.map key := by
      simp
    rw [List.foldl_cons, ih, hfirst]
    by_cases ha : key a ∈ kept.map key
    · -- an item of a key that is there is passed over, and so are all others of its key
      rw [if_pos (hseen.2 ha), List.filter_cons_of_neg (by simpa using ha), List.filter_filter]
      congr 1
      refine List.filter_congr fun b _ => ?_
      by_cases hb : key b = key a
      · simp [hb, ha]
      · simp [hb]
    · rw [if_neg (fun h => ha (hseen.1 h)), List.filter_cons_of_pos (by simpa using ha),
        List.filter_filter, List.append_assoc, List.singleton_append]
      congr 2
      refine List.filter_congr fun b _ => ?_
      simp only [List.map_append, List.map_cons, List.map_nil, List.mem_append, List.mem_singleton,
        not_or, Bool.decide_and]

@[simp] theorem firstByKey_nil : firstByKey key [] = [] :=
  rfl

theorem firstByKey_cons (a : α) (rest : List α) :
    firstByKey key (a :: rest) = a :: (firstByKey key rest).filter fun b => key b ≠ key a := by
  have h := foldl_firstByKey key [a] rest
  rw [List.singleton_append, List.map_singleton] at h
  simpa [firstByKey] using h

/-- **No key is kept twice.** -/
theorem nodup_firstByKey (items : List α) : ((firstByKey key items).map key).Nodup := by
  induction items with
  | nil => exact List.nodup_nil
  | cons a rest ih =>
    rw [firstByKey_cons, List.map_cons, List.nodup_cons]
    refine ⟨fun h => ?_, ih.sublist (List.filter_sublist.map key)⟩
    obtain ⟨b, hb, hkey⟩ := List.mem_map.1 h
    exact absurd hkey (by simpa using (List.mem_filter.1 hb).2)

/-- The item that is kept of a key is the first of it. -/
theorem find?_firstByKey (items : List α) (k : String) :
    (firstByKey key items).find? (key · = k) = items.find? (key · = k) := by
  induction items with
  | nil => rfl
  | cons a rest ih =>
    rw [firstByKey_cons, List.find?_cons, List.find?_cons]
    by_cases ha : key a = k
    · simp [ha]
    · simp only [ha, decide_false]
      rw [← ih, List.find?_filter]
      congr 1
      funext b
      by_cases hb : key b = k
      · simp [hb, Ne.symm ha]
      · simp [hb]

/-- Every key stays. -/
theorem mem_keys_firstByKey {items : List α} {k : String} :
    k ∈ (firstByKey key items).map key ↔ k ∈ items.map key := by
  have hfind (l : List α) : k ∈ l.map key ↔ (l.find? (key · = k)).isSome := by
    simp
  rw [hfind, hfind, find?_firstByKey]

/-- Nothing is left out where no key comes twice. -/
theorem firstByKey_of_nodup {items : List α} (h : (items.map key).Nodup) :
    firstByKey key items = items := by
  induction items with
  | nil => rfl
  | cons a rest ih =>
    rw [List.map_cons, List.nodup_cons] at h
    rw [firstByKey_cons, ih h.2, List.filter_eq_self.2]
    intro b hb
    have hkey : key b ≠ key a := fun heq => h.1 (List.mem_map.2 ⟨b, hb, heq⟩)
    simpa using hkey

/-- **What stands behind other items is kept as far as its keys are new there.** -/
theorem firstByKey_append (items more : List α) :
    firstByKey key (items ++ more) =
      firstByKey key items ++ (firstByKey key more).filter fun a => key a ∉ items.map key := by
  have h := foldl_firstByKey key (firstByKey key items) more
  rw [firstByKey, List.foldl_append]
  refine h.trans (congrArg _ (List.filter_congr fun a _ => ?_))
  simp only [mem_keys_firstByKey]

/-- It makes no difference whether the keys of what stands behind were looked at before. -/
theorem firstByKey_append_firstByKey (items more : List α) :
    firstByKey key (items ++ firstByKey key more) = firstByKey key (items ++ more) := by
  rw [firstByKey_append, firstByKey_append, firstByKey_of_nodup (nodup_firstByKey more)]

/-- What was kept already may stand in front as it is. -/
theorem firstByKey_firstByKey_append (items more : List α) :
    firstByKey key (firstByKey key items ++ more) = firstByKey key (items ++ more) := by
  rw [firstByKey_append, firstByKey_append, firstByKey_of_nodup (nodup_firstByKey items)]
  simp only [mem_keys_firstByKey]

/-- **What is kept stands in the order in which its keys come first.** -/
theorem pairwise_firstByKey (items : List α) :
    (firstByKey key items).Pairwise fun a b =>
      (items.map key).idxOf (key a) < (items.map key).idxOf (key b) := by
  induction items with
  | nil => exact .nil
  | cons first rest ih =>
    rw [firstByKey_cons, List.pairwise_cons]
    have hnew {a : α} (ha : a ∈ (firstByKey key rest).filter fun b => key b ≠ key first) :
        key first ≠ key a :=
      Ne.symm (by simpa using (List.mem_filter.1 ha).2)
    constructor
    · intro b hb
      rw [List.map_cons, List.idxOf_cons_self, List.idxOf_cons_ne _ (hnew hb)]
      exact Nat.succ_pos _
    · refine (ih.filter _).imp_of_mem fun ha hb hlt => ?_
      rw [List.map_cons, List.idxOf_cons_ne _ (hnew ha), List.idxOf_cons_ne _ (hnew hb)]
      exact Nat.succ_lt_succ hlt

/-- Items may be changed in all but their keys. -/
theorem firstByKey_map {f : α → α} (hf : ∀ a, key (f a) = key a) (items : List α) :
    firstByKey key (items.map f) = (firstByKey key items).map f := by
  induction items with
  | nil => rfl
  | cons a rest ih =>
    rw [List.map_cons, firstByKey_cons, firstByKey_cons, ih, List.map_cons, List.filter_map]
    simp only [Function.comp_def, hf]

end Emit

end Covenant
