import Covenant.Emit.Statements
import Covenant.Proofs.Execution.Locals

/-!
# Variables in code

The locals of a method have their own names in code, and the results of the function stand behind
those of its outermost block (`Locals.coded`). Reading, setting and declaring a local, setting a
result, and beginning and ending a block go the same way on both sides. Whatever a body does to its
locals, those that it found stay (`Locals.Grown`).
-/

namespace Covenant

namespace Table

variable {α : Type}

/-- The names of the entries. -/
def keys (t : Table α) : List String :=
  t.map Prod.fst

/-- Locals under their names in code. -/
def coded (t : Table α) : Table α :=
  t.map fun entry => (Emit.localName entry.1, entry.2)

/-- A table has a name if an entry carries it. -/
theorem has_iff {t : Table α} {name : String} : t.has name ↔ name ∈ t.keys := by
  constructor
  · intro h
    refine Decidable.byContradiction fun hnot => ?_
    have hnone : t.get? name = none := get?_eq_none fun entry hentry hname =>
      hnot (hname ▸ List.mem_map.2 ⟨entry, hentry, rfl⟩)
    rw [has_eq_isSome, hnone] at h
    cases h
  · intro h
    refine Decidable.byContradiction fun hnot => ?_
    obtain ⟨entry, hentry, hname⟩ := List.mem_map.1 h
    exact ne_of_has_eq_false (Bool.eq_false_iff.2 hnot) entry hentry hname

/-- A name is found where an entry carries it. -/
theorem isSome_get? {t : Table α} {name : String} : (t.get? name).isSome ↔ name ∈ t.keys := by
  rw [← has_eq_isSome]
  exact has_iff

/-- Setting a variable adds no name and takes none away. -/
@[simp] theorem keys_set (t : Table α) (name : String) (value : α) :
    (t.set name value).keys = t.keys := by
  induction t with
  | nil => rfl
  | cons entry t ih =>
    unfold keys at ih ⊢
    rw [set]
    split
    · rfl
    · rw [List.map_cons, List.map_cons, ih]

theorem coded_append (t u : Table α) : coded (t ++ u) = t.coded ++ u.coded :=
  List.map_append

/-- Names in code tell locals apart: they are the names themselves, behind a mark. -/
theorem localName_injective {n m : String} (h : Emit.localName n = Emit.localName m) : n = m := by
  simpa [Emit.localName] using h

theorem localName_inj {n m : String} : Emit.localName n = Emit.localName m ↔ n = m :=
  ⟨localName_injective, congrArg Emit.localName⟩

section Behind

variable {t behind : Table α} {name : String}

/-- A local is read under its name in code, if the results behind have no name of that form. -/
theorem get?_coded (h : ∀ n, Emit.localName n ∉ behind.keys) :
    get? (t.coded ++ behind) (Emit.localName name) = t.get? name := by
  induction t with
  | nil => exact Option.not_isSome_iff_eq_none.1 (mt isSome_get?.1 (h name))
  | cons entry t ih =>
    obtain ⟨n, a⟩ := entry
    rw [coded] at ih
    simp only [coded, List.map_cons, List.cons_append, get?_cons, localName_inj, ih]

/-- Setting a local under its name in code sets the local, and leaves what stands behind. -/
theorem set_coded (h : ∀ n, Emit.localName n ∉ behind.keys) (value : α) :
    set (t.coded ++ behind) (Emit.localName name) value = (t.set name value).coded ++ behind := by
  induction t with
  | nil =>
    exact set_eq_self value fun entry hentry hname =>
      h name (hname ▸ List.mem_map.2 ⟨entry, hentry, rfl⟩)
  | cons entry t ih =>
    obtain ⟨n, a⟩ := entry
    rw [coded] at ih
    simp only [coded, List.map_cons, List.cons_append, set, localName_inj, ih]
    split
    · rfl
    · rfl

/-- A name of another form is the name of no local in code. -/
theorem coded_ne (hname : ∀ n, Emit.localName n ≠ name) : ∀ entry ∈ t.coded, entry.1 ≠ name := by
  intro entry hentry
  obtain ⟨other, -, rfl⟩ := List.mem_map.1 hentry
  exact hname other.1

end Behind

end Table

namespace Locals

variable {α : Type}

/-- Blocks in code: results stand behind the locals of the last one. -/
def codedBlocks (results : Table α) : List (Table α) → List (Table α)
  | [] => []
  | block :: rest => (block.coded ++ if rest.isEmpty then results else [])
      :: codedBlocks results rest

/-- **The variables of a function**: the locals of its method, and its results behind them. -/
def coded (results : Table α) (l : Locals α) : Locals α where
  inner := l.inner.coded ++ if l.outer.isEmpty then results else []
  outer := codedBlocks results l.outer

section Coded

variable {results : Table α} {l : Locals α} {name : String}

theorem codedBlocks_cons_cons (results block next : Table α) (rest : List (Table α)) :
    codedBlocks results (block :: next :: rest)
      = block.coded :: codedBlocks results (next :: rest) := by
  rw [codedBlocks, List.isEmpty_cons, if_neg Bool.false_ne_true, List.append_nil]

/-- All blocks in code, one behind the other: the locals from the inside out, and the results at the
end. -/
theorem flatten_codedBlocks (results : Table α) (block : Table α) (rest : List (Table α)) :
    (codedBlocks results (block :: rest)).flatten
      = Table.coded (block :: rest).flatten ++ results := by
  induction rest generalizing block with
  | nil => simp [codedBlocks]
  | cons next rest ih =>
    rw [codedBlocks_cons_cons, List.flatten_cons, ih next, ← List.append_assoc,
      ← Table.coded_append, ← List.flatten_cons]

/-- The variables of a function in the order in which they are looked up. -/
theorem entries_coded (results : Table α) (l : Locals α) :
    (l.coded results).entries = l.entries.coded ++ results :=
  flatten_codedBlocks results l.inner l.outer

/-- Locals of a function are read as those of its method. -/
theorem get?_coded (h : ∀ n, Emit.localName n ∉ results.keys) :
    (l.coded results).get? (Emit.localName name) = l.get? name := by
  have hget := @Table.get?_coded _ l.entries _ name h
  rwa [← entries_coded] at hget

/-- A result is found behind all locals, as it is none of them. -/
theorem get?_coded_result (hname : ∀ n, Emit.localName n ≠ name) :
    (l.coded results).get? name = results.get? name := by
  have hget := Table.get?_append l.entries.coded results name
  rw [Table.get?_eq_none (Table.coded_ne hname), Option.none_or, ← entries_coded] at hget
  exact hget

/-- The innermost local of a name is set on both sides, by induction on the blocks. -/
theorem setFirst_coded (h : ∀ n, Emit.localName n ∉ results.keys) (value : α)
    (blocks : List (Table α)) :
    setFirst (Emit.localName name) value (codedBlocks results blocks)
      = codedBlocks results (setFirst name value blocks) := by
  induction blocks with
  | nil => rfl
  | cons block rest ih =>
    have hempty : (setFirst name value rest).isEmpty = rest.isEmpty := by
      cases rest <;> rfl
    have hbehind : ∀ n, Emit.localName n ∉ Table.keys (if rest.isEmpty then results else []) := by
      intro n
      split
      · exact h n
      · exact List.not_mem_nil
    have hhas : Table.has (block.coded ++ if rest.isEmpty then results else [])
        (Emit.localName name) = block.has name := by
      rw [Table.has_eq_isSome, Table.get?_coded hbehind, Table.has_eq_isSome]
    rw [codedBlocks, setFirst, setFirst, codedBlocks, Table.set_coded hbehind, hhas, ih]
    by_cases hblock : block.has name
    · rw [if_pos hblock, if_pos hblock]
    · rw [if_neg hblock, if_neg hblock, hempty]

/-- Setting a local. -/
theorem coded_set (h : ∀ n, Emit.localName n ∉ results.keys) (value : α) :
    (l.set name value).coded results = (l.coded results).set (Emit.localName name) value := by
  have hblocks := @setFirst_coded _ _ name h value (l.inner :: l.outer)
  obtain ⟨hinner, houter⟩ := List.cons.inj hblocks
  exact congr (congrArg Locals.mk hinner.symm) houter.symm

/-- Setting a result passes over every block of locals. -/
theorem setFirst_result (hname : ∀ n, Emit.localName n ≠ name) (value : α)
    (blocks : List (Table α)) :
    setFirst name value (codedBlocks results blocks)
      = codedBlocks (results.set name value) blocks := by
  induction blocks with
  | nil => rfl
  | cons block rest ih =>
    have hne := Table.coded_ne (t := block) hname
    cases rest with
    | nil =>
      rw [codedBlocks, codedBlocks, setFirst]
      simp [Table.set_append hne, codedBlocks, setFirst]
    | cons next rest =>
      have hnone : Table.has block.coded name = false := by
        rw [Table.has_eq_isSome, Table.get?_eq_none hne]
        rfl
      rw [codedBlocks_cons_cons, codedBlocks_cons_cons, setFirst, ih, hnone,
        Table.set_eq_self value hne, if_neg Bool.false_ne_true]

/-- Setting a result. -/
theorem coded_set_result (hname : ∀ n, Emit.localName n ≠ name) (value : α) :
    (l.coded results).set name value = l.coded (results.set name value) := by
  have hblocks := @setFirst_result _ results _ hname value (l.inner :: l.outer)
  obtain ⟨hinner, houter⟩ := List.cons.inj hblocks
  exact congr (congrArg Locals.mk hinner) houter

/-- A declaration in the innermost block goes the same way on both sides. -/
theorem coded_declare (results : Table α) (l : Locals α) (name : String) (value : α) :
    (l.declare name value).coded results
      = (l.coded results).declareAll [(Emit.localName name, value)] := rfl

/-- A block that begins is empty on both sides. -/
theorem coded_enter (results : Table α) (l : Locals α) :
    l.enter.coded results = (l.coded results).enter := rfl

/-- A block that ends is not the outermost one, so the results stay. -/
theorem coded_leave (results : Table α) (h : l.outer ≠ []) :
    l.leave.coded results = (l.coded results).leave := by
  obtain ⟨inner, outer⟩ := l
  cases outer with
  | nil => exact absurd rfl h
  | cons block rest => rfl

end Coded

/-! ## Names that stay -/

/-- **Locals were set or declared**: the blocks around the innermost one have the names they had,
and the innermost one has those it had and maybe more. -/
structure Grown (l l' : Locals α) : Prop where
  inner : ∀ name ∈ l.inner.keys, name ∈ l'.inner.keys
  outer : l'.outer.map Table.keys = l.outer.map Table.keys

namespace Grown

variable {l l' l'' : Locals α} {name : String}

theorem refl (l : Locals α) : Grown l l :=
  ⟨fun _ h => h, rfl⟩

/-- Steps that keep the locals may follow each other. -/
theorem trans (h : Grown l l') (h' : Grown l' l'') : Grown l l'' :=
  ⟨fun name hname => h'.inner name (h.inner name hname), h'.outer.trans h.outer⟩

/-- A declaration hides what it shares a name with, and removes nothing. -/
theorem declare (l : Locals α) (name : String) (value : α) : Grown l (l.declare name value) :=
  ⟨fun _ h => List.mem_cons_of_mem _ h, rfl⟩

theorem map_keys_setFirst (name : String) (value : α) (blocks : List (Table α)) :
    (setFirst name value blocks).map Table.keys = blocks.map Table.keys := by
  induction blocks with
  | nil => rfl
  | cons block rest ih =>
    rw [setFirst, List.map_cons, List.map_cons, Table.keys_set]
    split
    · rfl
    · rw [ih]

/-- An assignment keeps every name where it is. -/
theorem set (l : Locals α) (name : String) (value : α) : Grown l (l.set name value) where
  inner other h := by
    rw [Locals.set, Table.keys_set]
    exact h
  outer := by
    rw [Locals.set]
    dsimp only
    split
    · rfl
    · exact map_keys_setFirst name value l.outer

/-- Where there is a block around, there still is one. -/
theorem outer_ne_nil (h : Grown l l') (hl : l.outer ≠ []) : l'.outer ≠ [] := by
  intro hnil
  have houter := h.outer
  rw [hnil, List.map_nil] at houter
  exact hl (List.map_eq_nil_iff.1 houter.symm)

/-- What a block declares is gone with it. -/
theorem leave (h : Grown l.enter l') : Grown l l'.leave := by
  obtain ⟨inner, outer⟩ := l'
  have houter := h.outer
  cases outer with
  | nil => cases houter
  | cons block rest =>
    rw [Locals.enter, List.map_cons, List.map_cons, List.cons.injEq] at houter
    exact ⟨fun name hname => houter.1 ▸ hname, houter.2⟩

theorem isSome_get? {l : Locals α} : (l.get? name).isSome ↔
    name ∈ l.inner.keys ∨ name ∈ (l.outer.map Table.keys).flatten := by
  rw [get?, Table.isSome_get?, Table.keys, List.map_append, List.mem_append, List.map_flatten]
  rfl

/-- **A local that is there stays there**, perhaps with another value. -/
theorem get? (h : Grown l l') (hname : (l.get? name).isSome) : (l'.get? name).isSome := by
  rw [isSome_get?] at hname ⊢
  rw [h.outer]
  exact hname.imp_left (h.inner name)

end Grown

end Locals

end Covenant
