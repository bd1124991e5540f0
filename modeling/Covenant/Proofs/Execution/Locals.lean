import Covenant.Resolve.Scope

/-!
# Local variables in nested blocks

The local variables of a run, block by block. A name means its latest declaration in the nearest
block; leaving a block forgets what was declared in it. The last section is about names that are
kept out of sight: what is left in view is again a nest of blocks, and every operation on a name in
view can be read there.
-/

namespace Covenant

namespace Table

variable {α : Type}

/-- Gives the latest entry of a name another value; a name without an entry gets none. -/
def set (t : Table α) (name : String) (value : α) : Table α :=
  match t with
  | [] => []
  | (n, a) :: rest => if n = name then (n, value) :: rest else (n, a) :: set rest name value

/-- The entries of the names that are in view. -/
def visible (hidden : String → Bool) (t : Table α) : Table α :=
  t.filter fun entry => !hidden entry.1

theorem has_eq_isSome (t : Table α) (name : String) : t.has name = (t.get? name).isSome :=
  rfl

theorem get?_cons (t : Table α) (n name : String) (a : α) :
    get? ((n, a) :: t) name = if name = n then some a else get? t name := by
  by_cases h : name = n
  · simp [get?, h]
  · have hne : (name == n) = false := beq_eq_false_iff_ne.2 h
    simp [get?, List.lookup_cons, hne, h]

/-- The first table that has a name decides. -/
theorem get?_append (t u : Table α) (name : String) :
    get? (t ++ u) name = (t.get? name).or (u.get? name) := by
  simp [get?, List.lookup_append]

/-- A name that no entry has is not found. -/
theorem get?_eq_none {t : Table α} {name : String} (h : ∀ entry ∈ t, entry.1 ≠ name) :
    t.get? name = none := by
  induction t with
  | nil => rfl
  | cons entry t ih =>
    obtain ⟨n, a⟩ := entry
    have hn : name ≠ n := fun he => h (n, a) List.mem_cons_self he.symm
    rw [get?_cons, if_neg hn]
    exact ih fun e he => h e (List.mem_cons_of_mem _ he)

/-- What is found is an entry. -/
theorem mem_of_get? {t : Table α} {name : String} {a : α} (h : t.get? name = some a) :
    (name, a) ∈ t := by
  induction t with
  | nil => cases h
  | cons entry t ih =>
    obtain ⟨n, b⟩ := entry
    rw [get?_cons] at h
    split at h
    · rename_i hname
      cases h
      exact hname ▸ List.mem_cons_self
    · exact List.mem_cons_of_mem _ (ih h)

/-- Where all names differ, every entry is found. -/
theorem get?_of_mem {t : Table α} {name : String} {a : α} (hnames : (t.map Prod.fst).Nodup)
    (h : (name, a) ∈ t) : t.get? name = some a := by
  induction t with
  | nil => cases h
  | cons entry t ih =>
    obtain ⟨n, b⟩ := entry
    rw [List.map_cons, List.nodup_cons] at hnames
    rw [get?_cons]
    rcases List.mem_cons.1 h with heq | hmem
    · cases heq
      rw [if_pos rfl]
    · have hne : name ≠ n := by
        rintro rfl
        exact hnames.1 (List.mem_map.2 ⟨_, hmem, rfl⟩)
      rw [if_neg hne, ih hnames.2 hmem]

theorem get?_set_of_ne (t : Table α) {n name : String} (value : α) (h : name ≠ n) :
    (set t n value).get? name = t.get? name := by
  induction t with
  | nil => rfl
  | cons entry t ih =>
    obtain ⟨k, a⟩ := entry
    rw [set]
    split
    · rename_i hk
      rw [get?_cons, get?_cons, hk, if_neg h, if_neg h]
    · rw [get?_cons, get?_cons, ih]

/-- What was set is read. -/
theorem get?_set_self (t : Table α) {name : String} (value : α) (h : t.has name) :
    (set t name value).get? name = some value := by
  induction t with
  | nil => cases h
  | cons entry t ih =>
    obtain ⟨n, a⟩ := entry
    rw [set]
    split
    · rename_i hn
      rw [get?_cons, if_pos hn.symm]
    · rename_i hn
      rw [has_eq_isSome, get?_cons, if_neg (Ne.symm hn)] at h
      rw [get?_cons, if_neg (Ne.symm hn), ih h]

/-- Setting a name that is in front does not reach what stands behind. -/
theorem set_append_of_has {t u : Table α} {name : String} {value : α} (h : t.has name) :
    set (t ++ u) name value = set t name value ++ u := by
  induction t with
  | nil => cases h
  | cons entry t ih =>
    obtain ⟨n, a⟩ := entry
    rw [List.cons_append, set, set]
    split
    · rfl
    · rename_i hn
      rw [has_eq_isSome, get?_cons, if_neg (Ne.symm hn)] at h
      rw [ih h]
      rfl

theorem ne_of_has_eq_false {t : Table α} {name : String} (h : t.has name = false) :
    ∀ entry ∈ t, entry.1 ≠ name := by
  intro entry hentry
  induction t with
  | nil => cases hentry
  | cons first t ih =>
    obtain ⟨n, a⟩ := first
    rw [has_eq_isSome, get?_cons] at h
    split at h
    · cases h
    · rename_i hne
      rcases List.mem_cons.1 hentry with rfl | hentry
      · exact Ne.symm hne
      · exact ih h hentry

/-- Setting a name that has no entry does nothing. -/
theorem set_eq_self {t : Table α} {name : String} (value : α)
    (h : ∀ entry ∈ t, entry.1 ≠ name) : set t name value = t := by
  induction t with
  | nil => rfl
  | cons entry t ih =>
    obtain ⟨n, a⟩ := entry
    rw [set, if_neg (h (n, a) List.mem_cons_self), ih fun e he => h e (List.mem_cons_of_mem _ he)]

/-- Setting a name that is not in front reaches what stands behind. -/
theorem set_append {t u : Table α} {name : String} {value : α}
    (h : ∀ entry ∈ t, entry.1 ≠ name) : set (t ++ u) name value = t ++ set u name value := by
  induction t with
  | nil => rfl
  | cons entry t ih =>
    obtain ⟨n, a⟩ := entry
    have hn : n ≠ name := h (n, a) List.mem_cons_self
    rw [List.cons_append, set, if_neg hn, ih fun e he => h e (List.mem_cons_of_mem _ he)]
    rfl

theorem visible_cons (hidden : String → Bool) (t : Table α) (n : String) (a : α) :
    visible hidden ((n, a) :: t)
      = if hidden n then visible hidden t else (n, a) :: visible hidden t := by
  by_cases h : hidden n <;> simp [visible, h]

/-- A name in view is found among the entries in view. -/
theorem get?_visible {hidden : String → Bool} {name : String} (t : Table α)
    (h : hidden name = false) : (visible hidden t).get? name = t.get? name := by
  induction t with
  | nil => rfl
  | cons entry t ih =>
    obtain ⟨n, a⟩ := entry
    rw [visible_cons, get?_cons]
    by_cases hn : name = n
    · subst hn
      simp [h, get?_cons]
    · by_cases hh : hidden n
      · simp [hh, hn, ih]
      · simp [hh, hn, get?_cons, ih]

/-- Setting a name in view is setting it among the entries in view. -/
theorem visible_set {hidden : String → Bool} {name : String} (t : Table α) (value : α)
    (h : hidden name = false) :
    visible hidden (set t name value) = set (visible hidden t) name value := by
  induction t with
  | nil => rfl
  | cons entry t ih =>
    obtain ⟨n, a⟩ := entry
    by_cases hn : n = name
    · subst hn
      simp [set, visible_cons, h]
    · by_cases hh : hidden n
      · simp [set, visible_cons, hn, hh, ih]
      · simp [set, visible_cons, hn, hh, ih]

end Table

/-- **The local variables of a run**: those of the innermost block, and those of the blocks around
it, nearer ones first. -/
structure Locals (α : Type) where
  inner : Table α := []
  outer : List (Table α) := []

namespace Locals

variable {α : Type}

/-- The value of a name. -/
def get? (l : Locals α) (name : String) : Option α :=
  Table.get? (l.inner ++ l.outer.flatten) name

/-- Declares a name in the innermost block. -/
def declare (l : Locals α) (name : String) (value : α) : Locals α :=
  { l with inner := l.inner.put name value }

/-- Gives a name another value in the first of several blocks that has it. -/
def setFirst (name : String) (value : α) : List (Table α) → List (Table α)
  | [] => []
  | block :: rest =>
    block.set name value :: if block.has name then rest else setFirst name value rest

/-- **Gives a name another value** in the nearest block that has it. -/
def set (l : Locals α) (name : String) (value : α) : Locals α :=
  { inner := l.inner.set name value
    outer := if l.inner.has name then l.outer else setFirst name value l.outer }

/-- Begins a block. -/
def enter (l : Locals α) : Locals α :=
  { inner := [], outer := l.inner :: l.outer }

/-- Ends a block. -/
def leave (l : Locals α) : Locals α :=
  match l.outer with
  | [] => {}
  | block :: rest => { inner := block, outer := rest }

/-- Declares the names of a table in the innermost block. -/
def declareAll (l : Locals α) (added : Table α) : Locals α :=
  { l with inner := added ++ l.inner }

/-- **What is left in view** when some names are hidden. -/
def visible (hidden : String → Bool) (l : Locals α) : Locals α :=
  { inner := l.inner.visible hidden, outer := l.outer.map (Table.visible hidden) }

theorem declareAll_declareAll (l : Locals α) (added more : Table α) :
    (l.declareAll added).declareAll more = l.declareAll (more ++ added) := by
  simp [declareAll]

/-- All entries, nearer ones first. -/
def entries (l : Locals α) : Table α :=
  l.inner ++ l.outer.flatten

theorem flatten_setFirst (name : String) (value : α) (blocks : List (Table α)) :
    (setFirst name value blocks).flatten = Table.set blocks.flatten name value := by
  induction blocks with
  | nil => rfl
  | cons block rest ih =>
    rw [setFirst, List.flatten_cons, List.flatten_cons]
    by_cases hb : block.has name
    · rw [if_pos hb, Table.set_append_of_has hb]
    · have hnone := Table.ne_of_has_eq_false (Bool.eq_false_iff.2 hb)
      rw [if_neg hb, ih, Table.set_append hnone, Table.set_eq_self value hnone]

/-- Setting a name is setting its nearest entry. -/
theorem entries_set (l : Locals α) (name : String) (value : α) :
    (l.set name value).entries = l.entries.set name value :=
  flatten_setFirst name value (l.inner :: l.outer)

theorem get?_set_self {l : Locals α} {name : String} {a : α} (value : α)
    (h : l.get? name = some a) : (l.set name value).get? name = some value := by
  have hhas : l.entries.has name = true := by
    rw [Table.has_eq_isSome]
    exact Option.isSome_iff_exists.2 ⟨a, h⟩
  have hset := Table.get?_set_self l.entries value hhas
  rwa [← entries_set] at hset

theorem get?_set_of_ne (l : Locals α) {n name : String} (value : α) (h : name ≠ n) :
    (l.set n value).get? name = l.get? name := by
  have hset := Table.get?_set_of_ne l.entries value h
  rwa [← entries_set] at hset

@[simp] theorem get?_enter (l : Locals α) (name : String) : l.enter.get? name = l.get? name := by
  simp [get?, enter]

/-- What is declared hides what was there. -/
theorem get?_declareAll (l : Locals α) (added : Table α) (name : String) :
    (l.declareAll added).get? name = (added.get? name).or (l.get? name) := by
  simp only [get?, declareAll, List.append_assoc]
  exact Table.get?_append _ _ _

/-- A name that was not declared since means what it meant. -/
theorem get?_declareAll_of_not_mem {l : Locals α} {added : Table α} {name : String}
    (h : ∀ entry ∈ added, entry.1 ≠ name) : (l.declareAll added).get? name = l.get? name := by
  rw [get?_declareAll, Table.get?_eq_none h, Option.none_or]

/-- A variable declared in front of a block and set within it, behind other declarations: what is
left is a declaration of the value it was set to. -/
theorem leave_set_declareAll_enter {l : Locals α} {added : Table α} {name : String} {a b : α}
    (h : ∀ entry ∈ added, entry.1 ≠ name) :
    (((l.declare name a).enter.declareAll added).set name b).leave = l.declare name b := by
  have hnone : Table.has (added ++ []) name = false := by
    rw [List.append_nil, Table.has_eq_isSome, Table.get?_eq_none h]
    rfl
  have hfront : Table.set ((name, a) :: l.inner) name b = (name, b) :: l.inner := by
    rw [Table.set, if_pos rfl]
  have hhas : Table.has ((name, a) :: l.inner) name = true := by
    rw [Table.has_eq_isSome, Table.get?_cons, if_pos rfl]
    rfl
  simp only [declare, enter, declareAll, set, hnone, Table.put, setFirst, hfront, hhas, leave]
  rfl

/-- The latest declaration of a name counts. -/
theorem get?_declare_self (l : Locals α) (name : String) (value : α) :
    (l.declare name value).get? name = some value := by
  rw [get?, declare, Table.put, List.cons_append, Table.get?_cons, if_pos rfl]

/-- **The variables a function starts with**: its parameters, and a result behind them. -/
theorem get?_zip_append {names : List String} {values : List α} {last name : String} {a b : α}
    (hlength : names.length = values.length) (hnames : (names ++ [last]).Nodup)
    (h : (name, a) ∈ names.zip values ++ [(last, b)]) :
    get? { inner := names.zip values ++ [(last, b)] } name = some a := by
  have hall : ((names.zip values ++ [(last, b)]).map Prod.fst).Nodup := by
    rw [List.map_append, List.map_fst_zip (Nat.le_of_eq hlength)]
    exact hnames
  refine (Table.get?_append _ [] name).trans ?_
  rw [Table.get?_of_mem hall h]
  rfl

/-! ## Names kept out of sight -/

theorem get?_visible {hidden : String → Bool} {name : String} (l : Locals α)
    (h : hidden name = false) : (l.visible hidden).get? name = l.get? name := by
  have hflat : (l.visible hidden).inner ++ (l.visible hidden).outer.flatten
      = Table.visible hidden (l.inner ++ l.outer.flatten) := by
    simp only [visible, Table.visible, List.filter_append, List.filter_flatten]
    rfl
  rw [get?, hflat, Table.get?_visible _ h]
  rfl

theorem visible_declare {hidden : String → Bool} {name : String} (l : Locals α) (value : α)
    (h : hidden name = false) :
    (l.declare name value).visible hidden = (l.visible hidden).declare name value := by
  simp [visible, declare, Table.put, Table.visible_cons, h]

theorem visible_setFirst {hidden : String → Bool} {name : String} (blocks : List (Table α))
    (value : α) (h : hidden name = false) :
    (setFirst name value blocks).map (Table.visible hidden)
      = setFirst name value (blocks.map (Table.visible hidden)) := by
  induction blocks with
  | nil => rfl
  | cons block rest ih =>
    have hhas : (Table.visible hidden block).has name = block.has name := by
      simp [Table.has_eq_isSome, Table.get?_visible _ h]
    by_cases hb : block.has name
    · simp [setFirst, hb, hhas, Table.visible_set _ _ h]
    · simp [setFirst, hb, hhas, Table.visible_set _ _ h, ih]

theorem visible_set {hidden : String → Bool} {name : String} (l : Locals α) (value : α)
    (h : hidden name = false) :
    (l.set name value).visible hidden = (l.visible hidden).set name value := by
  have hhas : (Table.visible hidden l.inner).has name = l.inner.has name := by
    simp [Table.has_eq_isSome, Table.get?_visible _ h]
  by_cases hb : l.inner.has name
  · simp [set, visible, hb, hhas, Table.visible_set _ _ h]
  · simp [set, visible, hb, hhas, Table.visible_set _ _ h, visible_setFirst _ _ h]

@[simp] theorem visible_enter (hidden : String → Bool) (l : Locals α) :
    l.enter.visible hidden = (l.visible hidden).enter := by
  simp [visible, enter, Table.visible]

@[simp] theorem visible_leave (hidden : String → Bool) (l : Locals α) :
    l.leave.visible hidden = (l.visible hidden).leave := by
  obtain ⟨inner, outer⟩ := l
  cases outer with
  | nil => rfl
  | cons block rest => rfl

/-- Hidden names leave no mark on what is in view. -/
theorem visible_declareAll {hidden : String → Bool} {added : Table α} (l : Locals α)
    (h : ∀ entry ∈ added, hidden entry.1 = true) :
    (l.declareAll added).visible hidden = l.visible hidden := by
  have hnone : Table.visible hidden added = [] := by
    simp only [Table.visible, List.filter_eq_nil_iff]
    intro entry hentry
    simp [h entry hentry]
  simp only [visible, declareAll]
  rw [Table.visible, List.filter_append]
  change { inner := Table.visible hidden added ++ Table.visible hidden l.inner,
           outer := l.outer.map (Table.visible hidden) : Locals α } = _
  rw [hnone, List.nil_append]

end Locals

end Covenant
