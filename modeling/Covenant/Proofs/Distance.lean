import Covenant.Text.Distance
import Mathlib.Order.Bounds.Defs
import Mathlib.Data.List.Induction

/-!
# The distance is the least number of edits

An edit inserts a byte somewhere, deletes one, or puts another one in its place. The rows of
distances satisfy one equation for each byte at the end of both strings (`distance_concat`).
From that equation alone, one edit changes the distance to any other string by at most one
(`Edit.distance_le`), so no shorter chain of edits leads from one string to the other
(`isLeast_distance`).

The distance is also the last number of a table with a row for each beginning of the first string
and a column for each beginning of the second. Its first row and its first column are counted up;
every other place is filled in from the three next to it, row by row. Reading or writing beside the
table gives nothing here, so filling it in gives the distance only because neither ever happens
(`tableDistance?_eq`).
-/

namespace Covenant

namespace Text

variable {as bs cs : List UInt8} {m n : Nat}

/-! ## Rows of distances -/

/-- A row of distances has a place for each beginning of the second string. -/
theorem length_distanceRow (a : UInt8) {row : List Nat} (h : row.length = bs.length + 1)
    (left : Nat) : (distanceRow a bs row left).length = bs.length := by
  induction bs generalizing row left with
  | nil =>
    obtain ⟨d, rfl⟩ := List.length_eq_one_iff.1 h
    rfl
  | cons b bs ih =>
    obtain _ | ⟨d, _ | ⟨u, row⟩⟩ := row
    · cases h
    · cases h
    · rw [distanceRow, List.length_cons, ih (by simpa using h), List.length_cons]

/-- One byte more of the second string adds one place to the row, and changes none. -/
theorem distanceRow_concat (a b : UInt8) {row : List Nat} (h : row.length = bs.length + 1)
    (up left : Nat) : distanceRow a (bs ++ [b]) (row ++ [up]) left =
      distanceRow a bs row left ++
        [min (min (up + 1) ((left :: distanceRow a bs row left).getLastD 0 + 1))
          (row.getLastD 0 + exchangeCost a b)] := by
  induction bs generalizing row left with
  | nil =>
    obtain ⟨d, rfl⟩ := List.length_eq_one_iff.1 h
    rfl
  | cons c bs ih =>
    obtain _ | ⟨d, _ | ⟨u, row⟩⟩ := row
    · cases h
    · cases h
    · have hrest : (u :: row).length = bs.length + 1 := by simpa using h
      have hnext := ih hrest (min (min (u + 1) (left + 1)) (d + exchangeCost a c))
      simp only [List.cons_append, distanceRow] at hnext ⊢
      rw [hnext]
      rfl

/-- The same of a whole row. -/
theorem nextDistances_concat (a b : UInt8) {row : List Nat} (h : row.length = bs.length + 1)
    (up : Nat) : nextDistances (bs ++ [b]) (row ++ [up]) a =
      nextDistances bs row a ++
        [min (min (up + 1) ((nextDistances bs row a).getLastD 0 + 1))
          (row.getLastD 0 + exchangeCost a b)] := by
  have hhead : (row ++ [up]).headD 0 = row.headD 0 := by
    obtain ⟨d, rest, rfl⟩ := List.exists_cons_of_length_eq_add_one h
    rfl
  rw [nextDistances, nextDistances, hhead, distanceRow_concat a b h]
  rfl

theorem distances_concat_left (as bs : List UInt8) (a : UInt8) :
    distances (as ++ [a]) bs = nextDistances bs (distances as bs) a := by
  rw [distances, List.foldl_append]
  rfl

theorem length_distances (as bs : List UInt8) : (distances as bs).length = bs.length + 1 := by
  induction as using List.reverseRecOn with
  | nil => exact List.length_range
  | append_singleton as a ih =>
    rw [distances_concat_left, nextDistances, List.length_cons, length_distanceRow a ih]

/-- The first distance of a row is to the empty string. -/
theorem headD_distances (as bs : List UInt8) : (distances as bs).headD 0 = as.length := by
  induction as using List.reverseRecOn with
  | nil => simp [distances, List.range_succ_eq_map]
  | append_singleton as a ih =>
    rw [distances_concat_left, nextDistances, List.headD_cons, ih, List.length_append,
      List.length_singleton]

/-- **A row for one byte more of the second string** is the same with one distance more. -/
theorem distances_concat_right (as bs : List UInt8) (b : UInt8) :
    distances as (bs ++ [b]) = distances as bs ++ [distance as (bs ++ [b])] := by
  obtain ⟨d, hd⟩ : ∃ d, distances as (bs ++ [b]) = distances as bs ++ [d] := by
    induction as using List.reverseRecOn with
    | nil => exact ⟨bs.length + 1, by simp [distances, List.range_succ]⟩
    | append_singleton as a ih =>
      obtain ⟨d, hd⟩ := ih
      rw [distances_concat_left, distances_concat_left, hd,
        nextDistances_concat a b (length_distances as bs)]
      exact ⟨_, rfl⟩
  rw [distance, hd, List.getLastD_concat]

/-! ## The equations of the distance -/

@[simp] theorem distance_nil_left (bs : List UInt8) : distance [] bs = bs.length := by
  simp [distance, distances, List.range_succ]

@[simp] theorem distance_nil_right (as : List UInt8) : distance as [] = as.length := by
  obtain ⟨d, hd⟩ := List.length_eq_one_iff.1 (length_distances as [])
  have hhead := headD_distances as []
  rw [hd] at hhead
  rw [distance, hd]
  exact hhead

/-- **The last bytes of two strings** are exchanged or kept, or one of them is left over. -/
theorem distance_concat (as bs : List UInt8) (a b : UInt8) :
    distance (as ++ [a]) (bs ++ [b]) =
      min (min (distance as (bs ++ [b]) + 1) (distance (as ++ [a]) bs + 1))
        (distance as bs + exchangeCost a b) := by
  rw [distance, distances_concat_left, distances_concat_right,
    nextDistances_concat a b (length_distances as bs), List.getLastD_concat,
    ← distances_concat_left]
  rfl

theorem exchangeCost_self (a : UInt8) : exchangeCost a a = 0 :=
  if_pos rfl

theorem exchangeCost_le (a b : UInt8) : exchangeCost a b ≤ 1 := by
  unfold exchangeCost
  split <;> omega

theorem exchangeCost_comm (a b : UInt8) : exchangeCost a b = exchangeCost b a := by
  simp only [exchangeCost, eq_comm]

/-- **The distance does not depend on the order** of the two strings. -/
theorem distance_comm (as bs : List UInt8) : distance as bs = distance bs as := by
  induction as using List.reverseRecOn generalizing bs with
  | nil => simp
  | append_singleton as a ihFirst =>
    induction bs using List.reverseRecOn with
    | nil => simp
    | append_singleton bs b ihSecond =>
      rw [distance_concat, distance_concat, ihFirst, ihSecond, ihFirst, exchangeCost_comm]
      omega

@[simp] theorem distance_self (as : List UInt8) : distance as as = 0 := by
  induction as using List.reverseRecOn with
  | nil => rfl
  | append_singleton as a ih =>
    rw [distance_concat, ih, exchangeCost_self]
    omega

/-! ## What one byte changes -/

/-- A byte more costs at most one edit more. -/
theorem distance_concat_left_le (as bs : List UInt8) (a : UInt8) :
    distance (as ++ [a]) bs ≤ distance as bs + 1 := by
  induction bs using List.reverseRecOn with
  | nil => simp
  | append_singleton bs b _ =>
    rw [distance_concat]
    omega

/-- And so does a byte less. -/
theorem distance_le_concat_left (as bs : List UInt8) (a : UInt8) :
    distance as bs ≤ distance (as ++ [a]) bs + 1 := by
  induction bs using List.reverseRecOn with
  | nil =>
    rw [distance_nil_right, distance_nil_right, List.length_append]
    omega
  | append_singleton bs b ih =>
    have hmore := distance_concat_left_le bs as b
    rw [distance_comm (bs ++ [b]), distance_comm bs] at hmore
    rw [distance_concat]
    omega

/-- Another byte in the last place costs at most one edit more. -/
theorem distance_exchange_le (as cs : List UInt8) (a b : UInt8) :
    distance (as ++ [a]) cs ≤ distance (as ++ [b]) cs + 1 := by
  induction cs using List.reverseRecOn with
  | nil => simp
  | append_singleton cs c ih =>
    have hcost := exchangeCost_le a c
    rw [distance_concat, distance_concat]
    omega

section Near

variable (h : ∀ cs, distance as cs ≤ distance bs cs + 1)
include h

/-- Strings that are one edit apart at most stay so with the same byte behind both. -/
theorem distance_concat_le (x : UInt8) (cs : List UInt8) :
    distance (as ++ [x]) cs ≤ distance (bs ++ [x]) cs + 1 := by
  induction cs using List.reverseRecOn with
  | nil => simpa using h []
  | append_singleton cs c ih =>
    have hlonger := h (cs ++ [c])
    have hshorter := h cs
    rw [distance_concat, distance_concat]
    omega

theorem distance_append_le (back cs : List UInt8) :
    distance (as ++ back) cs ≤ distance (bs ++ back) cs + 1 := by
  induction back using List.reverseRecOn generalizing cs with
  | nil => simpa using h cs
  | append_singleton back x ih =>
    rw [← List.append_assoc, ← List.append_assoc]
    exact distance_concat_le ih x cs

end Near

/-! ## Edits -/

/-- **One edit of a byte string**, at any place. -/
inductive Edit : List UInt8 → List UInt8 → Prop
  | insert (front back : List UInt8) (b : UInt8) : Edit (front ++ back) (front ++ b :: back)
  | delete (front back : List UInt8) (a : UInt8) : Edit (front ++ a :: back) (front ++ back)
  | exchange (front back : List UInt8) (a b : UInt8) :
      Edit (front ++ a :: back) (front ++ b :: back)

namespace Edit

/-- An edit is undone by an edit. -/
theorem symm (h : Edit as bs) : Edit bs as := by
  cases h with
  | insert front back b => exact .delete front back b
  | delete front back a => exact .insert front back a
  | exchange front back a b => exact .exchange front back b a

/-- An edit leaves what stands behind alone. -/
theorem append_right (h : Edit as bs) (rest : List UInt8) : Edit (as ++ rest) (bs ++ rest) := by
  cases h with
  | insert front back b =>
    simpa using Edit.insert front (back ++ rest) b
  | delete front back a =>
    simpa using Edit.delete front (back ++ rest) a
  | exchange front back a b =>
    simpa using Edit.exchange front (back ++ rest) a b

/-- **One edit changes the distance to another string by one at most.** -/
theorem distance_le (h : Edit as bs) (cs : List UInt8) :
    distance as cs ≤ distance bs cs + 1 := by
  cases h with
  | insert front back b =>
    rw [List.append_cons]
    exact distance_append_le (fun cs => distance_le_concat_left front cs b) back cs
  | delete front back a =>
    rw [List.append_cons]
    exact distance_append_le (fun cs => distance_concat_left_le front cs a) back cs
  | exchange front back a b =>
    rw [List.append_cons, List.append_cons front b]
    exact distance_append_le (fun cs => distance_exchange_le front cs a b) back cs

end Edit

/-- **A number of edits**, one after the other. -/
inductive Edits : Nat → List UInt8 → List UInt8 → Prop
  | refl (as : List UInt8) : Edits 0 as as
  | step {n : Nat} {as bs cs : List UInt8} (first : Edit as bs) (rest : Edits n bs cs) :
      Edits (n + 1) as cs

namespace Edits

theorem trans (h : Edits m as bs) (h' : Edits n bs cs) : Edits (m + n) as cs := by
  induction h with
  | refl => rwa [Nat.zero_add]
  | @step k _ _ _ first _ ih =>
    rw [Nat.add_right_comm]
    exact .step first (ih h')

theorem single (h : Edit as bs) : Edits 1 as bs :=
  .step h (.refl bs)

theorem symm (h : Edits n as bs) : Edits n bs as := by
  induction h with
  | refl => exact .refl _
  | step first _ ih => exact ih.trans (single first.symm)

theorem append_right (h : Edits n as bs) (rest : List UInt8) :
    Edits n (as ++ rest) (bs ++ rest) := by
  induction h with
  | refl => exact .refl _
  | step first _ ih => exact .step (first.append_right rest) ih

/-- No edit at all leaves the string as it is. -/
theorem zero_iff : Edits 0 as bs ↔ as = bs := by
  refine ⟨fun h => ?_, fun h => h ▸ .refl as⟩
  cases h
  rfl

/-- **As many edits as the distance are needed.** -/
theorem distance_le (h : Edits n as bs) : distance as bs ≤ n := by
  induction h with
  | refl as => exact Nat.le_of_eq (distance_self as)
  | @step n as bs cs first _ ih =>
    have hfirst := first.distance_le cs
    omega

/-- The last bytes of two strings are exchanged, or kept if they are the same. -/
theorem concat (h : Edits n as bs) (a b : UInt8) :
    Edits (n + exchangeCost a b) (as ++ [a]) (bs ++ [b]) := by
  have hfront := h.append_right [a]
  by_cases hab : a = b
  · subst hab
    rwa [exchangeCost_self]
  · rw [exchangeCost, if_neg hab]
    exact hfront.trans (single (.exchange bs [] a b))

end Edits

/-- **As many edits as the distance are enough.** -/
theorem edits_distance (as bs : List UInt8) : Edits (distance as bs) as bs := by
  induction as using List.reverseRecOn generalizing bs with
  | nil =>
    induction bs using List.reverseRecOn with
    | nil => exact .refl []
    | append_singleton bs b ih =>
      rw [distance_nil_left, List.length_append]
      rw [distance_nil_left] at ih
      exact ih.trans (.single (by simpa using Edit.insert bs [] b))
  | append_singleton as a ihFirst =>
    induction bs using List.reverseRecOn with
    | nil =>
      rw [distance_nil_right, List.length_append, List.length_singleton]
      have hrest := ihFirst []
      rw [distance_nil_right] at hrest
      exact .step (by simpa using Edit.delete as [] a) hrest
    | append_singleton bs b ihSecond =>
      -- the last byte is deleted, inserted or exchanged, whichever takes the fewest edits
      obtain h | h | h : distance (as ++ [a]) (bs ++ [b]) = distance as (bs ++ [b]) + 1 ∨
          distance (as ++ [a]) (bs ++ [b]) = distance (as ++ [a]) bs + 1 ∨
          distance (as ++ [a]) (bs ++ [b]) = distance as bs + exchangeCost a b := by
        rw [distance_concat]
        omega
      · rw [h]
        exact .step (by simpa using Edit.delete as [] a) (ihFirst (bs ++ [b]))
      · rw [h]
        exact ihSecond.trans (.single (by simpa using Edit.insert bs [] b))
      · rw [h]
        exact (ihFirst bs).concat a b

/-- **The distance is the least number of edits** that turn one string into the other. -/
theorem isLeast_distance (as bs : List UInt8) : IsLeast {n | Edits n as bs} (distance as bs) :=
  ⟨edits_distance as bs, fun _ => Edits.distance_le⟩

theorem distance_eq_zero_iff : distance as bs = 0 ↔ as = bs := by
  refine ⟨fun h => Edits.zero_iff.1 (h ▸ edits_distance as bs), ?_⟩
  rintro rfl
  exact distance_self as

/-- No string on the way makes the way shorter. -/
theorem distance_triangle (as bs cs : List UInt8) :
    distance as cs ≤ distance as bs + distance bs cs :=
  ((edits_distance as bs).trans (edits_distance bs cs)).distance_le

/-! ## Tables -/

/-- A table of numbers, row by row. -/
abbrev Grid := List (List Nat)

namespace Grid

/-- A table of zeros. -/
def zeros (rows columns : Nat) : Grid :=
  List.replicate rows (List.replicate columns 0)

/-- The number at a place of a table, if the place is in it. -/
def read? (g : Grid) (i j : Nat) : Option Nat :=
  g[i]?.bind fun row => row[j]?

/-- Puts a number at a place of a table, if the place is in it. -/
def write? (g : Grid) (i j n : Nat) : Option Grid :=
  if (g.read? i j).isSome then some (g.modify i (·.set j n)) else none

end Grid

/-- Counts up in the first column of a table, then in the first row. -/
def countBorders (rows columns : Nat) (g : Grid) : Option Grid := do
  let g ← (List.range rows).foldlM (fun g i => g.write? i 0 i) g
  (List.range columns).foldlM (fun g j => g.write? 0 j j) g

/-- Fills in the place below and to the right of another one, from that one and the two beside
it. -/
def fillPlace (as bs : List UInt8) (i j : Nat) (g : Grid) : Option Grid := do
  let a ← as[i]?
  let b ← bs[j]?
  let up ← g.read? i (j + 1)
  let left ← g.read? (i + 1) j
  let diagonal ← g.read? i j
  g.write? (i + 1) (j + 1) (min (min (up + 1) (left + 1)) (diagonal + exchangeCost a b))

/-- Fills in a row. -/
def fillRow (as bs : List UInt8) (i : Nat) (g : Grid) : Option Grid :=
  (List.range bs.length).foldlM (fun g j => fillPlace as bs i j g) g

/-- **The distance by a table** that is filled in place by place. -/
def tableDistance? (as bs : List UInt8) : Option Nat :=
  if as.length = 0 then some bs.length
  else if bs.length = 0 then some as.length
  else do
    let g ← countBorders (as.length + 1) (bs.length + 1)
      (.zeros (as.length + 1) (bs.length + 1))
    let g ← (List.range as.length).foldlM (fun g i => fillRow as bs i g) g
    g.read? as.length bs.length

/-! ## What a table knows -/

/-- The distance of two beginnings. -/
def prefixDistance (as bs : List UInt8) (i j : Nat) : Nat :=
  distance (as.take i) (bs.take j)

/-- **A table of two strings** is as large as their beginnings ask for, and holds their distances at
the places that have been filled in. -/
structure Filled (as bs : List UInt8) (done : Nat → Nat → Prop) (g : Grid) : Prop where
  inside : ∀ i j, (g.read? i j).isSome ↔ i ≤ as.length ∧ j ≤ bs.length
  known : ∀ i j, i ≤ as.length → j ≤ bs.length → done i j →
    g.read? i j = some (prefixDistance as bs i j)

section Filling

variable {as bs : List UInt8} {done done' : Nat → Nat → Prop} {g : Grid} {i j n : Nat}

theorem read?_zeros (rows columns i j : Nat) :
    (Grid.zeros rows columns).read? i j = if i < rows ∧ j < columns then some 0 else none := by
  rw [Grid.read?, Grid.zeros, List.getElem?_replicate]
  by_cases hi : i < rows <;> simp [hi, List.getElem?_replicate]

theorem read?_modify (g : Grid) (i j n k l : Nat) :
    Grid.read? (g.modify i (·.set j n)) k l =
      if k = i ∧ l = j then (g.read? k l).map fun _ => n else g.read? k l := by
  rw [Grid.read?, Grid.read?, List.getElem?_modify]
  by_cases hk : i = k
  · subst hk
    by_cases hl : l = j
    · subst hl
      cases g[i]? with
      | none => simp
      | some row => by_cases h : l < row.length <;> simp [h]
    · cases g[i]? with
      | none => simp
      | some row => simp [hl, List.getElem?_set_ne (Ne.symm hl)]
  · simp [hk, Ne.symm hk]

namespace Filled

theorem zeros (as bs : List UInt8) :
    Filled as bs (fun _ _ => False) (.zeros (as.length + 1) (bs.length + 1)) where
  inside i j := by
    rw [read?_zeros]
    split <;> simp <;> omega
  known _ _ _ _ h := h.elim

theorem mono (h : Filled as bs done g)
    (hdone : ∀ i j, i ≤ as.length → j ≤ bs.length → done' i j → done i j) :
    Filled as bs done' g :=
  ⟨h.inside, fun i j hi hj hknown => h.known i j hi hj (hdone i j hi hj hknown)⟩

/-- **The distance of two beginnings is written**, at their place and at no other. -/
theorem write? (h : Filled as bs done g) (hi : i ≤ as.length) (hj : j ≤ bs.length)
    (hn : n = prefixDistance as bs i j) :
    ∃ g', g.write? i j n = some g' ∧ Filled as bs (fun k l => done k l ∨ k = i ∧ l = j) g' := by
  have hplace : (g.read? i j).isSome := (h.inside i j).2 ⟨hi, hj⟩
  refine ⟨_, if_pos hplace, fun k l => ?_, fun k l hk hl hknown => ?_⟩
  · rw [read?_modify, ← h.inside k l]
    split <;> simp
  · rw [read?_modify]
    split
    · rename_i hhere
      obtain ⟨rfl, rfl⟩ := hhere
      obtain ⟨m, hm⟩ := Option.isSome_iff_exists.1 hplace
      rw [hm, Option.map_some, hn]
    · rename_i hother
      exact h.known k l hk hl (hknown.resolve_right hother)

end Filled

/-- A loop keeps what each of its rounds keeps. -/
theorem foldlM_range {α : Type} {f : α → Nat → Option α} {P : Nat → α → Prop} {x : α} (count : Nat)
    (hstart : P 0 x) (hround : ∀ k < count, ∀ y, P k y → ∃ z, f y k = some z ∧ P (k + 1) z) :
    ∃ z, (List.range count).foldlM f x = some z ∧ P count z := by
  induction count with
  | zero => exact ⟨x, rfl, hstart⟩
  | succ count ih =>
    obtain ⟨y, hy, hP⟩ := ih fun k hk => hround k (by omega)
    obtain ⟨z, hz, hP'⟩ := hround count (by omega) y hP
    refine ⟨z, ?_, hP'⟩
    rw [List.range_succ, List.foldlM_append, hy]
    simpa using hz

theorem prefixDistance_zero_left (hj : j ≤ bs.length) : prefixDistance as bs 0 j = j := by
  simp [prefixDistance, hj]

theorem prefixDistance_zero_right (hi : i ≤ as.length) : prefixDistance as bs i 0 = i := by
  simp [prefixDistance, hi]

theorem prefixDistance_succ (hi : i < as.length) (hj : j < bs.length) :
    prefixDistance as bs (i + 1) (j + 1) =
      min (min (prefixDistance as bs i (j + 1) + 1) (prefixDistance as bs (i + 1) j + 1))
        (prefixDistance as bs i j + exchangeCost as[i] bs[j]) := by
  simp only [prefixDistance, List.take_succ_eq_append_getElem hi,
    List.take_succ_eq_append_getElem hj]
  exact distance_concat _ _ _ _

/-- The borders of a table. -/
theorem Filled.countBorders (h : Filled as bs (fun _ _ => False) g) :
    ∃ g', countBorders (as.length + 1) (bs.length + 1) g = some g' ∧
      Filled as bs (fun k l => k = 0 ∨ l = 0) g' := by
  obtain ⟨g', hcolumn, h⟩ := foldlM_range (P := fun i => Filled as bs fun k l => l = 0 ∧ k < i)
    (f := fun g i => g.write? i 0 i) (as.length + 1)
    (h.mono fun _ _ _ _ hdone => absurd hdone.2 (Nat.not_lt_zero _)) fun i hi g h => by
      obtain ⟨g', hg', h⟩ := h.write? (i := i) (j := 0) (by omega) (by omega)
        (prefixDistance_zero_right (by omega)).symm
      exact ⟨g', hg', h.mono fun k l _ _ hdone => by omega⟩
  obtain ⟨g'', hrow, h⟩ := foldlM_range
    (P := fun j => Filled as bs fun k l => l = 0 ∨ k = 0 ∧ l < j)
    (f := fun g j => g.write? 0 j j) (bs.length + 1)
    (h.mono fun _ _ _ _ hdone => by omega) fun j hj g h => by
      obtain ⟨g', hg', h⟩ := h.write? (i := 0) (j := j) (by omega) (by omega)
        (prefixDistance_zero_left (by omega)).symm
      exact ⟨g', hg', h.mono fun k l _ _ hdone => by omega⟩
  refine ⟨g'', ?_, h.mono fun k l _ _ hdone => by omega⟩
  rw [Text.countBorders, hcolumn]
  exact hrow

/-- The places that have been filled in before those of a row from a column on. -/
def Before (i j k l : Nat) : Prop :=
  k = 0 ∨ l = 0 ∨ k ≤ i ∨ k = i + 1 ∧ l ≤ j

/-- **A place is filled in** from the places before it. -/
theorem Filled.fillPlace (h : Filled as bs (Before i j) g) (hi : i < as.length)
    (hj : j < bs.length) :
    ∃ g', fillPlace as bs i j g = some g' ∧ Filled as bs (Before i (j + 1)) g' := by
  have hup := h.known i (j + 1) (by omega) (by omega) (by unfold Before; omega)
  have hleft := h.known (i + 1) j (by omega) (by omega) (by unfold Before; omega)
  have hdiagonal := h.known i j (by omega) (by omega) (by unfold Before; omega)
  obtain ⟨g', hg', h⟩ := h.write? (i := i + 1) (j := j + 1) (by omega) (by omega)
    (prefixDistance_succ hi hj).symm
  refine ⟨g', ?_, h.mono fun k l _ _ hdone => by unfold Before at hdone ⊢; omega⟩
  rw [Text.fillPlace, List.getElem?_eq_getElem hi, List.getElem?_eq_getElem hj, hup, hleft,
    hdiagonal]
  exact hg'

/-- A row is filled in. -/
theorem Filled.fillRow (h : Filled as bs (Before i 0) g) (hi : i < as.length) :
    ∃ g', fillRow as bs i g = some g' ∧ Filled as bs (Before (i + 1) 0) g' := by
  obtain ⟨g', hg', h⟩ := foldlM_range (P := fun j => Filled as bs (Before i j))
    (f := fun g j => Text.fillPlace as bs i j g) bs.length h fun j hj g h => h.fillPlace hi hj
  exact ⟨g', hg', h.mono fun k l _ _ hdone => by unfold Before at hdone ⊢; omega⟩

end Filling

/-- **The table gives the distance**: no place beside it is ever read or written. -/
theorem tableDistance?_eq (as bs : List UInt8) : tableDistance? as bs = some (distance as bs) := by
  unfold tableDistance?
  split
  · rename_i hempty
    rw [List.length_eq_zero_iff.1 hempty, distance_nil_left]
  split
  · rename_i hempty
    rw [List.length_eq_zero_iff.1 hempty, distance_nil_right]
  obtain ⟨g, hborders, h⟩ := (Filled.zeros as bs).countBorders
  obtain ⟨g', hrows, h⟩ := foldlM_range (P := fun i => Filled as bs (Before i 0))
    (f := fun g i => fillRow as bs i g) as.length
    (h.mono fun k l _ _ hdone => by unfold Before at hdone; omega) fun i hi g h => h.fillRow hi
  have hlast := h.known as.length bs.length (Nat.le_refl _) (Nat.le_refl _)
    (by unfold Before; omega)
  rw [prefixDistance, List.take_length, List.take_length] at hlast
  rw [hborders]
  simp only [Option.bind_eq_bind, Option.bind_some, hrows, hlast]

/-- **The distance of two byte strings is the least number of edits** that turn one into the other.
So it is zero just for equal strings, it does not depend on their order, and a way over a third
string is never shorter. The table finds it, with no place beside it read or written. -/
theorem distance_least_edits (as bs : List UInt8) :
    IsLeast {n | Edits n as bs} (distance as bs) ∧
      (distance as bs = 0 ↔ as = bs) ∧
      distance as bs = distance bs as ∧
      (∀ cs, distance as cs ≤ distance as bs + distance bs cs) ∧
      tableDistance? as bs = some (distance as bs) :=
  ⟨isLeast_distance as bs, distance_eq_zero_iff, distance_comm as bs, distance_triangle as bs,
    tableDistance?_eq as bs⟩

/-- Three edits lead from one word to the other. -/
example : distance (bytes "kitten") (bytes "sitting") = 3 := by
  decide +kernel

end Text

end Covenant
