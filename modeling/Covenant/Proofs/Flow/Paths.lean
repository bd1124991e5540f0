import Covenant.Analysis.Flow

/-!
# Paths through a body

A path takes one branch of every `if` it comes to, whichever, and ends at the first statement that
leaves the body (`Path`). The analysis of the control flow follows no path; it only asks of each
statement whether it ends the body. That is enough. It says that a value may be missing where a
path reaches the end of the body (`ofBody_ends`), and where a statement lies on no path it finds one
(`unreachable_ne_nil`), although it does not look into what lies behind the end of a body.
-/

namespace Covenant

namespace Stmt

/-- The body of one branch of an `if`, the first or the other. Other statements have none. -/
def side (first : Bool) : Stmt → List Stmt
  | branch _ _ yes no => if first then yes else no
  | _ => []

/-- Whether the statement leaves the body that it stands in. -/
def isLeaving : Stmt → Bool
  | exit _ _ | throw _ _ => true
  | _ => false

/-- Whether the statement is an `if`. -/
def isBranch : Stmt → Bool
  | branch _ _ _ _ => true
  | _ => false

theorem isLeaving_of_isBranch {s : Stmt} (h : s.isBranch = true) : s.isLeaving = false := by
  cases s with
  | branch => rfl
  | _ => cases h

theorem side_eq_nil {s : Stmt} (h : s.isBranch = false) (first : Bool) : s.side first = [] := by
  cases s with
  | branch => cases h
  | _ => rfl

theorem sizeOf_side_lt (s : Stmt) (rest : List Stmt) (first : Bool) :
    sizeOf (s.side first) < sizeOf (s :: rest) := by
  cases s <;> cases first <;> simp [side] <;> omega

/-- **What goes from the branches of the first statement and from the rest to the whole holds of
every body.** -/
theorem bodyInduction {motive : List Stmt → Prop} (nil : motive [])
    (cons : ∀ s rest, (∀ first, motive (s.side first)) → motive rest → motive (s :: rest)) :
    ∀ body, motive body
  | [] => nil
  | s :: rest =>
    cons s rest (fun first => bodyInduction nil cons (s.side first)) (bodyInduction nil cons rest)
termination_by body => sizeOf body
decreasing_by
  · exact sizeOf_side_lt s rest first
  · simp only [List.cons.sizeOf_spec]
    omega

end Stmt

namespace Flow

/-! ## Places and paths -/

/-- **A place in a body**: the first statement, one within a branch of it, or one behind it. -/
inductive Place where
  | here
  | inside (first : Bool) (place : Place)
  | later (place : Place)

/-- The statement at a place, if the body has the place. -/
def at? : List Stmt → Place → Option Stmt
  | [], _ => none
  | s :: _, .here => some s
  | s :: _, .inside first place => at? (s.side first) place
  | _ :: rest, .later place => at? rest place

@[simp] theorem at?_nil (place : Place) : at? [] place = none := by
  cases place <;> rfl

/-- **A path through a body**: the places that it passes, and whether it leaves the body before the
end. -/
inductive Path : List Stmt → List Place → Bool → Prop where
  | nil : Path [] [] false
  /-- A return or a throw leaves the body. -/
  | leave {s : Stmt} {rest : List Stmt} (h : s.isLeaving = true) : Path (s :: rest) [.here] true
  /-- Any other statement is passed if it is no `if`. -/
  | plain {s : Stmt} {rest : List Stmt} {behind : List Place} {left : Bool}
    (hleaving : s.isLeaving = false) (hbranch : s.isBranch = false)
    (hrest : Path rest behind left) :
    Path (s :: rest) (.here :: behind.map .later) left
  /-- The body is left within a branch, either one. -/
  | within {s : Stmt} {rest : List Stmt} {places : List Place} (first : Bool)
    (hbranch : s.isBranch = true) (h : Path (s.side first) places true) :
    Path (s :: rest) (.here :: places.map (.inside first)) true
  /-- The end of a branch is reached, and the path goes on behind the `if`. -/
  | across {s : Stmt} {rest : List Stmt} {places behind : List Place} {left : Bool} (first : Bool)
    (hbranch : s.isBranch = true) (h : Path (s.side first) places false)
    (hrest : Path rest behind left) :
    Path (s :: rest) (.here :: (places.map (.inside first) ++ behind.map .later)) left

/-- **A place lies on a path** through the body. -/
def OnPath (body : List Stmt) (place : Place) : Prop :=
  ∃ places left, Path body places left ∧ place ∈ places

/-- **A statement of the body lies on no path.** -/
def Dead (body : List Stmt) (place : Place) (s : Stmt) : Prop :=
  at? body place = some s ∧ ¬ OnPath body place

variable {s t : Stmt} {body rest : List Stmt} {place : Place} {first : Bool} {q : Position}

/-- Every body has a path. -/
theorem exists_path (body : List Stmt) : ∃ places left, Path body places left := by
  induction body using Stmt.bodyInduction with
  | nil => exact ⟨_, _, .nil⟩
  | cons s rest hsides hrest =>
    obtain ⟨behind, left, hbehind⟩ := hrest
    cases hbranch : s.isBranch with
    | true =>
      obtain ⟨places, ended, hplaces⟩ := hsides true
      cases ended with
      | true => exact ⟨_, _, .within true hbranch hplaces⟩
      | false => exact ⟨_, _, .across true hbranch hplaces hbehind⟩
    | false =>
      cases hleaving : s.isLeaving with
      | true => exact ⟨_, _, .leave hleaving⟩
      | false => exact ⟨_, _, .plain hleaving hbranch hbehind⟩

/-! ## Ends of bodies -/

/-- **A path may go on behind the statement.** -/
def Passable (s : Stmt) : Prop :=
  s.isLeaving = false ∧
    (s.isBranch = true → ∃ first places, Path (s.side first) places false)

theorem ofStmt_ends (s : Stmt) : (ofStmt s).ends = false ↔ s.isLeaving = false ∧
    (s.isBranch = true → ∃ first, (ofBody (s.side first)).ends = false) := by
  cases s with
  | branch pos condition yes no =>
    have hempty : no.isEmpty = true → (ofBody no).ends = false := by
      intro hno
      rw [List.isEmpty_iff.1 hno]
      rfl
    simp only [ofStmt, Summary.andThen, Stmt.isLeaving, Stmt.isBranch, Stmt.side, Bool.exists_bool]
    grind
  | _ => simp [ofStmt, Stmt.isLeaving, Stmt.isBranch]

theorem ofBody_ends_cons (s : Stmt) (rest : List Stmt) : (ofBody (s :: rest)).ends = false ↔
    (ofStmt s).ends = false ∧ (ofBody rest).ends = false := by
  rw [ofBody]
  cases hends : (ofStmt s).ends with
  | true => simp only [if_true, Bool.true_eq_false, false_and]
  | false => simp only [Bool.false_eq_true, if_false, Summary.andThen, true_and]

/-- A path goes on behind a statement that lets it. -/
theorem Passable.path {behind : List Place} {left : Bool} (h : Passable s)
    (hrest : Path rest behind left) :
    ∃ places, Path (s :: rest) (.here :: (places ++ behind.map .later)) left := by
  cases hbranch : s.isBranch with
  | false => exact ⟨[], .plain h.1 hbranch hrest⟩
  | true =>
    obtain ⟨first, places, hplaces⟩ := h.2 hbranch
    exact ⟨_, .across first hbranch hplaces hrest⟩

/-- **A path leaves in the first statement or goes on behind it**, and what it passes behind it is a
path through the rest. -/
theorem Path.cons_cases {places : List Place} {left : Bool} (h : Path (s :: rest) places left) :
    (left = true ∧ ∀ place, .later place ∉ places) ∨ Passable s ∧ ∃ behind, Path rest behind left ∧
      ∀ place, .later place ∈ places → place ∈ behind := by
  cases h with
  | leave => exact .inl ⟨rfl, by simp⟩
  | within => exact .inl ⟨rfl, by simp⟩
  | plain hleaving hbranch hrest =>
    exact .inr ⟨⟨hleaving, fun h => absurd h (by simp [hbranch])⟩, _, hrest, by simp⟩
  | across first hbranch h hrest =>
    exact .inr ⟨⟨Stmt.isLeaving_of_isBranch hbranch, fun _ => ⟨first, _, h⟩⟩, _, hrest, by simp⟩

theorem path_cons (s : Stmt) (rest : List Stmt) : (∃ places, Path (s :: rest) places false) ↔
    Passable s ∧ ∃ places, Path rest places false := by
  constructor
  · rintro ⟨places, h⟩
    rcases h.cons_cases with ⟨hleft, -⟩ | ⟨hpassable, behind, hrest, -⟩
    · cases hleft
    · exact ⟨hpassable, behind, hrest⟩
  · rintro ⟨hpassable, behind, hrest⟩
    obtain ⟨places, h⟩ := hpassable.path hrest
    exact ⟨_, h⟩

/-- **A body is found to end exactly where no path reaches its end.** -/
theorem ofBody_ends (body : List Stmt) :
    (ofBody body).ends = false ↔ ∃ places, Path body places false := by
  induction body using Stmt.bodyInduction with
  | nil => exact ⟨fun _ => ⟨_, .nil⟩, fun _ => rfl⟩
  | cons s rest hsides hrest =>
    rw [ofBody_ends_cons, ofStmt_ends, path_cons, Passable, hrest]
    simp only [hsides]

theorem ofStmt_ends_iff_passable (s : Stmt) : (ofStmt s).ends = false ↔ Passable s := by
  rw [ofStmt_ends, Passable]
  simp only [ofBody_ends]

/-! ## Places on paths -/

/-- A statement that is no `if` has no places in branches. -/
theorem isBranch_of_at? (h : at? (s.side first) place = some t) : s.isBranch = true := by
  cases hbranch : s.isBranch with
  | true => rfl
  | false =>
    rw [Stmt.side_eq_nil hbranch, at?_nil] at h
    cases h

/-- Every path begins at the first statement. -/
theorem onPath_here (s : Stmt) (rest : List Stmt) : OnPath (s :: rest) .here := by
  obtain ⟨places, left, h⟩ := exists_path (s :: rest)
  refine ⟨places, left, h, ?_⟩
  cases h <;> exact List.mem_cons_self

/-- **A path through a branch** is a part of one through the whole. -/
theorem onPath_inside (hbranch : s.isBranch = true) :
    OnPath (s :: rest) (.inside first place) ↔ OnPath (s.side first) place := by
  constructor
  · rintro ⟨places, left, h, hplace⟩
    cases h with
    | leave => simp at hplace
    | plain _ hplain _ => exact absurd hbranch (by simp [hplain])
    | within other _ h =>
      obtain ⟨hmem, rfl⟩ : place ∈ _ ∧ other = first := by simpa using hplace
      exact ⟨_, _, h, hmem⟩
    | across other _ h _ =>
      obtain ⟨hmem, rfl⟩ : place ∈ _ ∧ other = first := by simpa using hplace
      exact ⟨_, _, h, hmem⟩
  · rintro ⟨places, left, h, hplace⟩
    have hmem := List.mem_map_of_mem (f := Place.inside first) hplace
    cases left with
    | true => exact ⟨_, _, .within first hbranch h, List.mem_cons_of_mem _ hmem⟩
    | false =>
      obtain ⟨behind, left, hrest⟩ := exists_path rest
      exact ⟨_, _, .across first hbranch h hrest,
        List.mem_cons_of_mem _ (List.mem_append_left _ hmem)⟩

/-- **What stands behind a statement** lies on a path where one goes on behind the statement. -/
theorem onPath_later :
    OnPath (s :: rest) (.later place) ↔ Passable s ∧ OnPath rest place := by
  constructor
  · rintro ⟨places, left, h, hplace⟩
    rcases h.cons_cases with ⟨-, hnone⟩ | ⟨hpassable, behind, hrest, hbehind⟩
    · exact absurd hplace (hnone place)
    · exact ⟨hpassable, behind, left, hrest, hbehind place hplace⟩
  · rintro ⟨hpassable, behind, left, hrest, hplace⟩
    obtain ⟨places, h⟩ := hpassable.path hrest
    have hmem := List.mem_map_of_mem (f := Place.later) hplace
    exact ⟨_, left, h, List.mem_cons_of_mem _ (List.mem_append_right _ hmem)⟩

/-! ## Statements on no path -/

theorem ofStmt_unreachable (s : Stmt) : (ofStmt s).unreachable =
    (ofBody (s.side true)).unreachable ++ (ofBody (s.side false)).unreachable := by
  cases s with
  | branch => rfl
  | _ => rfl

theorem ofBody_unreachable_cons (s : Stmt) (rest : List Stmt) :
    (ofBody (s :: rest)).unreachable = (ofStmt s).unreachable ++
      if (ofStmt s).ends = true then (rest.head?.map Stmt.pos).toList
      else (ofBody rest).unreachable := by
  rw [ofBody]
  cases (ofStmt s).ends <;> rfl

theorem dead_inside (h : Dead (s.side first) place t) : Dead (s :: rest) (.inside first place) t :=
  ⟨h.1, mt (onPath_inside (isBranch_of_at? h.1)).1 h.2⟩

/-- **What is reported stands on no path.** -/
theorem dead_of_mem_unreachable {body : List Stmt} (h : q ∈ (ofBody body).unreachable) :
    ∃ place t, Dead body place t ∧ t.pos = q := by
  induction body using Stmt.bodyInduction with
  | nil => cases h
  | cons s rest hsides hrest =>
    rw [ofBody_unreachable_cons, ofStmt_unreachable] at h
    have hinside : ∀ first, q ∈ (ofBody (s.side first)).unreachable →
        ∃ place t, Dead (s :: rest) place t ∧ t.pos = q := by
      intro first h
      obtain ⟨place, t, hdead, hpos⟩ := hsides first h
      exact ⟨_, t, dead_inside hdead, hpos⟩
    rcases List.mem_append.1 h with h | h
    · rcases List.mem_append.1 h with h | h
      · exact hinside true h
      · exact hinside false h
    · split at h
      · -- the statement ends the body, and the one behind it is reported
        rename_i hends
        obtain ⟨t, ht, hpos⟩ := Option.map_eq_some_iff.1 (Option.mem_toList.1 h)
        obtain ⟨rest, rfl⟩ := List.head?_eq_some_iff.1 ht
        refine ⟨.later .here, t, ⟨rfl, fun hon => ?_⟩, hpos⟩
        rw [(ofStmt_ends_iff_passable s).2 (onPath_later.1 hon).1] at hends
        cases hends
      · obtain ⟨place, t, ⟨hat, hoff⟩, hpos⟩ := hrest h
        exact ⟨.later place, t, ⟨hat, fun hon => hoff (onPath_later.1 hon).2⟩, hpos⟩

/-- **Where a statement stands on no path, one is reported.** -/
theorem unreachable_ne_nil {body : List Stmt} (h : Dead body place t) :
    (ofBody body).unreachable ≠ [] := by
  induction body using Stmt.bodyInduction generalizing place with
  | nil => exact absurd h.1 (by simp)
  | cons s rest hsides hrest =>
    obtain ⟨hat, hoff⟩ := h
    rw [ofBody_unreachable_cons, ofStmt_unreachable]
    cases place with
    | here => exact absurd (onPath_here s rest) hoff
    | inside first place =>
      have hside := hsides first
        ⟨hat, fun hon => hoff ((onPath_inside (isBranch_of_at? hat)).2 hon)⟩
      cases first with
      | true => simp [hside]
      | false => simp [hside]
    | later place =>
      cases hends : (ofStmt s).ends with
      | true =>
        cases rest with
        | nil => exact absurd hat (by simp [at?])
        | cons t rest => simp
      | false =>
        have hpassable := (ofStmt_ends_iff_passable s).1 hends
        have hdead := hrest ⟨hat, fun hon => hoff (onPath_later.2 ⟨hpassable, hon⟩)⟩
        simp [hdead]

/-! ## The warnings -/

/-- **The warnings about control flow are exact.** A value may be missing exactly where the return
type has values and some path reaches the end of the body. A statement is reported as unreachable
exactly where some statement of the body, at any depth, lies on no path; and every position that is
reported is that of such a statement. -/
theorem flow_warnings_exact (body : List Stmt) (returns : Ty) (pos : Position) :
    (∀ q, ⟨q, .missingReturn⟩ ∈ warnings body returns pos ↔
      q = pos ∧ returns.isVoid = false ∧ ∃ places, Path body places false) ∧
    ((∃ q, ⟨q, .unreachable⟩ ∈ warnings body returns pos) ↔ ∃ place s, Dead body place s) ∧
    ∀ q, ⟨q, .unreachable⟩ ∈ warnings body returns pos →
      ∃ place s, Dead body place s ∧ s.pos = q := by
  have hreturn : ∀ q, ⟨q, .missingReturn⟩ ∈ warnings body returns pos ↔
      q = pos ∧ returns.isVoid = false ∧ (ofBody body).ends = false := by
    intro q
    rw [and_comm]
    simp [warnings]
  have hunreachable : ∀ q, ⟨q, .unreachable⟩ ∈ warnings body returns pos ↔
      q ∈ (ofBody body).unreachable := by
    intro q
    simp [warnings]
  refine ⟨fun q => ?_, ⟨?_, ?_⟩, fun q hq => dead_of_mem_unreachable ((hunreachable q).1 hq)⟩
  · rw [hreturn, ofBody_ends]
  · rintro ⟨q, hq⟩
    obtain ⟨place, s, hdead, -⟩ := dead_of_mem_unreachable ((hunreachable q).1 hq)
    exact ⟨place, s, hdead⟩
  · rintro ⟨place, s, hdead⟩
    obtain ⟨q, hq⟩ := List.exists_mem_of_ne_nil _ (unreachable_ne_nil hdead)
    exact ⟨q, (hunreachable q).2 hq⟩

/-- Both branches leave, so what stands behind the `if` is reported, once for all of it. -/
example : (ofBody [.branch {} (.var {} "c") [.exit {} none] [.throw {} (.var {} "m")],
    .skip { offset := 9 }, .exit { offset := 20 } none]).unreachable = [{ offset := 9 }] := by
  rfl

end Flow

end Covenant
