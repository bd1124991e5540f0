import Covenant.Proofs.Contract.Parts
import Covenant.Resolve.Conditionals

/-!
# What is left without conditionals

Taking the conditionals out of an expression leaves none behind, neither in the expression nor in
the statements before it, and changes nothing where there is none. So a statement whose branches
are free of conditionals keeps its shape: its operands are replaced by what is left of them, and
the statements to run before it are those of its operands, in order (`normalize_eq`).
-/

namespace Covenant

namespace Resolve

variable {scope : Scope}

/-! ## By parts -/

/-- An expression that is no choice itself keeps its shape. -/
theorem hoist_eq {e : Expr} (h : e.isConditional = false) (t : Temps) :
    hoist scope e t = ((hoistEach scope e.parts t).1,
      e.withParts (hoistEach scope e.parts t).2.1, (hoistEach scope e.parts t).2.2) := by
  cases e with
  | conditional => cases h
  | _ => simp [hoist, hoistEach, Expr.parts, Expr.withParts]

theorem length_hoistEach (scope : Scope) (es : List Expr) (t : Temps) :
    (hoistEach scope es t).2.1.length = es.length := by
  induction es generalizing t with
  | nil => rfl
  | cons e es ih => simp [hoistEach, ih]

/-- Expressions are freed from left to right, each with the temporaries behind the last. -/
theorem hoistEach_append (es more : List Expr) (t : Temps) :
    hoistEach scope (es ++ more) t =
      ((hoistEach scope es t).1 ++ (hoistEach scope more (hoistEach scope es t).2.2).1,
        (hoistEach scope es t).2.1 ++ (hoistEach scope more (hoistEach scope es t).2.2).2.1,
        (hoistEach scope more (hoistEach scope es t).2.2).2.2) := by
  induction es generalizing t with
  | nil => rfl
  | cons e es ih => simp [hoistEach, ih]

/-! ## Where there is nothing to take out -/

theorem hoistEach_of_fixed {es : List Expr}
    (h : ∀ e ∈ es, ∀ t, hoist scope e t = ([], e, t)) (t : Temps) :
    hoistEach scope es t = ([], es, t) := by
  induction es with
  | nil => rfl
  | cons e es ih =>
    rw [List.forall_mem_cons] at h
    rw [hoistEach, h.1 t]
    dsimp only
    rw [ih h.2]
    rfl

theorem hoist_of_free {e : Expr} (h : e.hasConditional = false) (t : Temps) :
    hoist scope e t = ([], e, t) := by
  induction e using Expr.induction generalizing t with
  | h e ih =>
    rw [Expr.hasConditional_eq, Bool.or_eq_false_iff, List.any_eq_false] at h
    have hfixed : ∀ part ∈ e.parts, ∀ t, hoist scope part t = ([], part, t) :=
      fun part hpart => ih part hpart (Bool.eq_false_iff.2 (h.2 part hpart))
    rw [hoist_eq h.1, hoistEach_of_fixed hfixed, Expr.withParts_parts]

theorem hoistEach_of_free {es : List Expr} (h : es.any Expr.hasConditional = false) (t : Temps) :
    hoistEach scope es t = ([], es, t) :=
  hoistEach_of_fixed
    (fun e he => hoist_of_free (Bool.eq_false_iff.2 (List.any_eq_false.1 h e he))) t

theorem hoistBody_of_fixed {body : List Stmt}
    (h : ∀ s ∈ body, ∀ t, hoistStmt scope s t = ([s], t)) (t : Temps) :
    hoistBody scope body t = (body, t) := by
  induction body with
  | nil => rfl
  | cons s body ih =>
    rw [List.forall_mem_cons] at h
    rw [hoistBody, h.1 t]
    dsimp only
    rw [ih h.2]
    rfl

/-- A statement whose branches stay as they are keeps its shape. -/
theorem hoistStmt_of_fixed {s : Stmt}
    (h : ∀ part ∈ s.inner, ∀ t, hoistStmt scope part t = ([part], t)) (t : Temps) :
    hoistStmt scope s t = ((hoistEach scope s.operands t).1 ++
      [s.withOperands (hoistEach scope s.operands t).2.1], (hoistEach scope s.operands t).2.2) := by
  match s with
  | .branch pos condition yes no =>
    rw [Stmt.inner, List.forall_mem_append] at h
    simp [hoistStmt, hoistEach, Stmt.operands, Stmt.withOperands, hoistBody_of_fixed h.1,
      hoistBody_of_fixed h.2]
  | .setEntry pos property indices value =>
    simp [hoistStmt, hoistEach, hoistEach_append, Stmt.operands, Stmt.withOperands,
      ← length_hoistEach scope indices t]
  | .declare _ _ _ none | .declare _ _ _ (some _) | .exit _ none | .exit _ (some _) =>
    simp [hoistStmt, hoistEach, Stmt.operands, Stmt.withOperands]
  | .setProperty _ _ _ | .setVariable _ _ _ | .throw _ _ | .emit _ _ _ | .evaluate _ _ =>
    simp [hoistStmt, hoistEach, Stmt.operands, Stmt.withOperands]
  | .skip _ => simp [hoistStmt, hoistEach, Stmt.operands, Stmt.withOperands]

/-- A statement without conditionals stays as it is. -/
theorem hoistStmt_of_free {s : Stmt} (h : Stmt.hasConditional [s] = false) (t : Temps) :
    hoistStmt scope s t = ([s], t) := by
  induction s using Stmt.induction generalizing t with
  | h s ih =>
    simp only [Stmt.hasConditional_cons, Stmt.hasConditional_nil, Bool.or_false,
      Bool.or_eq_false_iff] at h
    obtain ⟨hoperands, hinner⟩ := h
    rw [Stmt.hasConditional_eq_any, List.any_eq_false] at hinner
    have hfixed := fun part hpart => ih part hpart (Bool.eq_false_iff.2 (hinner part hpart))
    rw [hoistStmt_of_fixed hfixed, hoistEach_of_free hoperands, Stmt.withOperands_operands]
    rfl

/-! ## A statement keeps its shape -/

/-- **A statement whose branches are free of conditionals keeps its shape.** -/
theorem normalize_eq {s : Stmt} (h : Stmt.hasConditional s.inner = false) (next : Nat) :
    normalize scope next s =
      ((hoistEach scope s.operands { next }).1 ++
        [s.withOperands (hoistEach scope s.operands { next }).2.1],
        (hoistEach scope s.operands { next }).2.2.next) := by
  rw [Stmt.hasConditional_eq_any, List.any_eq_false] at h
  rw [normalize, hoistStmt_of_fixed fun part hpart =>
    hoistStmt_of_free (Bool.eq_false_iff.2 (h part hpart))]

/-! ## Nothing is left -/

theorem hoistEach_lacks_of {p : Expr → Bool} {es : List Expr}
    (h : ∀ e ∈ es, ∀ t, (hoist scope e t).2.1.Lacks p ∧ Stmt.Lacks p (hoist scope e t).1)
    (t : Temps) :
    (∀ e ∈ (hoistEach scope es t).2.1, e.Lacks p) ∧ Stmt.Lacks p (hoistEach scope es t).1 := by
  induction es generalizing t with
  | nil => exact ⟨fun _ h => absurd h List.not_mem_nil, Stmt.lacks_nil⟩
  | cons e es ih =>
    rw [List.forall_mem_cons] at h
    obtain ⟨he, hbefore⟩ := h.1 t
    obtain ⟨hes, hmore⟩ := ih h.2 (hoist scope e t).2.2
    simp only [hoistEach, List.forall_mem_cons, Stmt.lacks_append]
    exact ⟨⟨he, hes⟩, hbefore, hmore⟩

/-- **A kind of which an expression has nothing but conditionals is not left** in it, nor does it
come in with the statements before it: those hold what was in the expression, and readings of
temporaries. -/
theorem hoist_lacks {p : Expr → Bool} (hp : Expr.IsKind p) (scope : Scope) {e : Expr}
    (h : e.Lacks fun s => p s && !s.isConditional) (t : Temps) :
    (hoist scope e t).2.1.Lacks p ∧ Stmt.Lacks p (hoist scope e t).1 := by
  induction e using Expr.induction_conditional generalizing t with
  | plain e hconditional ih =>
    rw [Expr.lacks_iff] at h
    have heach := hoistEach_lacks_of (fun part hpart => ih part hpart (h.2 part hpart)) t
    rw [hoist_eq hconditional]
    refine ⟨Expr.lacks_iff.2 ⟨?_, ?_⟩, heach.2⟩
    · rw [hp.withParts]
      simpa [hconditional] using h.1
    · rw [Expr.parts_withParts (length_hoistEach _ _ _)]
      exact heach.1
  | conditional pos condition yes no hcondition hyes hno =>
    rw [Expr.lacks_iff] at h
    simp only [Expr.parts, List.forall_mem_cons] at h
    obtain ⟨-, hparts, hpartsYes, hpartsNo, -⟩ := h
    simp [hoist, Stmt.lacks_cons, Stmt.operands, Stmt.inner, hcondition hparts, hyes hpartsYes,
      hno hpartsNo, Expr.lacks_var hp]

theorem hoistEach_lacks {p : Expr → Bool} (hp : Expr.IsKind p) (scope : Scope) {es : List Expr}
    (h : ∀ e ∈ es, e.Lacks fun s => p s && !s.isConditional) (t : Temps) :
    (∀ e ∈ (hoistEach scope es t).2.1, e.Lacks p) ∧ Stmt.Lacks p (hoistEach scope es t).1 :=
  hoistEach_lacks_of (fun e he => hoist_lacks hp scope (h e he)) t

/-- What a statement whose branches are free of conditionals becomes is free of them. -/
theorem normalize_free {s : Stmt} (h : Stmt.hasConditional s.inner = false) (next : Nat) :
    Stmt.hasConditional (normalize scope next s).1 = false := by
  obtain ⟨hoperands, hbefore⟩ := hoistEach_lacks Expr.isKind_isConditional scope
    (fun e _ => Expr.lacks_conditionals_but_conditionals e) { next }
  rw [Stmt.hasConditional_eq_false_iff] at h ⊢
  rw [normalize_eq (Stmt.hasConditional_eq_false_iff.2 h), Stmt.lacks_append, Stmt.lacks_cons,
    Stmt.operands_withOperands (length_hoistEach _ _ _), Stmt.inner_withOperands]
  exact ⟨hbefore, hoperands, h, Stmt.lacks_nil⟩

end Resolve

end Covenant
