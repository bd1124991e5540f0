import Covenant.Analysis.Mutability
import Covenant.Proofs.Contract.Parts

/-!
# What bodies call and write

A body calls a method on the contract itself, or writes a property, wherever such a call or such a
statement stands in it: in whatever branch, and in whatever operand of an operand. The effects that
are collected from a body tell exactly that (`mem_internalCalls`, `any_mutates_effectsOf`).
-/

namespace Covenant

/-! ## Within expressions and statements -/

namespace Expr

/-- **An expression stands within another one**: it is that one, or stands within a part of it. -/
inductive Contains : Expr → Expr → Prop
  | self (e : Expr) : Contains e e
  | part {e child inner : Expr} (hchild : child ∈ e.parts) (h : Contains child inner) :
      Contains e inner

/-- The walk through an expression visits what stands within it. -/
theorem mem_subexpressions {e inner : Expr} : inner ∈ e.subexpressions ↔ e.Contains inner := by
  constructor
  · intro h
    induction e using Expr.induction with
    | h e ih =>
      rw [subexpressions_eq] at h
      rcases List.mem_cons.1 h with rfl | h
      · exact .self inner
      · obtain ⟨child, hchild, h⟩ := List.mem_flatMap.1 h
        exact .part hchild (ih child hchild h)
  · intro h
    induction h with
    | self e =>
      rw [subexpressions_eq]
      exact List.mem_cons_self
    | part hchild _ ih =>
      rw [subexpressions_eq]
      exact List.mem_cons_of_mem _ (List.mem_flatMap.2 ⟨_, hchild, ih⟩)

end Expr

namespace Stmt

/-- **A statement stands within another one**: it is that one, or stands within a statement of one
of its branches. -/
inductive Contains : Stmt → Stmt → Prop
  | self (s : Stmt) : Contains s s
  | branch {s child inner : Stmt} (hchild : child ∈ s.inner) (h : Contains child inner) :
      Contains s inner

/-- The walk through a statement visits what stands within it. -/
theorem mem_substatements {s inner : Stmt} : inner ∈ s.substatements ↔ s.Contains inner := by
  constructor
  · intro h
    induction s using Stmt.induction with
    | h s ih =>
      rw [substatements_eq, substatementsAll_eq_flatMap] at h
      rcases List.mem_cons.1 h with rfl | h
      · exact .self inner
      · obtain ⟨child, hchild, h⟩ := List.mem_flatMap.1 h
        exact .branch hchild (ih child hchild h)
  · intro h
    induction h with
    | self s =>
      rw [substatements_eq]
      exact List.mem_cons_self
    | branch hchild _ ih =>
      rw [substatements_eq, substatementsAll_eq_flatMap]
      exact List.mem_cons_of_mem _ (List.mem_flatMap.2 ⟨_, hchild, ih⟩)

/-- A statement stands in a body, in a branch or not. -/
def Within (body : List Stmt) (inner : Stmt) : Prop :=
  ∃ s ∈ body, s.Contains inner

/-- An expression stands in a body, at any depth of an operand of any of its statements. -/
def Evaluates (body : List Stmt) (e : Expr) : Prop :=
  ∃ s, Within body s ∧ ∃ operand ∈ s.operands, operand.Contains e

/-- **A body calls a method on the contract itself.** -/
def CallsOwn (body : List Stmt) (target : String) : Prop :=
  ∃ pos self args, Evaluates body (.call pos target (.this self) args)

/-- **A body writes a property** as a whole, or an entry of it. -/
def Writes (body : List Stmt) : Prop :=
  (∃ pos property value, Within body (.setProperty pos property value)) ∨
    ∃ pos property indices value, Within body (.setEntry pos property indices value)

theorem mem_substatementsAll {body : List Stmt} {inner : Stmt} :
    inner ∈ substatementsAll body ↔ Within body inner := by
  simp only [substatementsAll_eq_flatMap, List.mem_flatMap, mem_substatements, Within]

/-! ## Effects -/

/-- The effects of a body are those of the statements and of the expressions that stand in it. -/
theorem mem_effectsOf {body : List Stmt} {effect : Effect} :
    effect ∈ effectsOf body ↔
      (∃ s, Within body s ∧ Effect.ofStmt? s = some effect) ∨
        ∃ e, Evaluates body e ∧ Effect.ofExpr? e = some effect := by
  have heffects : effectsOf body = (substatementsAll body).flatMap fun s =>
      (Effect.ofStmt? s).toList ++ s.operands.flatMap Expr.effects := by
    rw [substatementsAll_eq_flatMap, List.flatMap_assoc]
    rfl
  simp only [heffects, List.mem_flatMap, List.mem_append, Option.mem_toList, Expr.effects,
    List.mem_filterMap, mem_substatementsAll, Expr.mem_subexpressions]
  constructor
  · rintro ⟨s, hs, heffect | ⟨operand, hoperand, e, he, heffect⟩⟩
    · exact .inl ⟨s, hs, heffect⟩
    · exact .inr ⟨e, ⟨s, hs, operand, hoperand, he⟩, heffect⟩
  · rintro (⟨s, hs, heffect⟩ | ⟨e, ⟨s, hs, operand, hoperand, he⟩, heffect⟩)
    · exact ⟨s, hs, .inl heffect⟩
    · exact ⟨s, hs, .inr ⟨operand, hoperand, e, he, heffect⟩⟩

end Stmt

theorem Expr.isThis_eq_true {e : Expr} : e.isThis = true ↔ ∃ pos, e = .this pos := by
  cases e <;> simp [isThis]

/-- A call on the contract itself is the effect of such a call. -/
theorem Effect.ofExpr?_eq_call {e : Expr} {pos : Position} {target : String} :
    Effect.ofExpr? e = some (.call pos target true) ↔
      ∃ self args, e = .call pos target (.this self) args := by
  cases e with
  | call callPos callTarget receiver args =>
    simp only [ofExpr?, Option.some.injEq, Effect.call.injEq, Expr.isThis_eq_true,
      Expr.call.injEq]
    constructor
    · rintro ⟨rfl, rfl, self, rfl⟩
      exact ⟨self, args, rfl, rfl, rfl, rfl⟩
    · rintro ⟨self, _, rfl, rfl, rfl, rfl⟩
      exact ⟨rfl, rfl, self, rfl⟩
  | _ => simp [ofExpr?]

theorem Effect.ofStmt?_ne_call {s : Stmt} {pos : Position} {target : String} {internal : Bool} :
    Effect.ofStmt? s ≠ some (.call pos target internal) := by
  cases s <;> simp [ofStmt?]

/-- No expression writes a property by itself. -/
theorem Effect.mutates_ofExpr? {e : Expr} {effect : Effect} (h : Effect.ofExpr? e = some effect) :
    effect.mutates = false := by
  cases e <;> simp only [ofExpr?, Option.some.injEq, reduceCtorEq] at h <;> subst h <;> rfl

namespace Mutability

open Stmt

/-- **The collected calls of a body are its calls on the contract itself.** -/
theorem mem_internalCalls {body : List Stmt} {target : String} :
    target ∈ (internalCalls body).map Prod.snd ↔ CallsOwn body target := by
  have hcollected : target ∈ (internalCalls body).map Prod.snd ↔
      ∃ pos, .call pos target true ∈ effectsOf body := by
    rw [internalCalls, List.mem_map]
    constructor
    · rintro ⟨⟨pos, _⟩, hcall, rfl⟩
      obtain ⟨effect, heffect, hcall⟩ := List.mem_filterMap.1 hcall
      split at hcall
      · cases hcall
        exact ⟨pos, heffect⟩
      · cases hcall
    · rintro ⟨pos, heffect⟩
      exact ⟨(pos, target), List.mem_filterMap.2 ⟨_, heffect, rfl⟩, rfl⟩
  rw [hcollected]
  constructor
  · rintro ⟨pos, heffect⟩
    rcases mem_effectsOf.1 heffect with ⟨s, -, hs⟩ | ⟨e, he, heffect⟩
    · exact absurd hs Effect.ofStmt?_ne_call
    · obtain ⟨self, args, rfl⟩ := Effect.ofExpr?_eq_call.1 heffect
      exact ⟨pos, self, args, he⟩
  · rintro ⟨pos, self, args, he⟩
    exact ⟨pos, mem_effectsOf.2 (.inr ⟨_, he, Effect.ofExpr?_eq_call.2 ⟨self, args, rfl⟩⟩)⟩

/-- **Some effect of a body changes the state exactly where the body writes a property.** -/
theorem any_mutates_effectsOf {body : List Stmt} :
    (effectsOf body).any Effect.mutates = true ↔ Writes body := by
  rw [List.any_eq_true]
  constructor
  · rintro ⟨effect, heffect, hmutates⟩
    rcases mem_effectsOf.1 heffect with ⟨s, hs, hown⟩ | ⟨e, -, hown⟩
    · cases s with
      | setProperty pos property value => exact .inl ⟨pos, property, value, hs⟩
      | setEntry pos property indices value => exact .inr ⟨pos, property, indices, value, hs⟩
      | emit =>
        cases hown
        cases hmutates
      | _ => cases hown
    · rw [Effect.mutates_ofExpr? hown] at hmutates
      cases hmutates
  · rintro (⟨pos, property, value, hs⟩ | ⟨pos, property, indices, value, hs⟩)
    · exact ⟨.write property, mem_effectsOf.2 (.inl ⟨_, hs, rfl⟩), rfl⟩
    · exact ⟨.write property, mem_effectsOf.2 (.inl ⟨_, hs, rfl⟩), rfl⟩

end Mutability

end Covenant
