import Covenant.Contract.Printer
import Covenant.Contract.Stmt
import Covenant.Proofs.Conditionals.Elimination
import Mathlib.Data.List.Basic

/-!
# Code without the names of its locals

The temporaries of a body are numbered through a whole build, so that their names say how much was
resolved before the body; and a name decides the type that a temporary is declared with. All else
in a body is its own. Without the names of the locals, and the types they are declared with, a
statement becomes the same whatever the number of the next temporary is and wherever it stands
(`normalize_nameless`); and what such a body is made of, and does, is what the body with names is
made of and does.
-/

namespace Covenant

mutual
/-- **An expression without the names of its locals.** -/
def Expr.nameless : Expr → Expr
  | .var pos _ => .var pos ""
  | .entry pos property indices => .entry pos property (Expr.namelessEach indices)
  | .binary pos op left right => .binary pos op left.nameless right.nameless
  | .not pos value => .not pos value.nameless
  | .external pos contract address => .external pos contract address.nameless
  | .deploy pos contract args => .deploy pos contract (Expr.namelessEach args)
  | .call pos target receiver args =>
    .call pos target receiver.nameless (Expr.namelessEach args)
  | .conditional pos condition yes no =>
    .conditional pos condition.nameless yes.nameless no.nameless
  | .record pos shape fields => .record pos shape (Expr.namelessEach fields)
  | .hash pos inputs => .hash pos (Expr.namelessEach inputs)
  | e => e

/-- Expressions without the names of their locals. -/
def Expr.namelessEach : List Expr → List Expr
  | [] => []
  | e :: es => e.nameless :: Expr.namelessEach es
end

mutual
/-- **A statement without the names of its locals** and the types of those it declares. -/
def Stmt.nameless : Stmt → Stmt
  | .setProperty pos property value => .setProperty pos property value.nameless
  | .declare pos _ _ value => .declare pos "" .void (value.map Expr.nameless)
  | .setVariable pos _ value => .setVariable pos "" value.nameless
  | .setEntry pos property indices value =>
    .setEntry pos property (indices.map Expr.nameless) value.nameless
  | .exit pos value => .exit pos (value.map Expr.nameless)
  | .branch pos condition yes no =>
    .branch pos condition.nameless (Stmt.namelessAll yes) (Stmt.namelessAll no)
  | .throw pos message => .throw pos message.nameless
  | .emit pos event args => .emit pos event (args.map Expr.nameless)
  | .evaluate pos value => .evaluate pos value.nameless
  | .skip pos => .skip pos

/-- A body without the names of its locals. -/
def Stmt.namelessAll : List Stmt → List Stmt
  | [] => []
  | s :: ss => s.nameless :: Stmt.namelessAll ss
end

/-! ## What stays -/

namespace Expr

@[simp] theorem namelessEach_eq_map (es : List Expr) : namelessEach es = es.map nameless := by
  induction es with
  | nil => rfl
  | cons e es ih => rw [namelessEach, ih, List.map_cons]

@[simp] theorem pos_nameless (e : Expr) : e.nameless.pos = e.pos := by
  cases e <;> rfl

@[simp] theorem isThis_nameless (e : Expr) : e.nameless.isThis = e.isThis := by
  cases e <;> rfl

@[simp] theorem isMissing_nameless (e : Expr) : e.nameless.isMissing = e.isMissing := by
  cases e <;> rfl

/-- The parts of an expression keep their order. -/
theorem parts_nameless (e : Expr) : e.nameless.parts = e.parts.map nameless := by
  cases e <;> simp [nameless, parts]

/-- Parts may be replaced before or after the names are dropped. -/
theorem nameless_withParts {e : Expr} {es : List Expr} (h : es.length = e.parts.length) :
    (e.withParts es).nameless = e.nameless.withParts (es.map nameless) := by
  match e, es, h with
  | entry _ _ _, _, _ | deploy _ _ _, _, _ | record _ _ _, _, _ | hash _ _, _, _ =>
    simp [nameless, withParts]
  | binary _ _ _ _, [_, _], _ | not _ _, [_], _ | external _ _ _, [_], _ => rfl
  | conditional _ _ _ _, [_, _, _], _ => rfl
  | call _ _ _ _, _ :: _, _ => simp [nameless, withParts]
  | literal _ _ _, [], _ | var _ _, [], _ | storage _ _, [], _ | this _, [], _ => rfl
  | environment _ _ _, [], _ | length _ _, [], _ | missing, [], _ => rfl

/-- The expressions within one are the same, but for the names. -/
@[simp] theorem subexpressions_nameless (e : Expr) :
    e.nameless.subexpressions = e.subexpressions.map nameless := by
  induction e using Expr.induction with
  | h e ih =>
    rw [subexpressions_eq, parts_nameless, subexpressions_eq e, List.map_cons, List.map_flatMap,
      List.flatMap_map]
    exact congrArg _ (List.flatMap_congr ih)

@[simp] theorem isPrintable_nameless (e : Expr) : e.nameless.isPrintable = e.isPrintable := by
  rw [isPrintable, isPrintable, subexpressions_nameless, List.all_map]
  refine List.all_congr rfl fun part => ?_
  cases part <;> simp [nameless]

end Expr

namespace Stmt

@[simp] theorem namelessAll_eq_map (body : List Stmt) : namelessAll body = body.map nameless := by
  induction body with
  | nil => rfl
  | cons s body ih => rw [namelessAll, ih, List.map_cons]

@[simp] theorem operands_nameless (s : Stmt) :
    s.nameless.operands = s.operands.map Expr.nameless := by
  match s with
  | declare _ _ _ none | declare _ _ _ (some _) | exit _ none | exit _ (some _) => rfl
  | setProperty _ _ _ | setVariable _ _ _ | branch _ _ _ _ | throw _ _ | emit _ _ _ => rfl
  | evaluate _ _ | skip _ => rfl
  | setEntry _ _ indices value => simp [nameless, operands]

/-- The statements within a statement keep their order. -/
theorem inner_nameless (s : Stmt) : s.nameless.inner = s.inner.map nameless := by
  cases s <;> simp [nameless, inner]

/-- Operands may be replaced before or after the names are dropped. -/
theorem nameless_withOperands {s : Stmt} {es : List Expr} (h : es.length = s.operands.length) :
    (s.withOperands es).nameless = s.nameless.withOperands (es.map Expr.nameless) := by
  match s, es, h with
  | declare _ _ _ none, [], _ | declare _ _ _ (some _), [_], _ | exit _ none, [], _ => rfl
  | exit _ (some _), [_], _ | setProperty _ _ _, [_], _ | setVariable _ _ _, [_], _ => rfl
  | branch _ _ _ _, [_], _ | throw _ _, [_], _ | evaluate _ _, [_], _ | skip _, [], _ => rfl
  | emit _ _ _, _, _ => rfl
  | setEntry _ _ indices value, es, h =>
    simp only [operands, List.length_append, List.length_singleton] at h
    obtain ⟨last, hlast⟩ : ∃ last, es.drop indices.length = [last] :=
      List.length_eq_one_iff.1 (by rw [List.length_drop]; omega)
    simp [withOperands, nameless, hlast, ← List.map_take, ← List.map_drop]

@[simp] theorem substatements_nameless (s : Stmt) :
    s.nameless.substatements = s.substatements.map nameless := by
  induction s using Stmt.induction with
  | h s ih =>
    rw [substatements_eq, inner_nameless, substatements_eq s, List.map_cons,
      substatementsAll_eq_flatMap, substatementsAll_eq_flatMap, List.map_flatMap, List.flatMap_map]
    exact congrArg _ (List.flatMap_congr ih)

/-- The statements of a body, at any depth, are the same, but for the names. -/
@[simp] theorem substatementsAll_nameless (body : List Stmt) :
    substatementsAll (body.map nameless) = (substatementsAll body).map nameless := by
  simp [substatementsAll_eq_flatMap, List.flatMap_map, List.map_flatMap]

/-- The expressions of a body are the same, but for the names. -/
@[simp] theorem expressionsOf_nameless (body : List Stmt) :
    expressionsOf (body.map nameless) = (expressionsOf body).map Expr.nameless := by
  simp [expressionsOf, List.flatMap_map, List.map_flatMap]

end Stmt

/-! ## What it does -/

namespace Effect

@[simp] theorem ofExpr?_nameless (e : Expr) : ofExpr? e.nameless = ofExpr? e := by
  cases e <;> simp [Expr.nameless, ofExpr?]

/-- A statement has the same effect on its own. -/
@[simp] theorem ofStmt?_nameless (s : Stmt) : ofStmt? s.nameless = ofStmt? s := by
  cases s <;> rfl

end Effect

/-- **A body does the same** without the names of its locals. -/
@[simp] theorem Stmt.effectsOf_nameless (body : List Stmt) :
    effectsOf (body.map nameless) = effectsOf body := by
  have hexpr (e : Expr) : e.nameless.effects = e.effects := by
    simp [Expr.effects, List.filterMap_map]
  have hstmt (s : Stmt) : s.nameless.effects = s.effects := by
    simp [effects, List.flatMap_map, hexpr]
  simp [effectsOf, List.flatMap_map, hstmt]

/-! ## Temporaries -/

namespace Resolve

variable {scope scope' : Scope}

theorem hoistEach_nameless_of {es : List Expr}
    (h : ∀ e ∈ es, ∀ t t',
      (hoist scope e t).1.map Stmt.nameless = (hoist scope' e t').1.map Stmt.nameless ∧
        (hoist scope e t).2.1.nameless = (hoist scope' e t').2.1.nameless) (t t' : Temps) :
    (hoistEach scope es t).1.map Stmt.nameless = (hoistEach scope' es t').1.map Stmt.nameless ∧
      (hoistEach scope es t).2.1.map Expr.nameless =
        (hoistEach scope' es t').2.1.map Expr.nameless := by
  induction es generalizing t t' with
  | nil => exact ⟨rfl, rfl⟩
  | cons e es ih =>
    rw [List.forall_mem_cons] at h
    obtain ⟨hbefore, hleft⟩ := h.1 t t'
    obtain ⟨hbefore', hleft'⟩ := ih h.2 (hoist scope e t).2.2 (hoist scope' e t').2.2
    simp only [hoistEach, List.map_append, List.map_cons, hbefore, hbefore', hleft, hleft',
      and_self]

/-- **What is left of an expression does not depend on the temporaries** handed out before, nor on
the scope, but for the names of its locals; nor do the statements before it. -/
theorem hoist_nameless (scope scope' : Scope) (e : Expr) (t t' : Temps) :
    (hoist scope e t).1.map Stmt.nameless = (hoist scope' e t').1.map Stmt.nameless ∧
      (hoist scope e t).2.1.nameless = (hoist scope' e t').2.1.nameless := by
  induction e using Expr.induction_conditional generalizing t t' with
  | plain e hconditional ih =>
    obtain ⟨hbefore, hleft⟩ := hoistEach_nameless_of ih t t'
    rw [hoist_eq hconditional, hoist_eq hconditional,
      Expr.nameless_withParts (length_hoistEach _ _ _),
      Expr.nameless_withParts (length_hoistEach _ _ _)]
    exact ⟨hbefore, congrArg _ hleft⟩
  | conditional pos condition yes no hcondition hyes hno =>
    obtain ⟨hbefore, hleft⟩ := hcondition t t'
    obtain ⟨hbeforeYes, hleftYes⟩ := hyes (hoist scope condition t).2.2
      (hoist scope' condition t').2.2
    obtain ⟨hbeforeNo, hleftNo⟩ := hno
      (hoist scope yes (hoist scope condition t).2.2).2.2
      (hoist scope' yes (hoist scope' condition t').2.2).2.2
    simp [hoist, Stmt.nameless, Expr.nameless, *]

/-- Expressions are freed of conditionals alike, one after the other. -/
theorem hoistEach_nameless (scope scope' : Scope) (es : List Expr) (t t' : Temps) :
    (hoistEach scope es t).1.map Stmt.nameless = (hoistEach scope' es t').1.map Stmt.nameless ∧
      (hoistEach scope es t).2.1.map Expr.nameless =
        (hoistEach scope' es t').2.1.map Expr.nameless :=
  hoistEach_nameless_of (fun e _ => hoist_nameless scope scope' e) t t'

/-- **A statement becomes the same, but for the names of its locals**, whatever the number of the
next temporary is. -/
theorem normalize_nameless {s s' : Stmt} (hs : Stmt.hasConditional s.inner = false)
    (hs' : Stmt.hasConditional s'.inner = false) (hoperands : s.operands = s'.operands)
    (hsame : s.nameless = s'.nameless) (scope scope' : Scope) (next next' : Nat) :
    (normalize scope next s).1.map Stmt.nameless =
      (normalize scope' next' s').1.map Stmt.nameless := by
  obtain ⟨hbefore, hleft⟩ := hoistEach_nameless scope scope' s.operands { next } { next := next' }
  have hlength := length_hoistEach scope' s'.operands { next := next' }
  rw [normalize_eq hs, normalize_eq hs', List.map_append, List.map_append, List.map_singleton,
    List.map_singleton, Stmt.nameless_withOperands (length_hoistEach _ _ _),
    Stmt.nameless_withOperands hlength, hsame, ← hoperands, hbefore, hleft]

end Resolve

end Covenant
