import Covenant.Contract.Expr
import Covenant.Source.Tree

/-!
# Operator precedence

A flat chain of operands and operators is made a tree: an operator that binds tighter goes deeper,
and of equal ones the first, except that powers are taken from the right.
-/

namespace Covenant

namespace Resolve

open Source (Operator)

/-- How tight an operator binds. -/
def precedence : Operator → Nat
  | .or => 1
  | .and => 2
  | .eq | .ne | .strictEq | .strictNe => 3
  | .lt | .le | .gt | .ge => 4
  | .add | .sub => 5
  | .mul | .div | .mod => 6
  | .pow => 7

/-- The operation of an operator; strict and loose comparison are one. -/
def operation : Operator → BinaryOp
  | .or => .or
  | .and => .and
  | .eq | .strictEq => .eq
  | .ne | .strictNe => .ne
  | .lt => .lt
  | .le => .le
  | .gt => .gt
  | .ge => .ge
  | .add => .add
  | .sub => .sub
  | .mul => .mul
  | .div => .div
  | .mod => .mod
  | .pow => .pow

/-- An operator with its place and the operand behind it. -/
structure OperatorLink where
  pos : Position
  operator : Operator
  operand : Expr
deriving Inhabited

/-- The least precedence an operator may have to go into the right operand of another. -/
def rightLimit (o : Operator) : Nat :=
  if o = .pow then precedence o else precedence o + 1

/-- **Takes operators into a tree as long as they bind at least as tight as the limit**, and
returns what is left of the chain. -/
def climb (limit : Nat) (left : Expr) (links : List OperatorLink) :
    { r : Expr × List OperatorLink // r.2.length ≤ links.length } :=
  match links with
  | [] => ⟨(left, []), Nat.le_refl _⟩
  | link :: rest =>
    if precedence link.operator < limit then ⟨(left, link :: rest), Nat.le_refl _⟩
    else
      let ⟨(right, after), hafter⟩ := climb (rightLimit link.operator) link.operand rest
      have hshorter : after.length < (link :: rest).length := Nat.lt_succ_of_le hafter
      let ⟨result, hresult⟩ :=
        climb limit (.binary link.pos (operation link.operator) left right) after
      ⟨result, Nat.le_trans hresult (Nat.le_of_lt hshorter)⟩
termination_by links.length
decreasing_by
  · exact Nat.lt_succ_self _
  · exact hshorter

/-- **The tree of a chain.** -/
def operatorTree (first : Expr) (links : List OperatorLink) : Expr :=
  (climb 1 first links).1.1

end Resolve

end Covenant
