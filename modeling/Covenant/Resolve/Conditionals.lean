import Covenant.Resolve.Types

/-!
# Hoisting conditionals

The machine has no conditional expression. Each `c ? t : f` is taken out of its statement: a
temporary is declared with `f` before the statement, a branch on `c` sets it to `t`, and the
statement reads the temporary instead. The temporaries are numbered through a whole build.
-/

namespace Covenant

namespace Resolve

/-- **The temporaries handed out so far**: the number of the next one, and the types of those that
the statements at hand brought in. -/
structure Temps where
  next : Nat
  types : Table Ty := []
deriving Inhabited

namespace Temps

/-- The name of a temporary. -/
def nameOf (n : Nat) : String :=
  "cond_" ++ toString n

/-- The type of an expression that may read a temporary. -/
def typeOf (t : Temps) (scope : Scope) (e : Expr) : Ty :=
  match e with
  | .var _ name => (t.types.get? name).getD (Resolve.typeOf scope e)
  | _ => Resolve.typeOf scope e

/-- The type of a temporary for two branches: that of the second, unless it has no value. -/
def branchType (t : Temps) (scope : Scope) (yes no : Expr) : Ty :=
  let type := t.typeOf scope no
  if type.isVoid then t.typeOf scope yes else type

/-- Hands out the next temporary. -/
def take (t : Temps) (type : Ty) : Temps :=
  { next := t.next + 1, types := t.types.put (nameOf t.next) type }

end Temps

mutual
/-- **Takes the conditionals out of an expression**: the statements to run before it, and what is
left of it. -/
def hoist (scope : Scope) : Expr → Temps → List Stmt × Expr × Temps
  | .entry pos property indices, t =>
    let (pre, indices, t) := hoistEach scope indices t
    (pre, .entry pos property indices, t)
  | .binary pos op left right, t =>
    let (preLeft, left, t) := hoist scope left t
    let (preRight, right, t) := hoist scope right t
    (preLeft ++ preRight, .binary pos op left right, t)
  | .not pos value, t =>
    let (pre, value, t) := hoist scope value t
    (pre, .not pos value, t)
  | .external pos contract address, t =>
    let (pre, address, t) := hoist scope address t
    (pre, .external pos contract address, t)
  | .deploy pos contract args, t =>
    let (pre, args, t) := hoistEach scope args t
    (pre, .deploy pos contract args, t)
  | .call pos target receiver args, t =>
    let (preReceiver, receiver, t) := hoist scope receiver t
    let (preArgs, args, t) := hoistEach scope args t
    (preReceiver ++ preArgs, .call pos target receiver args, t)
  | .record pos shape fields, t =>
    let (pre, fields, t) := hoistEach scope fields t
    (pre, .record pos shape fields, t)
  | .hash pos inputs, t =>
    let (pre, inputs, t) := hoistEach scope inputs t
    (pre, .hash pos inputs, t)
  | .conditional pos condition yes no, t =>
    let (pre, condition, t) := hoist scope condition t
    let (preYes, yes, t) := hoist scope yes t
    let (preNo, no, t) := hoist scope no t
    let temp := Temps.nameOf t.next
    let type := t.branchType scope yes no
    (pre ++ preNo ++
        [.declare pos temp type (some no),
          .branch pos condition (preYes ++ [.setVariable pos temp yes]) []],
      .var pos temp, t.take type)
  | e, t => ([], e, t)

/-- Takes the conditionals out of several expressions, in order. -/
def hoistEach (scope : Scope) : List Expr → Temps → List Stmt × List Expr × Temps
  | [], t => ([], [], t)
  | e :: es, t =>
    let (pre, e, t) := hoist scope e t
    let (preRest, es, t) := hoistEach scope es t
    (pre ++ preRest, e :: es, t)
end

mutual
/-- **Takes the conditionals out of a statement.** -/
def hoistStmt (scope : Scope) : Stmt → Temps → List Stmt × Temps
  | .setProperty pos property value, t =>
    let (pre, value, t) := hoist scope value t
    (pre ++ [.setProperty pos property value], t)
  | .declare pos name type (some value), t =>
    let (pre, value, t) := hoist scope value t
    (pre ++ [.declare pos name type (some value)], t)
  | .setVariable pos name value, t =>
    let (pre, value, t) := hoist scope value t
    (pre ++ [.setVariable pos name value], t)
  | .setEntry pos property indices value, t =>
    let (preIndices, indices, t) := hoistEach scope indices t
    let (preValue, value, t) := hoist scope value t
    (preIndices ++ preValue ++ [.setEntry pos property indices value], t)
  | .exit pos (some value), t =>
    let (pre, value, t) := hoist scope value t
    (pre ++ [.exit pos (some value)], t)
  | .branch pos condition yes no, t =>
    let (pre, condition, t) := hoist scope condition t
    let (yes, t) := hoistBody scope yes t
    let (no, t) := hoistBody scope no t
    (pre ++ [.branch pos condition yes no], t)
  | .throw pos message, t =>
    let (pre, message, t) := hoist scope message t
    (pre ++ [.throw pos message], t)
  | .emit pos event args, t =>
    let (pre, args, t) := hoistEach scope args t
    (pre ++ [.emit pos event args], t)
  | .evaluate pos value, t =>
    let (pre, value, t) := hoist scope value t
    (pre ++ [.evaluate pos value], t)
  | s, t => ([s], t)

/-- Takes the conditionals out of a list of statements. -/
def hoistBody (scope : Scope) : List Stmt → Temps → List Stmt × Temps
  | [], t => ([], t)
  | s :: ss, t =>
    let (s, t) := hoistStmt scope s t
    let (ss, t) := hoistBody scope ss t
    (s ++ ss, t)
end

/-- **A statement without conditionals**, and the number of the next temporary. -/
def normalize (scope : Scope) (next : Nat) (s : Stmt) : List Stmt × Nat :=
  let (body, t) := hoistStmt scope s { next }
  (body, t.next)

/-- **A body without conditionals**, and the number of the next temporary. -/
def normalizeAll (scope : Scope) (next : Nat) (body : List Stmt) : List Stmt × Nat :=
  let (body, t) := hoistBody scope body { next }
  (body, t.next)

/-- **A body without conditionals**, if it is there with all its expressions. -/
def normalizeAll? (scope : Scope) (next : Nat) (body : List Stmt) : Option (List Stmt × Nat) :=
  if Stmt.isWhole body then some (normalizeAll scope next body) else none

end Resolve

end Covenant
