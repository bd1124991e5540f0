import Covenant.Contract.Basic
import Covenant.Diagnostic.Cause

/-!
# Control flow

Warnings about bodies: statements that are never reached, methods that may end without the value
they should return, and locals that are never read. Both branches of an `if` count as possible.
-/

namespace Covenant

namespace Flow

/-- **What is known of a body**: whether every path through it ends it, the statements found
unreachable, the locals read, and the locals declared. -/
structure Summary where
  ends : Bool := false
  unreachable : List Position := []
  reads : List String := []
  declared : List (String × Position) := []
deriving Inhabited

namespace Summary

/-- One part after another, which decides whether the whole ends. -/
def andThen (a b : Summary) : Summary :=
  { ends := b.ends
    unreachable := a.unreachable ++ b.unreachable
    reads := a.reads ++ b.reads
    declared := a.declared ++ b.declared }

end Summary

/-- The locals that expressions read. -/
def readsOf (es : List Expr) : List String :=
  (es.flatMap Expr.subexpressions).filterMap fun
    | .var _ name => some name
    | _ => none

mutual
/-- **Looks at a statement.** -/
def ofStmt : Stmt → Summary
  | .exit _ value => { ends := true, reads := readsOf value.toList }
  | .throw _ message => { ends := true, reads := readsOf [message] }
  | .declare pos name _ value => { reads := readsOf value.toList, declared := [(name, pos)] }
  | .branch _ condition yes no =>
    let first : Summary := { reads := readsOf [condition] }
    let yes := ofBody yes
    let no' := ofBody no
    let whole := (first.andThen yes).andThen no'
    { whole with ends := yes.ends && no'.ends && !no.isEmpty }
  | s => { reads := readsOf s.operands }

/-- **Looks at a body**, up to the first statement that ends it. -/
def ofBody : List Stmt → Summary
  | [] => {}
  | s :: rest =>
    let first := ofStmt s
    if first.ends then
      { first with
        unreachable := first.unreachable ++ (rest.head?.map Stmt.pos).toList }
    else first.andThen (ofBody rest)
end

/-- The last declaration of each name, in the order of the last declarations. -/
def lastDeclarations : List (String × Position) → List (String × Position)
  | [] => []
  | d :: rest =>
    if rest.any (·.1 = d.1) then lastDeclarations rest else d :: lastDeclarations rest

/-- The declarations of locals that are never read, in the order of the source. -/
def unused (s : Summary) : List (String × Position) :=
  ((lastDeclarations s.declared).filter fun d => !s.reads.contains d.1).mergeSort
    fun a b => a.2.offset ≤ b.2.offset

/-- **The warnings about a body** that returns a type and stands at a place. -/
def warnings (body : List Stmt) (returns : Ty) (pos : Position) : List Fault :=
  let summary := ofBody body
  summary.unreachable.map (⟨·, .unreachable⟩)
    ++ (if !returns.isVoid && !summary.ends then [⟨pos, .missingReturn⟩] else [])
    ++ (unused summary).map fun (name, pos) => ⟨pos, .unusedVariable name⟩

/-- **The warnings about a contract**: those of its constructor, then those of its methods. They
are found before inheritance, so that each body is looked at once. -/
def analyze (c : Contract) : List Fault :=
  (match c.construction with
    | some k => warnings k.body .void k.pos
    | none => [])
    ++ c.methods.flatMap fun m => warnings m.body m.returns m.pos

end Flow

end Covenant
