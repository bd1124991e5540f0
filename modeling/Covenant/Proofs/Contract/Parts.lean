import Covenant.Contract.Stmt

/-!
# The parts of expressions and statements

Every expression has its parts, and every statement its operands and the statements in its
branches. What holds of an expression whenever it holds of its parts holds of all expressions
(`Expr.induction`), so that a fact about all of them has two cases where it would have one for each
kind: an expression with its parts exchanged for others, and the kind the fact is about.
-/

namespace Covenant

namespace Expr

/-- The expressions an expression is made of, in the order in which they are written. -/
def parts : Expr → List Expr
  | entry _ _ indices => indices
  | binary _ _ left right => [left, right]
  | not _ value => [value]
  | external _ _ address => [address]
  | deploy _ _ args => args
  | call _ _ receiver args => receiver :: args
  | conditional _ condition yes no => [condition, yes, no]
  | record _ _ fields => fields
  | hash _ inputs => inputs
  | _ => []

/-- **An expression with other parts** in place of its own. -/
def withParts (e : Expr) (es : List Expr) : Expr :=
  match e, es with
  | entry pos property _, es => entry pos property es
  | binary pos op _ _, [left, right] => binary pos op left right
  | not pos _, [value] => not pos value
  | external pos contract _, [address] => external pos contract address
  | deploy pos contract _, es => deploy pos contract es
  | call pos target _ _, receiver :: args => call pos target receiver args
  | conditional pos _ _ _, [condition, yes, no] => conditional pos condition yes no
  | record pos shape _, es => record pos shape es
  | hash pos _, es => hash pos es
  | e, _ => e

theorem subexpressionsAll_eq_flatMap (es : List Expr) :
    subexpressionsAll es = es.flatMap subexpressions := by
  induction es with
  | nil => rfl
  | cons e es ih => rw [subexpressionsAll, ih, List.flatMap_cons]

/-- What is within an expression is the expression itself and what is within its parts. -/
theorem subexpressions_eq (e : Expr) : e.subexpressions = e :: e.parts.flatMap subexpressions := by
  cases e <;> simp [subexpressions, parts, subexpressionsAll_eq_flatMap]

theorem hasConditional_eq (e : Expr) :
    e.hasConditional = (e.isConditional || e.parts.any hasConditional) := by
  rw [hasConditional, subexpressions_eq, List.any_cons, List.any_flatMap]
  rfl

@[simp] theorem hasConditional_var (pos : Position) (x : String) :
    (var pos x).hasConditional = false := rfl

/-- A part is smaller than what it is part of, so that recursion on parts ends. -/
theorem sizeOf_lt_of_mem_parts {e part : Expr} (h : part ∈ e.parts) : sizeOf part < sizeOf e := by
  cases e with
  | entry _ _ indices =>
    have := List.sizeOf_lt_of_mem (show part ∈ indices from h)
    simp only [entry.sizeOf_spec]
    omega
  | binary =>
    simp only [parts, List.mem_cons, List.not_mem_nil, or_false] at h
    rcases h with rfl | rfl <;> simp only [binary.sizeOf_spec] <;> omega
  | not =>
    obtain rfl := List.mem_singleton.1 h
    simp only [not.sizeOf_spec]
    omega
  | external =>
    obtain rfl := List.mem_singleton.1 h
    simp only [external.sizeOf_spec]
    omega
  | deploy _ _ args =>
    have := List.sizeOf_lt_of_mem (show part ∈ args from h)
    simp only [deploy.sizeOf_spec]
    omega
  | call _ _ receiver args =>
    rcases List.mem_cons.1 h with rfl | h
    · simp only [call.sizeOf_spec]
      omega
    · have := List.sizeOf_lt_of_mem h
      simp only [call.sizeOf_spec]
      omega
  | conditional =>
    simp only [parts, List.mem_cons, List.not_mem_nil, or_false] at h
    rcases h with rfl | rfl | rfl <;> simp only [conditional.sizeOf_spec] <;> omega
  | record _ _ fields =>
    have := List.sizeOf_lt_of_mem (show part ∈ fields from h)
    simp only [record.sizeOf_spec]
    omega
  | hash _ inputs =>
    have := List.sizeOf_lt_of_mem (show part ∈ inputs from h)
    simp only [hash.sizeOf_spec]
    omega
  | _ => cases h

/-- **What goes from the parts to the whole holds of every expression.** -/
theorem induction {motive : Expr → Prop}
    (h : ∀ e, (∀ part ∈ e.parts, motive part) → motive e) (e : Expr) : motive e :=
  h e fun part _ => induction h part
termination_by sizeOf e
decreasing_by exact sizeOf_lt_of_mem_parts ‹_›

/-- The same with a case of its own for conditionals, where these are taken out and all else hands
on what its parts give. -/
theorem induction_conditional {motive : Expr → Prop}
    (plain : ∀ e : Expr, e.isConditional = false → (∀ part ∈ e.parts, motive part) → motive e)
    (conditional : ∀ pos condition yes no, motive condition → motive yes → motive no →
      motive (.conditional pos condition yes no)) (e : Expr) : motive e := by
  induction e using Expr.induction with
  | h e ih =>
    cases e with
    | conditional pos condition yes no =>
      simp only [parts, List.forall_mem_cons] at ih
      exact conditional pos condition yes no ih.1 ih.2.1 ih.2.2.1
    | _ => exact plain _ rfl ih

/-- As many parts as there were are the parts. -/
theorem parts_withParts {e : Expr} {es : List Expr} (h : es.length = e.parts.length) :
    (e.withParts es).parts = es := by
  match e, es, h with
  | entry _ _ _, _, _ => rfl
  | binary _ _ _ _, [_, _], _ => rfl
  | not _ _, [_], _ => rfl
  | external _ _ _, [_], _ => rfl
  | deploy _ _ _, _, _ => rfl
  | call _ _ _ _, _ :: _, _ => rfl
  | conditional _ _ _ _, [_, _, _], _ => rfl
  | record _ _ _, _, _ => rfl
  | hash _ _, _, _ => rfl
  | literal _ _ _, [], _ => rfl
  | var _ _, [], _ => rfl
  | storage _ _, [], _ => rfl
  | this _, [], _ => rfl
  | environment _ _ _, [], _ => rfl
  | length _ _, [], _ => rfl
  | missing, [], _ => rfl

/-- An expression is made of its own parts. -/
theorem withParts_parts (e : Expr) : e.withParts e.parts = e := by
  cases e <;> rfl

theorem isConditional_withParts (e : Expr) (es : List Expr) :
    (e.withParts es).isConditional = e.isConditional := by
  unfold withParts
  split <;> rfl

theorem isMissing_withParts (e : Expr) (es : List Expr) :
    (e.withParts es).isMissing = e.isMissing := by
  unfold withParts
  split <;> rfl

/-! ### Kinds of expressions -/

/-- **A kind of expressions**: it does not depend on their parts, and no reading of a local is of
the kind. -/
structure IsKind (p : Expr → Bool) : Prop where
  withParts : ∀ e es, p (e.withParts es) = p e
  var : ∀ pos x, p (var pos x) = false

/-- Being a conditional is a matter of the expression and not of its parts. -/
theorem isKind_isConditional : IsKind isConditional :=
  ⟨isConditional_withParts, fun _ _ => rfl⟩

theorem isKind_isMissing : IsKind isMissing :=
  ⟨isMissing_withParts, fun _ _ => rfl⟩

/-- Nothing of a kind is within an expression. -/
def Lacks (p : Expr → Bool) (e : Expr) : Prop :=
  ∀ s ∈ e.subexpressions, p s = false

/-- An expression lacks a kind if it is not of it and its parts lack it. -/
theorem lacks_iff {p : Expr → Bool} {e : Expr} :
    e.Lacks p ↔ p e = false ∧ ∀ part ∈ e.parts, part.Lacks p := by
  rw [Lacks, subexpressions_eq, List.forall_mem_cons]
  refine and_congr_right fun _ => ⟨fun h part hpart s hs => ?_, fun h s hs => ?_⟩
  · exact h s (List.mem_flatMap_of_mem hpart hs)
  · obtain ⟨part, hpart, hs⟩ := List.mem_flatMap.1 hs
    exact h part hpart s hs

theorem lacks_var {p : Expr → Bool} (hp : IsKind p) {pos : Position} {x : String} :
    (var pos x).Lacks p :=
  lacks_iff.2 ⟨hp.var pos x, fun _ h => absurd h List.not_mem_nil⟩

/-- The only conditionals within an expression are conditionals. -/
theorem lacks_conditionals_but_conditionals (e : Expr) :
    e.Lacks fun s => s.isConditional && !s.isConditional :=
  fun _ _ => Bool.and_not_self _

/-- To have no conditional is to lack the kind. -/
theorem hasConditional_eq_false_iff {e : Expr} :
    e.hasConditional = false ↔ e.Lacks isConditional := by
  simp [hasConditional, Lacks]

end Expr

namespace Stmt

theorem substatementsAll_eq_flatMap (body : List Stmt) :
    substatementsAll body = body.flatMap substatements := by
  induction body with
  | nil => rfl
  | cons s body ih => rw [substatementsAll, ih, List.flatMap_cons]

/-- The statements in the branches of a statement. -/
def inner : Stmt → List Stmt
  | branch _ _ yes no => yes ++ no
  | _ => []

/-- A statement comes first among those within it. -/
theorem substatements_eq (s : Stmt) : s.substatements = s :: substatementsAll s.inner := by
  cases s <;> simp [substatements, inner, substatementsAll_eq_flatMap]

theorem sizeOf_lt_of_mem_inner {s part : Stmt} (h : part ∈ s.inner) : sizeOf part < sizeOf s := by
  cases s with
  | branch pos condition yes no =>
    rcases List.mem_append.1 h with h | h
    · have := List.sizeOf_lt_of_mem h
      simp only [branch.sizeOf_spec]
      omega
    · have := List.sizeOf_lt_of_mem h
      simp only [branch.sizeOf_spec]
      omega
  | _ => cases h

/-- **What goes from the branches to the whole holds of every statement.** -/
theorem induction {motive : Stmt → Prop}
    (h : ∀ s, (∀ part ∈ s.inner, motive part) → motive s) (s : Stmt) : motive s :=
  h s fun part _ => induction h part
termination_by sizeOf s
decreasing_by exact sizeOf_lt_of_mem_inner ‹_›

@[simp] theorem substatementsAll_append (first second : List Stmt) :
    substatementsAll (first ++ second) = substatementsAll first ++ substatementsAll second := by
  simp [substatementsAll_eq_flatMap]

/-- What is collected from a statement comes before what is collected from its branches. -/
theorem filterMap_substatementsAll_cons {α : Type} (f : Stmt → Option α) (s : Stmt)
    (body : List Stmt) :
    (substatementsAll (s :: body)).filterMap f =
      (f s).toList ++ (substatementsAll s.inner).filterMap f ++
        (substatementsAll body).filterMap f := by
  simp only [substatementsAll, substatements_eq, List.filterMap_append]
  cases h : f s <;> simp [h]

@[simp] theorem expressionsOf_nil : expressionsOf [] = [] := rfl

/-- The expressions of a statement come before those of the statements in its branches. -/
theorem expressionsOf_cons (s : Stmt) (body : List Stmt) :
    expressionsOf (s :: body) =
      s.operands.flatMap Expr.subexpressions ++ expressionsOf s.inner ++ expressionsOf body := by
  simp only [expressionsOf, substatementsAll, substatements_eq, List.flatMap_append,
    List.flatMap_cons, List.append_assoc]

@[simp] theorem expressionsOf_append (first second : List Stmt) :
    expressionsOf (first ++ second) = expressionsOf first ++ expressionsOf second := by
  simp [expressionsOf]

@[simp] theorem hasConditional_nil : hasConditional [] = false := rfl

@[simp] theorem hasConditional_append (first second : List Stmt) :
    hasConditional (first ++ second) = (hasConditional first || hasConditional second) := by
  simp [hasConditional]

/-- A body has a conditional in the operands or branches of its first statement, or behind it. -/
theorem hasConditional_cons (s : Stmt) (body : List Stmt) :
    hasConditional (s :: body) =
      (s.operands.any Expr.hasConditional || hasConditional s.inner || hasConditional body) := by
  rw [hasConditional, expressionsOf_cons, List.any_append, List.any_append, List.any_flatMap]
  rfl

theorem hasConditional_eq_any (body : List Stmt) :
    hasConditional body = body.any fun s => hasConditional [s] := by
  induction body with
  | nil => rfl
  | cons s body ih => rw [← List.singleton_append, hasConditional_append, ih]; rfl

/-- Nothing of a kind is within a body. -/
def Lacks (p : Expr → Bool) (body : List Stmt) : Prop :=
  ∀ e ∈ expressionsOf body, p e = false

@[simp] theorem lacks_nil {p : Expr → Bool} : Lacks p [] :=
  fun _ h => absurd h List.not_mem_nil

@[simp] theorem lacks_append {p : Expr → Bool} {first second : List Stmt} :
    Lacks p (first ++ second) ↔ Lacks p first ∧ Lacks p second := by
  simp [Lacks, or_imp, forall_and]

/-- A body lacks a kind if the operands and branches of its first statement do, and what is behind
it. -/
theorem lacks_cons {p : Expr → Bool} {s : Stmt} {body : List Stmt} :
    Lacks p (s :: body) ↔ (∀ e ∈ s.operands, e.Lacks p) ∧ Lacks p s.inner ∧ Lacks p body := by
  simp only [Lacks, Expr.Lacks, expressionsOf_cons, List.mem_append, List.mem_flatMap, or_imp,
    forall_and, and_assoc, forall_exists_index, and_imp]
  exact and_congr_left fun _ => ⟨fun h e he x hx => h x e he hx, fun h x e he hx => h e he x hx⟩

/-- What is not within a body is within none of its statements. -/
theorem Lacks.of_mem {p : Expr → Bool} {body : List Stmt} (h : Lacks p body) {s : Stmt}
    (hs : s ∈ body) : Lacks p [s] := by
  obtain ⟨before, after, rfl⟩ := List.append_of_mem hs
  rw [lacks_append, ← List.singleton_append, lacks_append] at h
  exact h.2.1

theorem hasConditional_eq_false_iff {body : List Stmt} :
    hasConditional body = false ↔ Lacks Expr.isConditional body := by
  simp [hasConditional, Lacks]

/-- A body is whole if no expression is missing in it. -/
theorem isWhole_iff {body : List Stmt} : isWhole body = true ↔ Lacks Expr.isMissing body := by
  simp [isWhole, Lacks]

/-- **A statement with other operands** in place of its own. -/
def withOperands (s : Stmt) (es : List Expr) : Stmt :=
  match s, es with
  | setProperty pos property _, [value] => setProperty pos property value
  | declare pos name type (some _), [value] => declare pos name type (some value)
  | setVariable pos name _, [value] => setVariable pos name value
  | setEntry pos property indices value, es =>
    setEntry pos property (es.take indices.length) ((es.drop indices.length).headD value)
  | exit pos (some _), [value] => exit pos (some value)
  | branch pos _ yes no, [condition] => branch pos condition yes no
  | throw pos _, [message] => throw pos message
  | emit pos event _, es => emit pos event es
  | evaluate pos _, [value] => evaluate pos value
  | s, _ => s

@[simp] theorem inner_withOperands (s : Stmt) (es : List Expr) :
    (s.withOperands es).inner = s.inner := by
  unfold withOperands
  split <;> rfl

theorem withOperands_operands (s : Stmt) : s.withOperands s.operands = s := by
  match s with
  | declare _ _ _ none | declare _ _ _ (some _) | exit _ none | exit _ (some _) => rfl
  | setProperty _ _ _ | setVariable _ _ _ | branch _ _ _ _ | throw _ _ | emit _ _ _ => rfl
  | evaluate _ _ | skip _ => rfl
  | setEntry _ _ indices value => simp [withOperands, operands]

/-- As many operands as there were are the operands. -/
theorem operands_withOperands {s : Stmt} {es : List Expr} (h : es.length = s.operands.length) :
    (s.withOperands es).operands = es := by
  match s, es, h with
  | setProperty _ _ _, [_], _ => rfl
  | declare _ _ _ none, [], _ => rfl
  | declare _ _ _ (some _), [_], _ => rfl
  | setVariable _ _ _, [_], _ => rfl
  | setEntry _ _ indices value, es, h =>
    simp only [operands, List.length_append, List.length_singleton] at h
    obtain ⟨last, hlast⟩ : ∃ last, es.drop indices.length = [last] :=
      List.length_eq_one_iff.1 (by rw [List.length_drop]; omega)
    rw [withOperands, operands, hlast, List.headD_cons, ← hlast, List.take_append_drop]
  | exit _ none, [], _ => rfl
  | exit _ (some _), [_], _ => rfl
  | branch _ _ _ _, [_], _ => rfl
  | throw _ _, [_], _ => rfl
  | emit _ _ _, _, _ => rfl
  | evaluate _ _, [_], _ => rfl
  | skip _, [], _ => rfl

end Stmt

end Covenant
