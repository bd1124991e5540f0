import Covenant.Proofs.Conditionals.Leaves
import Covenant.Proofs.Execution.Locals
import Covenant.Proofs.Resolution.Classes
import Covenant.Proofs.Resolution.Operators
import Covenant.Proofs.Resolution.Statements

/-!
# Where literals come from

A literal of a contract is written where it stands or is part of a constant. So a property of
literals that is met by all that can be written, and by the constants, and that a text keeps when it
takes the type of its place, is met by every literal of what is resolved (`BuiltIn.literals`).
-/

namespace Covenant

/-- Every literal among some expressions has a property. -/
def Literals (P : Ty → String → Prop) (es : List Expr) : Prop :=
  ∀ pos type text, .literal pos type text ∈ es → P type text

namespace Literals

variable {P : Ty → String → Prop} {es more : List Expr}

theorem append : Literals P (es ++ more) ↔ Literals P es ∧ Literals P more := by
  constructor
  · intro h
    exact ⟨fun pos type text hmem => h pos type text (List.mem_append_left _ hmem),
      fun pos type text hmem => h pos type text (List.mem_append_right _ hmem)⟩
  · rintro ⟨h, h'⟩ pos type text hmem
    exact (List.mem_append.1 hmem).elim (h pos type text) (h' pos type text)

theorem flatMap {α : Type} {as : List α} {f : α → List Expr} :
    Literals P (as.flatMap f) ↔ ∀ a ∈ as, Literals P (f a) := by
  constructor
  · intro h a ha pos type text hmem
    exact h pos type text (List.mem_flatMap.2 ⟨a, ha, hmem⟩)
  · intro h pos type text hmem
    obtain ⟨a, ha, hmem⟩ := List.mem_flatMap.1 hmem
    exact h a ha pos type text hmem

/-- A literal has the property of its type and its text. -/
theorem literal {pos : Position} {type : Ty} {text : String} (h : P type text) :
    Literals P (Expr.literal pos type text).leaves := by
  intro pos' type' text' hmem
  cases List.mem_singleton.1 hmem
  exact h

/-- The literals of an expression that is none itself are those of its parts. -/
theorem of_parts {e : Expr} (hself : ∀ pos type text, e ≠ .literal pos type text)
    (h : ∀ part ∈ e.parts, Literals P part.leaves) : Literals P e.leaves := by
  by_cases hparts : e.parts = []
  · intro pos type text hmem
    rw [Expr.leaves_of_parts_eq_nil hparts] at hmem
    exact absurd (List.mem_singleton.1 hmem).symm (hself pos type text)
  · rw [Expr.leaves_of_parts_ne_nil hparts]
    exact flatMap.2 h

/-- Literals are leaves. -/
theorem filter : Literals P (es.filter (·.parts.isEmpty)) ↔ Literals P es :=
  forall_congr' fun _ => forall_congr' fun _ => forall_congr' fun _ => by
    simp [List.mem_filter, Expr.parts]

theorem mono {Q : Ty → String → Prop} (hPQ : ∀ type text, P type text → Q type text)
    (h : Literals P es) : Literals Q es :=
  fun pos type text hmem => hPQ type text (h pos type text hmem)

end Literals

/-- **The expressions of a contract**: those of its constructor, its methods and its initial
values. -/
def Contract.expressions (c : Contract) : List Expr :=
  Stmt.expressionsOf c.constructorBody ++ c.methods.flatMap (fun m => Stmt.expressionsOf m.body) ++
    c.stateVars.flatMap fun v => v.initial.toList.flatMap Expr.subexpressions

namespace Resolve

open Source (Expression Chain Link Operand Postfix ObjectField Statement)

/-- **A property of literals is met by all that can be written** and by some constants, and a text
that takes the type of its place keeps it. -/
structure Admits (P : Ty → String → Prop) (constants : Table Expr) : Prop where
  number : ∀ n < wordBound, P .number (toString n)
  address : ∀ value, isAddressLiteral value → P (.address none) value
  text : ∀ value, value.utf8ByteSize ≤ maxTextBytes → P .text value
  truth : ∀ value : Bool, P .boolean (if value then "true" else "false")
  asBytes : ∀ value, P .text value → P .bytes value
  asAddress : ∀ value contract, P .text value → P (.address contract) value
  constants : ∀ entry ∈ constants, Literals P entry.2.leaves

variable {P : Ty → String → Prop} {scope : Scope} {returns : Ty}

/-! ## Expressions -/

theorem literals_negated {pos : Position} {signs : List Source.Sign} {v : Expr}
    (h : Literals P v.leaves) : Literals P (negated pos signs v).leaves := by
  induction signs with
  | nil => exact h
  | cons sign signs ih => exact .of_parts nofun (by simpa [Expr.parts, negated_cons] using ih)

theorem leaves_binary (pos : Position) (op : BinaryOp) (left right : Expr) :
    (Expr.binary pos op left right).leaves = left.leaves ++ right.leaves := by
  rw [Expr.leaves_of_parts_ne_nil (by simp [Expr.parts])]
  simp [Expr.parts]

mutual
/-- **Every literal that an expression denotes has the property.** -/
theorem Denotes.literals (hP : Admits P scope.constants) :
    ∀ {e : Expression} {v : Expr}, Denotes scope e v → Literals P v.leaves
  | _, _, .chain h => h.literals hP
  | _, _, .choice hcondition hyes hno =>
    .of_parts nofun
      (by simp [Expr.parts, hcondition.literals hP, hyes.literals hP, hno.literals hP])

theorem DenotesChain.literals (hP : Admits P scope.constants) :
    ∀ {c : Chain} {v : Expr}, DenotesChain scope c v → Literals P v.leaves
  | _, _, .tree hfirst hlinks => by
    -- whatever binds tighter, the tree has the leaves of the operands
    rw [collect_operatorTree Expr.leaves leaves_binary]
    exact Literals.append.2 ⟨hfirst.literals hP, Literals.flatMap.2 (hlinks.literals hP)⟩

theorem DenotesLinks.literals (hP : Admits P scope.constants) :
    ∀ {ls : List Link} {vs : List OperatorLink}, DenotesLinks scope ls vs →
      ∀ link ∈ vs, Literals P link.operand.leaves
  | _, _, .nil => fun _ h => (nomatch h)
  | _, _, .cons h hrest => List.forall_mem_cons.2 ⟨h.literals hP, hrest.literals hP⟩

theorem DenotesOperand.literals (hP : Admits P scope.constants) :
    ∀ {o : Operand} {v : Expr}, DenotesOperand scope o v → Literals P v.leaves
  | _, _, .signed h _ => literals_negated (h.literals hP)

/-- **The literals of names and steps are admitted**: those that are written, and those of the
constants. -/
theorem DenotesPostfix.literals (hP : Admits P scope.constants) :
    ∀ {p : Postfix} {v : Expr}, DenotesPostfix scope p v → Literals P v.leaves
  | _, _, .this => .of_parts nofun nofun
  | _, _, .property => .of_parts nofun nofun
  | _, _, .ownCall h =>
    .of_parts nofun (List.forall_mem_cons.2 ⟨.of_parts nofun nofun, h.literals hP⟩)
  | _, _, .length _ => .of_parts nofun nofun
  | _, _, .propertyCall h =>
    .of_parts nofun (List.forall_mem_cons.2 ⟨.of_parts nofun nofun, h.literals hP⟩)
  | _, _, .entry _ h _ => .of_parts nofun (h.literals hP)
  | _, _, .constant h => hP.constants _ (Table.mem_of_get? h)
  | _, _, .variable _ _ => .of_parts nofun nofun
  | _, _, .environment _ _ _ => .of_parts nofun nofun
  | _, _, .hash _ _ h => .of_parts nofun (h.literals hP)
  | _, _, .external _ _ _ h => .of_parts nofun (List.forall_mem_singleton.2 (h.literals hP))
  | _, _, .externalCall _ _ _ h hargs =>
    .of_parts nofun (List.forall_mem_cons.2
      ⟨.of_parts nofun (List.forall_mem_singleton.2 (h.literals hP)), hargs.literals hP⟩)
  | _, _, .creation _ h => .of_parts nofun (h.literals hP)
  | _, _, .number h => by
    obtain ⟨n, -, hn, rfl⟩ := number_eq_ok.1 h
    exact .literal (hP.number n hn)
  | _, _, .text h => by
    obtain ⟨haddress, rfl⟩ | ⟨-, hsize, rfl⟩ := text_eq_ok.1 h
    · exact .literal (hP.address _ haddress)
    · exact .literal (hP.text _ hsize)
  | _, _, .truth => .literal (hP.truth _)
  | _, _, .parens h => h.literals hP

theorem DenotesEach.literals (hP : Admits P scope.constants) :
    ∀ {es : List Expression} {vs : List Expr}, DenotesEach scope es vs →
      ∀ v ∈ vs, Literals P v.leaves
  | _, _, .nil => fun _ h => (nomatch h)
  | _, _, .cons h hrest => List.forall_mem_cons.2 ⟨h.literals hP, hrest.literals hP⟩
end

/-! ## Statements -/

theorem literals_retag (hP : Admits P scope.constants) (type : Ty) {v : Expr}
    (h : Literals P v.leaves) : Literals P (retag type v).leaves := by
  unfold retag
  split
  · have htext := h _ _ _ (List.mem_singleton.2 rfl)
    split
    · exact .literal (hP.asBytes _ htext)
    · exact .literal (hP.asAddress _ _ htext)
    · exact h
  · exact h

/-- An assignment that adds or takes away has the literals of both sides. -/
theorem literals_assigned (pos : Position) (assignment : Source.Assignment) {current v : Expr}
    (hcurrent : Literals P current.leaves) (hv : Literals P v.leaves) :
    Literals P (assigned pos assignment current v).leaves := by
  cases assignment with
  | replace => exact hv
  | increase | decrease =>
    rw [assigned, leaves_binary]
    exact Literals.append.2 ⟨hcurrent, hv⟩

theorem DenotesRecord.literals {shape : Interface} {fields : List ObjectField} {vs : List Expr}
    (hP : Admits P scope.constants) (h : DenotesRecord scope shape fields vs) :
    ∀ v ∈ vs, Literals P v.leaves := by
  intro v hv
  obtain ⟨param, -, field, -, -, hfield⟩ := exists_of_mem_right h.each hv
  cases hfield with
  | valued h => exact h.literals hP
  | shorthand h => exact h.literals hP

/-- Every literal in the operands of a statement has the property. -/
theorem States.literals (hP : Admits P scope.constants) {s : Statement} {t : Stmt} {after : Scope}
    (h : States scope returns s t after) : ∀ e ∈ t.operands, Literals P e.leaves := by
  cases h with
  | blank | exit | baseCall => exact fun _ h => (nomatch h)
  | annotated _ h | exitWord _ h =>
    exact List.forall_mem_singleton.2 (literals_retag hP _ (h.literals hP))
  | inferred _ h | throw _ h | evaluate h =>
    exact List.forall_mem_singleton.2 (h.literals hP)
  | exitRecord _ _ h =>
    exact List.forall_mem_singleton.2 (.of_parts nofun (h.literals hP))
  | emit _ _ _ _ _ h => exact h.literals hP
  | setVariable _ _ h =>
    refine List.forall_mem_singleton.2 (literals_retag hP _ ?_)
    exact literals_assigned _ _ (.of_parts nofun nofun) (h.literals hP)
  | setProperty _ _ _ h =>
    refine List.forall_mem_singleton.2 (literals_retag hP _ ?_)
    exact literals_assigned _ _ (.of_parts nofun nofun) (h.literals hP)
  | setUnknown _ _ h =>
    refine List.forall_mem_singleton.2 ?_
    exact literals_assigned _ _ (.of_parts nofun nofun) (h.literals hP)
  | setEntry _ _ heach _ h =>
    have hindices := heach.literals hP
    refine List.forall_mem_append.2 ⟨hindices, List.forall_mem_singleton.2 ?_⟩
    exact literals_assigned _ _ (.of_parts nofun hindices) (h.literals hP)

/-- Taking the conditionals out brings no literal in. -/
theorem literals_normalize {s : Stmt} (hfree : Stmt.hasConditional s.inner = false) (next : Nat)
    (hoperands : ∀ e ∈ s.operands, Literals P e.leaves)
    (hinner : Literals P (Stmt.leaves s.inner)) :
    Literals P (Stmt.leaves (normalize scope next s).1) := by
  intro pos type text hmem
  rcases (normalize_carries scope hfree next).known _ hmem with hmem | ⟨_, -, -, hlocal⟩
  · rw [Stmt.leaves_cons, Stmt.leaves_nil, List.append_nil] at hmem
    exact Literals.append.2 ⟨Literals.flatMap.2 hoperands, hinner⟩ pos type text hmem
  · cases hlocal

/-- **Every literal of a resolved body has the property.** -/
theorem Resolves.literals {ss : List Statement} {next : Nat} {r : Resolved}
    (h : Resolves returns ss scope next r) (hP : Admits P scope.constants) :
    Literals P (Stmt.leaves r.body) := by
  induction h with
  | nil => exact fun _ _ _ h => absurd h List.not_mem_nil
  | plain h _ ih =>
    rw [Resolved.after, Stmt.leaves_append]
    refine Literals.append.2 ⟨?_, ih (h.constants_eq ▸ hP)⟩
    refine literals_normalize h.inner_free _ (h.literals hP) ?_
    rw [h.inner_eq_nil]
    exact fun _ _ _ h => absurd h List.not_mem_nil
  | block h _ ihBlock ih =>
    rw [Resolved.after, Stmt.leaves_append]
    exact Literals.append.2 ⟨ihBlock hP, ih (h.constants_eq ▸ hP)⟩
  | ifThen hcondition hyes _ ihYes ih =>
    rw [Resolved.after, Stmt.leaves_append]
    refine Literals.append.2 ⟨?_, ih hP⟩
    refine literals_normalize (branch_inner_free hyes.free Stmt.hasConditional_nil _ _) _
      (List.forall_mem_singleton.2 (hcondition.literals hP)) ?_
    rw [Stmt.inner, List.append_nil]
    exact ihYes hP
  | ifElse hcondition hyes hno _ ihYes ihNo ih =>
    rw [Resolved.after, Stmt.leaves_append]
    refine Literals.append.2 ⟨?_, ih hP⟩
    refine literals_normalize (branch_inner_free hyes.free hno.free _ _) _
      (List.forall_mem_singleton.2 (hcondition.literals hP)) ?_
    rw [Stmt.inner, Stmt.leaves_append]
    exact Literals.append.2 ⟨ihYes hP, ihNo hP⟩
  | empty _ ih => exact ih hP

/-! ## Contracts -/

theorem MemberOf.literals {c : Source.ClassDecl} {name : Option String} {body : List Stmt}
    (h : MemberOf scope c name body) (hP : Admits P scope.constants) :
    Literals P (Stmt.expressionsOf body) := by
  -- parameters are added to the scope of the class; its constants stay
  obtain ⟨m, -, -, ss, -, returns, inner, next, r, hinner, hresolves, rfl⟩ := h
  have hconstants : inner.constants = scope.constants := by injection hinner
  exact Literals.filter.1 (hresolves.literals (hconstants ▸ hP))

/-- **Every literal of a contract has the property**, where those that can be written and those in
the constants of its scope have it. -/
theorem BuiltIn.literals {written : Source.ClassDecl} {c : Contract}
    (h : BuiltIn scope written c) (hP : Admits P scope.constants) :
    Literals P c.expressions := by
  refine Literals.append.2 ⟨Literals.append.2 ⟨?_, ?_⟩, ?_⟩
  · cases hconstruction : c.construction with
    | none =>
      rw [Contract.constructorBody, hconstruction]
      exact fun _ _ _ h => (nomatch h)
    | some k =>
      rw [Contract.constructorBody, hconstruction]
      exact (h.construction k hconstruction).literals hP
  · exact Literals.flatMap.2 fun m hm => (h.methods m hm).literals hP
  · refine Literals.flatMap.2 fun v hv => Literals.flatMap.2 fun e he => ?_
    obtain ⟨source, w, hw, rfl⟩ := h.initials v hv e (Option.mem_toList.1 he)
    exact Literals.filter.1 (literals_retag hP _ (hw.literals hP))

end Resolve

end Covenant
