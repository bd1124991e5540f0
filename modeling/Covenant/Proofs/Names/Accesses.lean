import Covenant.Proofs.Conditionals.Leaves
import Covenant.Proofs.Names.Mentions
import Covenant.Proofs.Resolution.Statements

/-!
# What a body reads and writes

Statement by statement, a resolved body reads what the source mentions and nothing else but the
temporaries it brings in. Object literals and emitted events mention the values of their fields, in
any order; an assignment that adds to a local or takes from it mentions the local once more; the
arguments for a base class are dropped.
-/

namespace Covenant

namespace Source

open Resolve (soleOperand?)

/-- Whether an expression calls the constructor of a base class. -/
def isBaseCall (e : Expression) : Bool :=
  match soleOperand? e with
  | some (.mk _ (.name _ "super") [.call _ _]) => true
  | _ => false

/-- The names that are mentioned by assigning to a target. -/
def targetMentions (assignment : Assignment) (target : Expression) : List Mention :=
  match soleOperand? target with
  | some (.mk pos (.name _ x) []) =>
    match assignment with
    | .replace => []
    | _ => [⟨pos, x, .current⟩]
  | some (.mk _ _ suffixes) => suffixMentions suffixes
  | none => []

mutual
/-- **The names whose values a statement asks for.** -/
def Statement.readings : Statement → List Mention
  | .block _ statements => readingsAll statements
  | .declaration _ _ _ _ value => (value.map Expression.mentions).getD []
  | .ifThen _ condition yes => condition.mentions ++ yes.readings
  | .ifElse _ condition yes no => condition.mentions ++ yes.readings ++ no.readings
  | .returns _ value => (value.map Expression.mentions).getD []
  | .throw _ value => value.mentions
  | .evaluate _ value => if isBaseCall value then [] else value.mentions
  | .assign _ target assignment value => targetMentions assignment target ++ value.mentions
  | .empty _ => []

/-- The names whose values a body asks for. -/
def readingsAll : List Statement → List Mention
  | [] => []
  | s :: ss => s.readings ++ readingsAll ss
end

mutual
/-- **The assignments to locals in a statement**, each with the name it is to. -/
def Statement.writings : Statement → List (Position × String)
  | .block _ statements => writingsAll statements
  | .ifThen _ _ yes => yes.writings
  | .ifElse _ _ yes no => yes.writings ++ no.writings
  | .assign pos target _ _ =>
    match soleOperand? target with
    | some (.mk _ (.name _ x) []) => [(pos, x)]
    | _ => []
  | _ => []

/-- The assignments to locals in a body. -/
def writingsAll : List Statement → List (Position × String)
  | [] => []
  | s :: ss => s.writings ++ writingsAll ss
end

end Source

namespace Stmt

/-- The local that a statement sets. -/
def write? : Stmt → Option (Position × String)
  | setVariable pos name _ => some (pos, name)
  | _ => none

/-- **The locals that a body sets.** -/
def writes (body : List Stmt) : List (Position × String) :=
  (substatementsAll body).filterMap write?

@[simp] theorem reads_nil : reads [] = [] := rfl

@[simp] theorem reads_append (first second : List Stmt) :
    reads (first ++ second) = reads first ++ reads second := by
  simp [reads]

/-- A body reads what the operands and branches of its first statement do, and what is behind it. -/
theorem reads_cons (s : Stmt) (body : List Stmt) :
    reads (s :: body) = s.operands.flatMap Expr.reads ++ reads s.inner ++ reads body := by
  simp only [reads, leaves_cons, List.filterMap_append, List.filterMap_flatMap]
  rfl

theorem reads_branch (pos : Position) (condition : Expr) (yes no : List Stmt) :
    reads [branch pos condition yes no] = condition.reads ++ reads yes ++ reads no := by
  simp [reads_cons, operands, inner]

@[simp] theorem writes_nil : writes [] = [] := rfl

@[simp] theorem writes_append (first second : List Stmt) :
    writes (first ++ second) = writes first ++ writes second := by
  simp [writes]

/-- A body sets what its first statement and its branches do, and what is behind it. -/
theorem writes_cons (s : Stmt) (body : List Stmt) :
    writes (s :: body) = s.write?.toList ++ writes s.inner ++ writes body :=
  filterMap_substatementsAll_cons write? s body

theorem write?_withOperands {s : Stmt} {es : List Expr} :
    (s.withOperands es).write? = s.write? := by
  unfold withOperands
  split <;> rfl

theorem writes_withOperands (s : Stmt) (es : List Expr) :
    writes [s.withOperands es] = writes [s] := by
  rw [writes_cons, writes_cons, write?_withOperands, inner_withOperands]

theorem writes_branch (pos : Position) (condition : Expr) (yes no : List Stmt) :
    writes [branch pos condition yes no] = writes yes ++ writes no := by
  simp [writes_cons, write?, inner]

end Stmt

namespace Resolve

open Source (Expression Postfix ObjectField Statement Mention)

variable {scope : Scope} {returns : Ty}

/-! ## Single statements -/

/-- An expression that is one operand mentions what the operand does. -/
theorem mentions_of_soleOperand {e : Expression} {p : Postfix} (h : soleOperand? e = some p) :
    e.mentions = p.mentions := by
  unfold soleOperand? at h
  split at h
  · cases h
    simp [Expression.mentions, Source.Chain.mentions, Source.Operand.mentions,
      Source.linkMentions]
  · cases h

theorem mentions_of_soleObject {e : Expression} {pos : Position} {fields : List ObjectField}
    (h : soleObject? e = some (pos, fields)) : e.mentions = Source.fieldMentions fields := by
  unfold soleObject? at h
  split at h
  · rename_i hsole
    cases h
    rw [mentions_of_soleOperand hsole]
    simp [Postfix.mentions, Source.Primary.mentions, Source.suffixMentions]
  · cases h

theorem reads_retag (type : Ty) (e : Expr) : (retag type e).reads = e.reads := by
  unfold retag
  split
  · split <;> rfl
  · rfl

theorem fieldMentions_eq_flatMap (fields : List ObjectField) :
    Source.fieldMentions fields = fields.flatMap fun field => Source.fieldMentions [field] := by
  induction fields with
  | nil => rfl
  | cons field fields ih =>
    cases field <;> simp [Source.fieldMentions, ih]

/-- A field reads what its value mentions; a shorthand reads the local of its key. -/
theorem DenotesField.reads_eq {field : ObjectField} {v : Expr} (h : DenotesField scope field v) :
    v.reads = (Source.fieldMentions [field]).flatMap (readsOf scope.constants) := by
  cases h with
  | valued h => simp [Source.fieldMentions, h.reads_eq]
  | shorthand h =>
    rw [h.reads_eq]
    simp [Source.fieldMentions, Postfix.mentions, Source.Primary.mentions, Source.suffixMentions]

/-- A record reads what the fields of its object literal mention: every field of the literal is one
of the interface, and every field of the interface is given once. -/
theorem DenotesRecord.mem_reads {shape : Interface} {fields : List ObjectField} {vs : List Expr}
    (h : DenotesRecord scope shape fields vs) {p : Position × String} :
    p ∈ vs.flatMap Expr.reads ↔
      p ∈ (Source.fieldMentions fields).flatMap (readsOf scope.constants) := by
  rw [fieldMentions_eq_flatMap, List.flatMap_assoc, List.mem_flatMap, List.mem_flatMap]
  constructor
  · rintro ⟨v, hv, hp⟩
    obtain ⟨param, -, field, hfield, -, hdenotes⟩ := exists_of_mem_right h.each hv
    exact ⟨field, hfield, hdenotes.reads_eq ▸ hp⟩
  · rintro ⟨field, hfield, hp⟩
    obtain ⟨param, hparam, hname⟩ := List.mem_map.1 (h.keys.known field hfield)
    obtain ⟨v, hv, given, hgiven, hkey, hdenotes⟩ := exists_of_mem_left h.each hparam
    -- no two fields of the literal have one key
    have hsame := h.keys.find?_eq_some.2 ⟨hgiven, hkey.trans hname⟩
    rw [h.keys.find?_eq_some.2 ⟨hfield, rfl⟩] at hsame
    cases hsame
    exact ⟨v, hv, hdenotes.reads_eq ▸ hp⟩

/-- What a call of an event mentions besides the event: the fields of the object it is given. -/
theorem readsOf_emitted {call : Postfix} {x : String} {pos objectsPos objectPos : Position}
    {object : Expression} {fields : List ObjectField}
    (hevent : emittedEvent? call = some (x, pos, .mk objectsPos [object]))
    (hobject : soleObject? object = some (objectPos, fields)) :
    call.mentions.flatMap (readsOf scope.constants) =
      (Source.fieldMentions fields).flatMap (readsOf scope.constants) := by
  rw [← mentions_of_soleObject hobject]
  unfold emittedEvent? at hevent
  split at hevent <;> cases hevent <;>
    simp [Postfix.mentions, Source.Primary.mentions, Source.suffixMentions, Source.eachMentions,
      readsOf]

theorem isBaseCall_of_denotes {e : Expression} {v : Expr} (h : Denotes scope e v) :
    Source.isBaseCall e = false := by
  unfold Source.isBaseCall
  split
  · exact absurd ((denotes_of_soleOperand ‹_›).1 h).eq_hash (by decide)
  · rfl

/-- **An assignment that adds or takes away also reads what it sets.** -/
theorem mem_reads_assigned {pos : Position} {assignment : Source.Assignment} {current v : Expr}
    {p : Position × String} :
    p ∈ (assigned pos assignment current v).reads ↔
      assignment ≠ .replace ∧ p ∈ current.reads ∨ p ∈ v.reads := by
  cases assignment <;> simp [assigned]

theorem targetMentions_entry {target : Expression} {assignment : Source.Assignment}
    {pos p memberPos : Position} {x : String} {suffix : Source.Suffix}
    {suffixes : List Source.Suffix} {es : List Expression}
    (htarget : soleOperand? target =
      some (.mk pos (.this p) (.member memberPos x :: suffix :: suffixes)))
    (hindices : indexSuffixes? (suffix :: suffixes) = some es) :
    Source.targetMentions assignment target = Source.eachMentions es := by
  rw [Source.targetMentions, htarget]
  exact (mentions_of_indexSuffixes hindices :)

attribute [local simp] Source.Postfix.mentions Source.Primary.mentions Source.suffixMentions
  Source.eachMentions

/-- **A statement reads what its mentions read.** -/
theorem States.mem_reads {s : Statement} {t : Stmt} {after : Scope}
    (h : States scope returns s t after) {p : Position × String} :
    p ∈ Stmt.reads [t] ↔ p ∈ s.readings.flatMap (readsOf scope.constants) := by
  have hreads : Stmt.reads [t] = t.operands.flatMap Expr.reads := by
    rw [Stmt.reads_cons, h.inner_eq_nil, Stmt.reads_nil, List.append_nil, List.append_nil]
  -- by the rule for the statement: none but branches has statements within it
  rw [hreads]
  cases h with
  | blank => simp [Stmt.operands, Statement.readings]
  | annotated _ h => simp [Stmt.operands, Statement.readings, reads_retag, h.reads_eq]
  | inferred _ h => simp [Stmt.operands, Statement.readings, h.reads_eq]
  | exit => simp [Stmt.operands, Statement.readings]
  | exitWord _ h => simp [Stmt.operands, Statement.readings, reads_retag, h.reads_eq]
  | exitRecord _ hobject h =>
    have hrecord := h.mem_reads (p := p)
    simpa [Stmt.operands, Statement.readings, mentions_of_soleObject hobject] using hrecord
  | throw hsole h =>
    simp [Stmt.operands, Statement.readings, mentions_of_soleOperand hsole, h.reads_eq]
  | baseCall hsole => simp [Stmt.operands, Statement.readings, Source.isBaseCall, hsole]
  | emit hsole hcall hevent hknown hobject h =>
    have hrecord := h.mem_reads (p := p)
    rw [← readsOf_emitted hevent hobject, ← mentions_of_soleOperand hcall] at hrecord
    simpa [Stmt.operands, Statement.readings, Source.isBaseCall, hsole, readsOf,
      mentions_of_soleOperand hsole] using hrecord
  | evaluate h =>
    simp [Stmt.operands, Statement.readings, isBaseCall_of_denotes h, h.reads_eq]
  | @setVariable _ _ assignment _ _ _ _ _ _ htarget hlocal h =>
    cases assignment <;>
      simp [Stmt.operands, Statement.readings, Source.targetMentions, htarget, assigned,
        reads_retag, readsOf, h.reads_eq]
  | setProperty htarget hproperty hword h =>
    simp [Stmt.operands, Statement.readings, Source.targetMentions, htarget, reads_retag,
      mem_reads_assigned, h.reads_eq]
  | setUnknown htarget hproperty h =>
    simp [Stmt.operands, Statement.readings, Source.targetMentions, htarget, mem_reads_assigned,
      h.reads_eq]
  -- the indices are read for the entry, and again for its current value if the assignment combines
  | setEntry htarget hindices heach hcount h =>
    rw [Statement.readings, targetMentions_entry htarget hindices, Stmt.operands,
      List.flatMap_append, List.flatMap_append, List.mem_append, List.mem_append, heach.reads_eq,
      ← h.reads_eq]
    simp only [List.flatMap_cons, List.flatMap_nil, List.append_nil, mem_reads_assigned,
      Expr.reads_entry, heach.reads_eq]
    tauto

/-! ## Bodies -/

/-- What is found in a body is what is asked for, up to the temporaries from one number up to
another. -/
abbrev Accounts (lo hi : Nat) (asked found : List (Position × String)) : Prop :=
  Carries (fun p => some p.2) lo hi asked found

/-- Freeing a statement of conditionals brings in reads of temporaries only. -/
theorem normalize_reads (scope : Scope) {s : Stmt}
    (hinner : Stmt.hasConditional s.inner = false) (next : Nat) :
    Accounts next (normalize scope next s).2 (Stmt.reads [s])
      (Stmt.reads (normalize scope next s).1) := by
  refine (normalize_carries scope hinner next).filterMap fun e p h => ?_
  cases e <;> cases h
  rfl

/-- **A resolved body reads what the source asks for**, and its temporaries. -/
theorem Resolves.reads {ss : List Statement} {next : Nat} {r : Resolved}
    (h : Resolves returns ss scope next r) :
    Accounts next r.next ((Source.readingsAll ss).flatMap (readsOf scope.constants))
      (Stmt.reads r.body) := by
  induction h with
  | nil => exact .refl _ _
  | @plain _ _ _ after next _ _ h _ ih =>
    rw [h.constants_eq] at ih
    have hsaid : Accounts next next _ _ := .of_mem_iff next fun _ => h.mem_reads
    have hfirst := hsaid.trans (normalize_reads after h.inner_free next)
    simpa [Source.readingsAll, Resolved.after] using hfirst.append ih
  | block h _ ihBlock ih =>
    rw [h.constants_eq] at ih
    simpa [Source.readingsAll, Statement.readings, Resolved.after] using ihBlock.append ih
  | @ifThen pos _ v _ _ scope next ry _ hcondition hyes _ ihYes ih =>
    have hbranch := ((Carries.refl next v.reads).append ihYes).append
      (Carries.refl ry.next (Stmt.reads []))
    rw [← Stmt.reads_branch pos] at hbranch
    have hfirst := hbranch.trans (normalize_reads scope
      (branch_inner_free hyes.free Stmt.hasConditional_nil _ _) ry.next)
    simpa [Source.readingsAll, Statement.readings, Resolved.after, hcondition.reads_eq]
      using hfirst.append ih
  | @ifElse pos _ v _ _ _ scope next ry rn _ hcondition hyes hno _ ihYes ihNo ih =>
    have hbranch := ((Carries.refl next v.reads).append ihYes).append ihNo
    rw [← Stmt.reads_branch pos] at hbranch
    have hfirst := hbranch.trans (normalize_reads scope
      (branch_inner_free hyes.free hno.free _ _) rn.next)
    simpa [Source.readingsAll, Statement.readings, Resolved.after, hcondition.reads_eq]
      using hfirst.append ih
  | empty _ ih => exact ih

/-! ## Writes -/

/-- A statement sets the locals that are written as targets. -/
theorem States.writes_eq {s : Statement} {t : Stmt} {after : Scope}
    (h : States scope returns s t after) : Stmt.writes [t] = s.writings := by
  rw [Stmt.writes_cons, h.inner_eq_nil, Stmt.writes_nil, List.append_nil, List.append_nil]
  cases h with
  | setVariable htarget | setProperty htarget | setUnknown htarget | setEntry htarget =>
    simp [Stmt.write?, Statement.writings, htarget]
  | _ => rfl

theorem hoistEach_writes_of {es : List Expr}
    (h : ∀ e ∈ es, ∀ t, Accounts t.next (hoist scope e t).2.2.next []
      (Stmt.writes (hoist scope e t).1)) (t : Temps) :
    Accounts t.next (hoistEach scope es t).2.2.next []
      (Stmt.writes (hoistEach scope es t).1) := by
  induction es generalizing t with
  | nil => exact .refl _ _
  | cons e es ih =>
    rw [List.forall_mem_cons] at h
    simpa [hoistEach] using (h.1 t).append (ih h.2 (hoist scope e t).2.2)

/-- Taking the conditionals out of an expression sets nothing but temporaries. -/
theorem hoist_writes (scope : Scope) (e : Expr) (t : Temps) :
    Accounts t.next (hoist scope e t).2.2.next [] (Stmt.writes (hoist scope e t).1) := by
  induction e using Expr.induction_conditional generalizing t with
  | plain e hconditional ih =>
    rw [hoist_eq hconditional]
    exact hoistEach_writes_of ih t
  | conditional pos condition yes no hcondition hyes hno =>
    refine ((((hcondition t).append (hyes _)).append (hno _)).take (a := (pos, _)) rfl).congr
      fun p => ?_
    simp only [hoist, Stmt.writes_append, Stmt.writes_cons, Stmt.writes_nil, Stmt.write?,
      Stmt.inner, List.append_nil, List.mem_append, Option.toList]
    tauto

/-- Freeing a statement of conditionals brings in writes of temporaries only. -/
theorem normalize_writes (scope : Scope) {s : Stmt}
    (hinner : Stmt.hasConditional s.inner = false) (next : Nat) :
    Accounts next (normalize scope next s).2 (Stmt.writes [s])
      (Stmt.writes (normalize scope next s).1) := by
  have hbefore : Accounts next _ [] (Stmt.writes (hoistEach scope s.operands { next }).1) :=
    hoistEach_writes_of (fun e _ => hoist_writes scope e) { next }
  rw [normalize_eq hinner, Stmt.writes_append, Stmt.writes_withOperands]
  exact hbefore.append (.refl _ _)

/-- **A resolved body sets the locals that the source assigns to**, and its temporaries. -/
theorem Resolves.writes {ss : List Statement} {next : Nat} {r : Resolved}
    (h : Resolves returns ss scope next r) :
    Accounts next r.next (Source.writingsAll ss) (Stmt.writes r.body) := by
  induction h with
  | nil => exact .refl _ _
  | @plain _ _ _ after next _ _ h _ ih =>
    have hfirst := normalize_writes after h.inner_free next
    rw [h.writes_eq] at hfirst
    simpa [Source.writingsAll, Resolved.after] using hfirst.append ih
  | block _ _ ihBlock ih =>
    simpa [Source.writingsAll, Statement.writings, Resolved.after] using ihBlock.append ih
  | @ifThen pos _ v _ _ scope _ ry _ _ hyes _ ihYes ih =>
    have hbranch := ihYes.append (Carries.refl ry.next (Stmt.writes []))
    rw [← Stmt.writes_branch pos v] at hbranch
    have hfirst := hbranch.trans (normalize_writes scope
      (branch_inner_free hyes.free Stmt.hasConditional_nil _ _) ry.next)
    simpa [Source.writingsAll, Statement.writings, Resolved.after] using hfirst.append ih
  | @ifElse pos _ v _ _ _ scope _ _ rn _ _ hyes hno _ ihYes ihNo ih =>
    have hbranch := ihYes.append ihNo
    rw [← Stmt.writes_branch pos v] at hbranch
    have hfirst := hbranch.trans (normalize_writes scope
      (branch_inner_free hyes.free hno.free _ _) rn.next)
    simpa [Source.writingsAll, Statement.writings, Resolved.after] using hfirst.append ih
  | empty _ ih => exact ih

end Resolve

end Covenant
