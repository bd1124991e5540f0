import Covenant.Proofs.Conditionals.Leaves
import Covenant.Proofs.Resolution.Classes
import Covenant.Proofs.Resolution.Statements

/-!
# What a body emits

A body asks for events with object literals, which name the fields in any order. Its resolved form
logs the same events in the same order, one statement for each, and the arguments of each are in the
order in which the scope of the body has the event declare its fields (`Resolves.logs`).
-/

namespace Covenant

namespace Source

open Resolve (soleOperand? soleObject? emittedEvent?)

/-- An event that is asked for, with the values of its fields. -/
structure Emission where
  pos : Position
  event : String
  fields : List ObjectField

/-- The emission that an expression stands for. -/
def emission? (e : Expression) : Option Emission :=
  match soleOperand? e with
  | some (.mk pos (.name _ "emit") [.call _ (.mk _ [argument])]) => do
    let call ← soleOperand? argument
    let (event, _, arguments) ← emittedEvent? call
    match arguments.values with
    | [object] => (soleObject? object).map fun found => ⟨pos, event, found.2⟩
    | _ => none
  | _ => none

mutual
/-- **The emissions of a statement**, in order. -/
def Statement.emissions : Statement → List Emission
  | .block _ statements => emissionsAll statements
  | .ifThen _ _ yes => yes.emissions
  | .ifElse _ _ yes no => yes.emissions ++ no.emissions
  | .evaluate _ value => (emission? value).toList
  | _ => []

/-- The emissions of a body. -/
def emissionsAll : List Statement → List Emission
  | [] => []
  | s :: ss => s.emissions ++ emissionsAll ss
end

end Source

/-- An event that is logged, with its arguments. -/
structure Logged where
  pos : Position
  event : String
  args : List Expr

namespace Stmt

/-- The event that a statement logs. -/
def logged? : Stmt → Option Logged
  | emit pos event args => some ⟨pos, event, args⟩
  | _ => none

/-- **The events that a body logs**, in order. -/
def logs (body : List Stmt) : List Logged :=
  (substatementsAll body).filterMap logged?

@[simp] theorem logs_nil : logs [] = [] := rfl

@[simp] theorem logs_append (first second : List Stmt) :
    logs (first ++ second) = logs first ++ logs second := by
  simp [logs]

theorem logs_cons (s : Stmt) (body : List Stmt) :
    logs (s :: body) = s.logged?.toList ++ logs s.inner ++ logs body :=
  filterMap_substatementsAll_cons logged? s body

end Stmt

namespace Resolve

open Source (Expression ObjectField Statement Emission)

variable {scope : Scope} {returns : Ty}

/-- **Arguments are given by an object literal** for the fields of a record, in their order: each is
the value of the field of its name, with the conditionals taken out. Locals may have been added to
the scope. -/
def Gives (scope : Scope) (shape : Interface) (fields : List ObjectField) (args : List Expr) :
    Prop :=
  ∃ inner values temps, inner.withoutLocals = scope.withoutLocals ∧
    DenotesRecord inner shape fields values ∧ args = (hoistEach inner values temps).2.1

/-- **An emission is logged** with the fields of the event that the scope has. -/
structure LoggedIn (scope : Scope) (asked : Emission) (logged : Logged) : Prop where
  pos : logged.pos = asked.pos
  event : logged.event = asked.event
  args : ∃ event, scope.events.get? asked.event = some event ∧
    Gives scope event.shape asked.fields logged.args

/-- As many arguments are given as the record has fields. -/
theorem Gives.length_eq {shape : Interface} {fields : List ObjectField} {args : List Expr}
    (h : Gives scope shape fields args) : args.length = shape.fields.length := by
  obtain ⟨inner, values, temps, -, hrecord, rfl⟩ := h
  rw [length_hoistEach, hrecord.each.length_eq]

/-- Only the names of the fields and their order count. -/
theorem Gives.congr {shape other : Interface} (hnames : shape.fieldNames = other.fieldNames)
    {fields : List ObjectField} {args : List Expr} (h : Gives scope shape fields args) :
    Gives scope other fields args := by
  obtain ⟨inner, values, temps, hinner, ⟨hkeys, heach⟩, hargs⟩ := h
  refine ⟨inner, values, temps, hinner, ⟨⟨hkeys.distinct, hnames ▸ hkeys.known⟩, ?_⟩, hargs⟩
  have hnamed : List.Forall₂ (fun name value => ∃ field ∈ fields, field.key = name ∧
      DenotesField inner field value) shape.fieldNames values :=
    List.forall₂_map_left_iff.2 heach
  rw [hnames] at hnamed
  exact List.forall₂_map_left_iff.1 hnamed

/-- Locals make no difference to what is logged. -/
theorem LoggedIn.congr {other : Scope} {asked : Emission} {logged : Logged}
    (hscope : other.withoutLocals = scope.withoutLocals) (h : LoggedIn other asked logged) :
    LoggedIn scope asked logged := by
  obtain ⟨hpos, hevent, event, hknown, inner, values, temps, hinner, hgiven⟩ := h
  have hevents : other.events = scope.events := by injection hscope
  exact ⟨hpos, hevent, event, hevents ▸ hknown, inner, values, temps, hinner.trans hscope, hgiven⟩

/-! ## Single statements -/

/-- An expression with a value is no emission. -/
theorem emission?_of_denotes {e : Expression} {v : Expr} (h : Denotes scope e v) :
    Source.emission? e = none := by
  unfold Source.emission?
  split
  · exact absurd ((denotes_of_soleOperand ‹_›).1 h).eq_hash (by decide)
  · rfl

theorem hoistEach_logs_of {es : List Expr}
    (h : ∀ e ∈ es, ∀ t, Stmt.logs (hoist scope e t).1 = []) (t : Temps) :
    Stmt.logs (hoistEach scope es t).1 = [] := by
  induction es generalizing t with
  | nil => rfl
  | cons e es ih =>
    rw [List.forall_mem_cons] at h
    simp only [hoistEach, Stmt.logs_append, h.1, ih h.2, List.append_nil]

/-- Taking the conditionals out of an expression logs nothing. -/
theorem hoist_logs (scope : Scope) (e : Expr) (t : Temps) :
    Stmt.logs (hoist scope e t).1 = [] := by
  induction e using Expr.induction_conditional generalizing t with
  | plain e hconditional ih =>
    rw [hoist_eq hconditional]
    exact hoistEach_logs_of ih t
  | conditional pos condition yes no hcondition hyes hno =>
    simp [hoist, Stmt.logs_cons, Stmt.logged?, Stmt.inner, hcondition, hyes, hno]

/-- A statement whose branches are free of conditionals logs what it logs with its operands taken
apart. -/
theorem normalize_logs {s : Stmt} (h : Stmt.hasConditional s.inner = false) (next : Nat) :
    Stmt.logs (normalize scope next s).1 =
      (s.withOperands (hoistEach scope s.operands { next }).2.1).logged?.toList ++
        Stmt.logs s.inner := by
  rw [normalize_eq h, Stmt.logs_append, hoistEach_logs_of fun e _ => hoist_logs scope e,
    List.nil_append, Stmt.logs_cons, Stmt.inner_withOperands, Stmt.logs_nil, List.append_nil]

/-- A statement that logs nothing logs nothing with other operands. -/
theorem logged?_withOperands {s : Stmt} (h : s.logged? = none) (es : List Expr) :
    (s.withOperands es).logged? = none := by
  have hsome : (s.withOperands es).logged?.isSome = s.logged?.isSome := by
    unfold Stmt.withOperands
    split <;> rfl
  rw [h] at hsome
  exact Option.isNone_iff_eq_none.1 (Option.isSome_eq_false_iff.1 hsome)

theorem States.logs {s : Statement} {t : Stmt} {after : Scope}
    (h : States scope returns s t after) (next : Nat) :
    List.Forall₂ (LoggedIn scope) s.emissions (Stmt.logs (normalize after next t).1) := by
  rw [normalize_logs h.inner_free, h.inner_eq_nil, Stmt.logs_nil, List.append_nil]
  cases h with
  | emit hsole hcall hevent hknown hobject h =>
    simp only [Statement.emissions, Source.emission?, hsole, hcall, hevent, hobject,
      Source.Arguments.values, Option.bind_eq_bind, Option.bind_some, Option.map_some]
    exact .cons ⟨rfl, rfl, _, hknown, _, _, _, rfl, h, rfl⟩ .nil
  | evaluate h =>
    rw [Statement.emissions, emission?_of_denotes h]
    exact .nil
  | baseCall hsole =>
    rw [Statement.emissions, Source.emission?, hsole]
    exact .nil
  -- no other statement asks for an event
  | _ =>
    rw [logged?_withOperands rfl]
    exact .nil

/-! ## Bodies -/

theorem logs_branch (pos : Position) (condition : Expr) {yes no : List Stmt}
    (hyes : Stmt.hasConditional yes = false) (hno : Stmt.hasConditional no = false) (next : Nat) :
    Stmt.logs (normalize scope next (.branch pos condition yes no)).1 =
      Stmt.logs yes ++ Stmt.logs no := by
  rw [normalize_logs (branch_inner_free hyes hno pos condition), logged?_withOperands rfl,
    Stmt.inner, Stmt.logs_append]
  rfl

/-- **A body logs what it asks for**, one statement for each emission and in their order. -/
theorem Resolves.logs {ss : List Statement} {next : Nat} {r : Resolved}
    (h : Resolves returns ss scope next r) :
    List.Forall₂ (LoggedIn scope) (Source.emissionsAll ss) (Stmt.logs r.body) := by
  induction h with
  | nil => exact .nil
  | plain h _ ih =>
    rw [Resolved.after, Stmt.logs_append]
    exact List.rel_append (h.logs _) (ih.imp fun _ _ => LoggedIn.congr h.withoutLocals_eq)
  | block h _ ihBlock ih =>
    rw [Resolved.after, Stmt.logs_append]
    exact List.rel_append ihBlock (ih.imp fun _ _ => LoggedIn.congr h.withoutLocals_eq)
  | ifThen _ hyes _ ihYes ih =>
    rw [Resolved.after, Stmt.logs_append, logs_branch _ _ hyes.free Stmt.hasConditional_nil]
    refine List.rel_append ?_ ih
    simpa [Source.emissionsAll, Statement.emissions] using ihYes
  | ifElse _ hyes hno _ ihYes ihNo ih =>
    rw [Resolved.after, Stmt.logs_append, logs_branch _ _ hyes.free hno.free]
    refine List.rel_append (List.rel_append ?_ ?_) ih
    · simpa [Source.emissionsAll] using ihYes
    · simpa [Source.emissionsAll] using ihNo
  | empty _ ih => exact ih

theorem ResolvedIn.logs {ss : List Statement} {body : List Stmt}
    (h : ResolvedIn scope ss body) :
    List.Forall₂ (LoggedIn scope) (Source.emissionsAll ss) (Stmt.logs body) := by
  obtain ⟨returns, inner, next, r, hinner, hresolves, rfl⟩ := h
  exact hresolves.logs.imp fun _ _ => LoggedIn.congr hinner

end Resolve

end Covenant
