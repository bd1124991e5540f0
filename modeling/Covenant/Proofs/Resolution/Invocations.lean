import Covenant.Proofs.Resolution.Operators
import Covenant.Proofs.Resolution.Statements
import Mathlib.Data.List.Count

/-!
# Calls and deployments, and how often they occur

An expression of the source is written with calls and deployments, and so is the one of the contract
that it says: the same ones, where a bare name stands for those of the constant it names
(`Denotes.invocations_eq`). Taking the conditionals out moves them to other statements but neither
drops nor repeats any (`normalize_invocations`).

An assignment that adds to its target or takes from it says that the target is set to the sum or the
difference of its current value and the new one. The indices of the target stand in both the entry
that is set and the entry that is read, so that what is called in them is called twice
(`compound_assignment_repeats_indices`).
-/

namespace Covenant

/-- **What is called or deployed** by an expression, and where. -/
inductive Invocation where
  | call (pos : Position) (method : String)
  | deployment (pos : Position) (contract : String)
deriving DecidableEq, Repr

/-! ## In the source -/

namespace Source

/-- The methods that the steps behind a primary call: a call is one of the member in front of it. -/
def stepCalls (pos : Position) : List Suffix → List Invocation
  | .member _ method :: .call _ _ :: rest => .call pos method :: stepCalls pos rest
  | _ :: rest => stepCalls pos rest
  | [] => []

/-- The methods that a primary with steps calls. The step `at` behind the name of a contract is the
address of one, and no call. -/
def Postfix.calls : Postfix → List Invocation
  | .mk pos (.name _ _) (.member _ method :: .call _ _ :: rest) =>
    (if method = "at" then [] else [.call pos method]) ++ stepCalls pos rest
  | .mk pos _ suffixes => stepCalls pos suffixes

variable (named : String → List Invocation)

mutual
/-- **The calls and deployments that an expression is written with**, where each bare name stands
for some. A call comes before those in what it is sent to and in its arguments. -/
def Expression.invocations : Expression → List Invocation
  | .chain _ value => value.invocations
  | .choice _ condition yes no => condition.invocations ++ yes.invocations ++ no.invocations

/-- Those in the operands of a chain. -/
def Chain.invocations : Chain → List Invocation
  | .mk _ first links => first.invocations ++ linkInvocations links

/-- Those behind operators. -/
def linkInvocations : List Link → List Invocation
  | [] => []
  | .mk _ _ operand :: rest => operand.invocations ++ linkInvocations rest

/-- Those in a value behind signs. -/
def Operand.invocations : Operand → List Invocation
  | .mk _ _ value => value.invocations

/-- Those of a primary and of the steps behind it. -/
def Postfix.invocations : Postfix → List Invocation
  | .mk pos primary suffixes =>
    (Postfix.mk pos primary suffixes).calls ++
      primary.invocations suffixes.isEmpty ++ suffixInvocations suffixes

/-- Those of a primary, with or without steps behind it. -/
def Primary.invocations (alone : Bool) : Primary → List Invocation
  | .name _ name => if alone then named name else []
  | .creation pos contract (.mk _ values) => .deployment pos contract :: eachInvocations values
  | .object _ fields => fieldInvocations fields
  | .parens _ inner => inner.invocations
  | _ => []

/-- Those in indices and arguments. -/
def suffixInvocations : List Suffix → List Invocation
  | [] => []
  | .member _ _ :: rest => suffixInvocations rest
  | .index _ value :: rest => value.invocations ++ suffixInvocations rest
  | .call _ (.mk _ values) :: rest => eachInvocations values ++ suffixInvocations rest

/-- Those of several expressions. -/
def eachInvocations : List Expression → List Invocation
  | [] => []
  | e :: es => e.invocations ++ eachInvocations es

/-- Those in the fields of an object literal; the shorthand `key` is the bare name of its key. -/
def fieldInvocations : List ObjectField → List Invocation
  | [] => []
  | .valued _ _ value :: rest => value.invocations ++ fieldInvocations rest
  | .shorthand _ key :: rest => named key ++ fieldInvocations rest
end

end Source

/-! ## In a contract -/

namespace Expr

/-- What an expression itself calls or deploys. -/
def invocation? : Expr → Option Invocation
  | call pos method _ _ => some (.call pos method)
  | deploy pos contract _ => some (.deployment pos contract)
  | _ => none

/-- **The calls and deployments within an expression**, each in front of those in its parts. -/
def invocations (e : Expr) : List Invocation :=
  e.subexpressions.filterMap invocation?

/-- An expression calls what it calls itself, and what its parts do. -/
theorem invocations_eq (e : Expr) :
    e.invocations = e.invocation?.toList ++ e.parts.flatMap invocations := by
  rw [invocations, subexpressions_eq, List.filterMap_cons, List.filterMap_flatMap]
  cases e.invocation? <;> rfl

theorem invocation?_withParts (e : Expr) (es : List Expr) :
    (e.withParts es).invocation? = e.invocation? := by
  unfold withParts
  split <;> rfl

section

variable (pos : Position)

@[simp] theorem invocations_var (x : String) : (var pos x).invocations = [] := rfl

@[simp] theorem invocations_storage (x : String) : (storage pos x).invocations = [] := rfl

@[simp] theorem invocations_this : (this pos).invocations = [] := rfl

@[simp] theorem invocations_entry (x : String) (indices : List Expr) :
    (entry pos x indices).invocations = indices.flatMap invocations :=
  invocations_eq _

@[simp] theorem invocations_binary (op : BinaryOp) (left right : Expr) :
    (binary pos op left right).invocations = left.invocations ++ right.invocations := by
  simp [invocations_eq (binary pos op left right), invocation?, parts]

@[simp] theorem invocations_not (value : Expr) :
    (not pos value).invocations = value.invocations := by
  simp [invocations_eq (not pos value), invocation?, parts]

@[simp] theorem invocations_external (contract : String) (address : Expr) :
    (external pos contract address).invocations = address.invocations := by
  simp [invocations_eq (external pos contract address), invocation?, parts]

@[simp] theorem invocations_deploy (contract : String) (args : List Expr) :
    (deploy pos contract args).invocations =
      .deployment pos contract :: args.flatMap invocations :=
  invocations_eq _

@[simp] theorem invocations_call (method : String) (receiver : Expr) (args : List Expr) :
    (call pos method receiver args).invocations =
      .call pos method :: (receiver.invocations ++ args.flatMap invocations) :=
  invocations_eq _

@[simp] theorem invocations_conditional (condition yes no : Expr) :
    (conditional pos condition yes no).invocations =
      condition.invocations ++ yes.invocations ++ no.invocations := by
  simp [invocations_eq (conditional pos condition yes no), invocation?, parts]

@[simp] theorem invocations_hash (inputs : List Expr) :
    (hash pos inputs).invocations = inputs.flatMap invocations :=
  invocations_eq _

end

/-- Signs call nothing. -/
theorem invocations_negated (pos : Position) (signs : List Source.Sign) (value : Expr) :
    (Resolve.negated pos signs value).invocations = value.invocations := by
  induction signs with
  | nil => rfl
  | cons sign signs ih => rw [Resolve.negated_cons, invocations_not, ih]

end Expr

/-- The calls and deployments within a body. -/
def Stmt.invocations (body : List Stmt) : List Invocation :=
  (expressionsOf body).filterMap Expr.invocation?

namespace Stmt

@[simp] theorem invocations_nil : invocations [] = [] := rfl

@[simp] theorem invocations_append (first second : List Stmt) :
    invocations (first ++ second) = invocations first ++ invocations second := by
  simp [invocations]

/-- A body calls what the operands and branches of its first statement do, and what is behind it. -/
theorem invocations_cons (s : Stmt) (body : List Stmt) :
    invocations (s :: body) =
      s.operands.flatMap Expr.invocations ++ invocations s.inner ++ invocations body := by
  simp only [invocations, expressionsOf_cons, List.filterMap_append, List.filterMap_flatMap]
  rfl

end Stmt

namespace Resolve

open Source (Expression Chain Link Operand Postfix Suffix Statement)

variable {scope : Scope}

/-! ## Resolving keeps what is written -/

/-- What a bare name stands for: the calls and deployments of the constant of the name. -/
def constantInvocations (scope : Scope) (x : String) : List Invocation :=
  ((scope.constants.get? x).map Expr.invocations).getD []

/-- Steps that are all indices call nothing by themselves. -/
theorem stepCalls_of_indexSuffixes (pos : Position) {suffixes : List Suffix}
    {es : List Expression} (h : indexSuffixes? suffixes = some es) :
    Source.stepCalls pos suffixes = [] := by
  induction suffixes generalizing es with
  | nil => rfl
  | cons suffix suffixes ih =>
    cases suffix with
    | member => cases h
    | call => cases h
    | index _ e =>
      obtain ⟨rest, hrest, -⟩ := Option.map_eq_some_iff.1 h
      exact ih hrest

/-- Reading an entry calls nothing but what its indices call. -/
theorem calls_of_indexSuffixes {pos p memberPos : Position} {x : String} {suffix : Suffix}
    {suffixes : List Suffix} {es : List Expression}
    (h : indexSuffixes? (suffix :: suffixes) = some es) :
    (Postfix.mk pos (.this p) (.member memberPos x :: suffix :: suffixes)).calls = [] := by
  cases suffix with
  | member => cases h
  | call => cases h
  | index indexPos e =>
    obtain ⟨rest, hrest, -⟩ := Option.map_eq_some_iff.1 h
    have hnone : Source.stepCalls pos suffixes = [] := stepCalls_of_indexSuffixes pos hrest
    exact hnone

/-- Steps that are all indices call what the indices do. -/
theorem suffixInvocations_of_indexSuffixes (named : String → List Invocation)
    {suffixes : List Suffix} {es : List Expression} (h : indexSuffixes? suffixes = some es) :
    Source.suffixInvocations named suffixes = Source.eachInvocations named es := by
  induction suffixes generalizing es with
  | nil =>
    cases h
    rfl
  | cons suffix suffixes ih =>
    cases suffix with
    | member => cases h
    | call => cases h
    | index _ e =>
      obtain ⟨rest, hrest, rfl⟩ := Option.map_eq_some_iff.1 h
      rw [Source.suffixInvocations, Source.eachInvocations, ih hrest]

attribute [local simp] Source.Postfix.invocations Source.Primary.invocations Source.Postfix.calls
  Source.stepCalls Source.suffixInvocations Source.eachInvocations

mutual
/-- **An expression says what it is written with.** -/
theorem Denotes.invocations_eq : ∀ {e : Expression} {v : Expr}, Denotes scope e v →
    v.invocations = e.invocations (constantInvocations scope)
  | _, _, .chain h => h.invocations_eq
  | _, _, .choice hcondition hyes hno => by
    simp [Expression.invocations, hcondition.invocations_eq, hyes.invocations_eq,
      hno.invocations_eq]

/-- A chain calls what its operands do. -/
theorem DenotesChain.invocations_eq : ∀ {c : Chain} {v : Expr}, DenotesChain scope c v →
    v.invocations = c.invocations (constantInvocations scope)
  | _, _, .tree hfirst hlinks => by
    rw [collect_operatorTree Expr.invocations Expr.invocations_binary, hfirst.invocations_eq,
      hlinks.invocations_eq, Chain.invocations]

theorem DenotesLinks.invocations_eq : ∀ {ls : List Link} {vs : List OperatorLink},
    DenotesLinks scope ls vs →
    vs.flatMap (fun link => link.operand.invocations) =
      Source.linkInvocations (constantInvocations scope) ls
  | _, _, .nil => rfl
  | _, _, .cons h hrest => by
    rw [List.flatMap_cons, Source.linkInvocations, h.invocations_eq, hrest.invocations_eq]

theorem DenotesOperand.invocations_eq : ∀ {o : Operand} {v : Expr}, DenotesOperand scope o v →
    v.invocations = o.invocations (constantInvocations scope)
  | _, _, .signed h _ => by rw [Expr.invocations_negated, h.invocations_eq, Operand.invocations]

/-- **Names and steps call what is written**, and what the constants among them call. -/
theorem DenotesPostfix.invocations_eq : ∀ {p : Postfix} {v : Expr}, DenotesPostfix scope p v →
    v.invocations = p.invocations (constantInvocations scope)
  | _, _, .this => rfl
  | _, _, .property => rfl
  | _, _, .ownCall h => by simp [h.invocations_eq]
  | _, _, .length _ => rfl
  | _, _, .propertyCall h => by simp [h.invocations_eq]
  | _, _, .entry hindices h _ => by
    rw [Expr.invocations_entry, h.invocations_eq, Postfix.invocations,
      calls_of_indexSuffixes hindices, Source.suffixInvocations,
      suffixInvocations_of_indexSuffixes _ hindices]
    rfl
  | _, _, .constant h => by simp [constantInvocations, h]
  | _, _, .variable hconstant _ => by simp [constantInvocations, hconstant]
  | _, _, .environment _ _ _ => rfl
  | _, _, .hash _ _ h => by simp [h.invocations_eq]
  | _, _, .external _ _ _ h => by simp [h.invocations_eq]
  | _, _, .externalCall _ _ _ h hargs => by simp [h.invocations_eq, hargs.invocations_eq]
  | _, _, .creation _ h => by simp [h.invocations_eq]
  | _, _, .number h => by
    obtain ⟨n, -, -, rfl⟩ := number_eq_ok.1 h
    rfl
  | _, _, .text h => by
    obtain ⟨-, rfl⟩ | ⟨-, -, rfl⟩ := text_eq_ok.1 h <;> rfl
  | _, _, .truth => rfl
  | _, _, .parens h => by simp [h.invocations_eq]

/-- Several expressions call one after the other. -/
theorem DenotesEach.invocations_eq : ∀ {es : List Expression} {vs : List Expr},
    DenotesEach scope es vs →
    vs.flatMap Expr.invocations = Source.eachInvocations (constantInvocations scope) es
  | _, _, .nil => rfl
  | _, _, .cons h hrest => by
    rw [List.flatMap_cons, Source.eachInvocations, h.invocations_eq, hrest.invocations_eq]
end

/-! ## Taking the conditionals out moves what is called -/

theorem hoistEach_invocations_of {es : List Expr}
    (h : ∀ e ∈ es, ∀ t, (Stmt.invocations (hoist scope e t).1 ++
      (hoist scope e t).2.1.invocations).Perm e.invocations) (t : Temps) :
    (Stmt.invocations (hoistEach scope es t).1 ++
      (hoistEach scope es t).2.1.flatMap Expr.invocations).Perm
        (es.flatMap Expr.invocations) := by
  induction es generalizing t with
  | nil => exact .refl _
  | cons e es ih =>
    obtain ⟨he, hes⟩ := List.forall_mem_cons.1 h
    have hfirst := he t
    rcases hhoist : hoist scope e t with ⟨before, left, t'⟩
    have hrest := ih hes t'
    rcases heach : hoistEach scope es t' with ⟨more, others, t''⟩
    rw [hhoist] at hfirst
    rw [heach] at hrest
    simp only [hoistEach, hhoist, heach, List.perm_iff_count, Stmt.invocations_append,
      List.flatMap_cons, List.count_append] at hfirst hrest ⊢
    intro i
    have hfirst := hfirst i
    have hrest := hrest i
    omega

/-- **Taking the conditionals out of an expression drops no call and repeats none.** -/
theorem hoist_invocations (scope : Scope) (e : Expr) (t : Temps) :
    (Stmt.invocations (hoist scope e t).1 ++ (hoist scope e t).2.1.invocations).Perm
      e.invocations := by
  induction e using Expr.induction_conditional generalizing t with
  | plain e hconditional ih =>
    have heach := hoistEach_invocations_of ih t
    rw [hoist_eq hconditional, Expr.invocations_eq e, Expr.invocations_eq (e.withParts _),
      Expr.invocation?_withParts, Expr.parts_withParts (length_hoistEach _ _ _)]
    refine (List.perm_append_comm_assoc _ _ _).trans (heach.append_left _)
  | conditional pos condition yes no hcondition hyes hno =>
    rcases hc : hoist scope condition t with ⟨before, c, t₁⟩
    rcases hy : hoist scope yes t₁ with ⟨beforeYes, y, t₂⟩
    rcases hn : hoist scope no t₂ with ⟨beforeNo, n, t₃⟩
    have hcondition := hcondition t
    have hyes := hyes t₁
    have hno := hno t₂
    rw [hc] at hcondition
    rw [hy] at hyes
    rw [hn] at hno
    simp only [hoist, hc, hy, hn, List.perm_iff_count, Stmt.invocations_append,
      Stmt.invocations_cons, Stmt.invocations_nil, Stmt.operands, Stmt.inner,
      Option.toList_some, List.flatMap_cons, List.flatMap_nil, List.append_nil,
      Expr.invocations_var, Expr.invocations_conditional, List.count_append]
      at hcondition hyes hno ⊢
    intro i
    have hcondition := hcondition i
    have hyes := hyes i
    have hno := hno i
    omega

/-- **A statement that keeps its shape keeps its calls**, each as often as it stands there. -/
theorem normalize_invocations (scope : Scope) {s : Stmt}
    (h : Stmt.hasConditional s.inner = false) (next : Nat) :
    (Stmt.invocations (normalize scope next s).1).Perm (Stmt.invocations [s]) := by
  have hoperands := hoistEach_invocations_of
    (fun e (_ : e ∈ s.operands) => hoist_invocations scope e) { next }
  have hsource : Stmt.invocations [s] =
      s.operands.flatMap Expr.invocations ++ Stmt.invocations s.inner := by
    rw [Stmt.invocations_cons, Stmt.invocations_nil, List.append_nil]
  rw [normalize_eq h, hsource]
  rw [Stmt.invocations_append, Stmt.invocations_cons,
    Stmt.operands_withOperands (length_hoistEach _ _ _), Stmt.inner_withOperands,
    Stmt.invocations_nil, List.append_nil, ← List.append_assoc]
  exact hoperands.append_right _

/-! ## Assignments that add or take away -/

/-- The operator by which an assignment combines the current value of its target with the new one;
a plain one forgets the current value. -/
def operator? : Source.Assignment → Option BinaryOp
  | .replace => none
  | .increase => some .add
  | .decrease => some .sub

/-- The calls and deployments that the indices of a target are written with. -/
def indexInvocations (scope : Scope) (target : Expression) : List Invocation :=
  match soleOperand? target with
  | some (.mk _ (.this _) (.member _ _ :: suffixes)) =>
    Source.suffixInvocations (constantInvocations scope) suffixes
  | _ => []

/-- **Setting a target to its current value combined with another one.** The entry that is read has
the same indices as the entry that is set. -/
inductive SetsCombined (scope : Scope) (pos : Position) (target : Expression) (op : BinaryOp)
    (v : Expr) : Stmt → Prop
  | ofVariable {targetPos p x} (htarget : soleOperand? target = some (.mk targetPos (.name p x) [])) :
      SetsCombined scope pos target op v
        (.setVariable pos x (.binary pos op (.var targetPos x) v))
  | ofProperty {targetPos p memberPos x}
      (htarget : soleOperand? target = some (.mk targetPos (.this p) [.member memberPos x])) :
      SetsCombined scope pos target op v
        (.setProperty pos x (.binary pos op (.storage targetPos x) v))
  | ofEntry {targetPos p memberPos x suffix suffixes es vs}
      (htarget : soleOperand? target =
        some (.mk targetPos (.this p) (.member memberPos x :: suffix :: suffixes)))
      (hindices : indexSuffixes? (suffix :: suffixes) = some es) (heach : DenotesEach scope es vs) :
      SetsCombined scope pos target op v
        (.setEntry pos x vs (.binary pos op (.entry targetPos x vs) v))

variable {returns : Ty} {pos : Position} {target value : Expression}
  {assignment : Source.Assignment} {op : BinaryOp} {next : Nat} {r : Resolved}

/-- An assignment that adds or takes away is an operation on the current value. -/
theorem assigned_of_operator (hop : operator? assignment = some op) (current v : Expr) :
    assigned pos assignment current v = .binary pos op current v := by
  cases assignment <;> cases hop <;> rfl

/-- **Such an assignment sets what it names to that operation.** -/
theorem States.setsCombined {t : Stmt} {after : Scope} (hop : operator? assignment = some op)
    (h : States scope returns (.assign pos target assignment value) t after) :
    ∃ v, Denotes scope value v ∧ SetsCombined scope pos target op v t := by
  cases h with
  | setVariable htarget hlocal h =>
    rw [assigned_of_operator hop]
    exact ⟨_, h, .ofVariable htarget⟩
  | setProperty htarget hproperty hword h =>
    rw [assigned_of_operator hop]
    exact ⟨_, h, .ofProperty htarget⟩
  | setUnknown htarget hproperty h =>
    rw [assigned_of_operator hop]
    exact ⟨_, h, .ofProperty htarget⟩
  | setEntry htarget hindices heach hcount h =>
    rw [assigned_of_operator hop]
    exact ⟨_, h, .ofEntry htarget hindices heach⟩

/-- What is called in the indices stands in the statement twice, and what is called in the value
once. -/
theorem SetsCombined.count_invocations {v : Expr} {t : Stmt}
    (h : SetsCombined scope pos target op v t) (i : Invocation) :
    (Stmt.invocations [t]).count i =
      2 * (indexInvocations scope target).count i + v.invocations.count i := by
  cases h with
  | ofVariable htarget | ofProperty htarget =>
    simp [Stmt.invocations_cons, Stmt.operands, Stmt.inner, indexInvocations, htarget,
      Source.suffixInvocations]
  | ofEntry htarget hindices heach =>
    simp only [Stmt.invocations_cons, Stmt.operands, Stmt.inner, indexInvocations, htarget,
      suffixInvocations_of_indexSuffixes _ hindices, ← heach.invocations_eq, Stmt.invocations_nil,
      List.flatMap_append, List.flatMap_cons, List.flatMap_nil, Expr.invocations_binary,
      Expr.invocations_entry, List.append_nil, List.count_append]
    omega

/-- **An assignment that combines evaluates its value once and its indices twice.** It is resolved
to setting the target to its current value combined with the new one, and its conditionals are taken
out of that. In the statements that come out each call and each deployment written in the value
occurs once, and each one written in the indices of the target occurs twice: in the entry that is
set and in the entry that is read, which have the same indices. A local, a property as a whole, and
an entry whose indices call nothing have nothing that occurs twice. -/
theorem compound_assignment_repeats_indices (hop : operator? assignment = some op)
    (h : statement returns (.assign pos target assignment value) scope next = .ok r) :
    (∃ v t, Denotes scope value v ∧ SetsCombined scope pos target op v t ∧
      r = finish scope next t) ∧
    ∀ i, (Stmt.invocations r.body).count i =
      2 * (indexInvocations scope target).count i +
        (value.invocations (constantInvocations scope)).count i := by
  rw [statement] at h
  obtain ⟨t, ht, h⟩ := bind_eq_ok.1 h
  cases pure_eq_ok.1 h
  have hstates : States scope returns (.assign pos target assignment value) t scope :=
    states_of_assignStatement ht
  obtain ⟨v, hv, hsets⟩ := hstates.setsCombined hop
  refine ⟨⟨v, t, hv, hsets, rfl⟩, fun i => ?_⟩
  calc
    (Stmt.invocations (finish scope next t).body).count i = (Stmt.invocations [t]).count i :=
      (normalize_invocations scope hstates.inner_free next).count_eq i
    _ = 2 * (indexInvocations scope target).count i + v.invocations.count i :=
      hsets.count_invocations i
    _ = _ := by rw [hv.invocations_eq]

/-! ## A tariff -/

/-- A primary with the steps behind it, on a line of its own. -/
def onLine (line : Nat) (value : Source.Primary) (suffixes : List Suffix) : Expression :=
  .chain { line } (.mk { line } (.mk { line } [] (.mk { line } value suffixes)) [])

/-- The call `this.method(args)`. -/
def ownCall (line : Nat) (method : String) (args : List Expression) : Expression :=
  onLine line (.this { line })
    [.member { line } method, .call { line } (.mk { line } args)]

/-- The entry `this.dues[index]`. -/
def dues (line : Nat) (index : Expression) : Expression :=
  onLine line (.this { line }) [.member { line } "dues", .index { line } index]

/-- The scope of a body: a mapping of the contract, a contract that can be deployed, and a local. -/
def tariffScope : Scope where
  properties := [("dues", .mapping [.number] .number)]
  contracts := ["Vault"]
  locals := [("late", .boolean)]

/-- **What an index calls is called twice.** In `this.dues[this.next()] += 1` the next number is
asked for once, and the statement that comes out asks for it twice: the due that is read is not the
one that is set. -/
theorem index_called_twice :
    indexInvocations tariffScope (dues 1 (ownCall 2 "next" [])) = [.call { line := 2 } "next"] ∧
      (statement .void (.assign { line := 1 } (dues 1 (ownCall 2 "next" [])) .increase
        (onLine 3 (.number { line := 3 } "1") [])) tariffScope 0).toOption.map
          (fun r => Stmt.invocations r.body) =
        some [.call { line := 2 } "next", .call { line := 2 } "next"] := by
  decide +kernel

/-- The index `late ? this.next() : 0`. -/
def tariffIndex : Expression :=
  .choice { line := 2 }
    (.mk { line := 2 } (.mk { line := 2 } [] (.mk { line := 2 } (.name { line := 2 } "late") []))
      [])
    (ownCall 3 "next" []) (onLine 4 (.number { line := 4 } "0") [])

/-- The value `this.fee(new Vault())`. -/
def tariffValue : Expression :=
  ownCall 5 "fee" [onLine 6 (.creation { line := 6 } "Vault" (.mk { line := 6 } [])) []]

/-- In `this.dues[late ? this.next() : 0] -= this.fee(new Vault())` both copies of the index become
statements of their own. The next number is asked for in both, and the fee once. -/
theorem compound_assignment_repeats_indices_tariff :
    ∃ r, statement .void (.assign { line := 1 } (dues 1 tariffIndex) .decrease tariffValue)
        tariffScope 0 = .ok r ∧
      operator? .decrease = some .sub ∧
      (Stmt.invocations r.body).count (.call { line := 3 } "next") = 2 ∧
      (Stmt.invocations r.body).count (.call { line := 5 } "fee") = 1 ∧
      (Stmt.invocations r.body).count (.deployment { line := 6 } "Vault") = 1 := by
  have hsome : (statement .void (.assign { line := 1 } (dues 1 tariffIndex) .decrease tariffValue)
      tariffScope 0).toOption.isSome := by
    decide +kernel
  obtain ⟨r, hr⟩ := Option.isSome_iff_exists.1 hsome
  have hr := toOption_eq_some.1 hr
  have hop : operator? .decrease = some .sub := rfl
  obtain ⟨-, hcount⟩ := compound_assignment_repeats_indices hop hr
  refine ⟨r, hr, hop, ?_, ?_, ?_⟩ <;> rw [hcount] <;> decide +kernel

end Resolve

end Covenant
