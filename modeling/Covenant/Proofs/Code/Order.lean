import Covenant.Proofs.Code.Statements
import Covenant.Proofs.Machine.Rules
import Mathlib.Data.List.Infix

/-!
# The order of calls

The operands of an expression become the operands of one application, and the machine evaluates
those from right to left. So the calls and deployments of an expression run from its last operand to
its first, whatever the operator; the receiver of a call comes after the arguments, and the call
itself last. Only the fields of a record that is returned are assigned one after another, and run in
the order in which they are written (`calls_run_right_to_left`).
-/

namespace Covenant

/-! ## What a run applies -/

namespace Machine

mutual
/-- **The names that the evaluation of an expression applies**, in order, each with its words: those
of the operands, the last operand first, and then its own. An evaluation that stops applies no
more. -/
def applications (run : Apply) : Yul.Expr → State → List (String × List Word)
  | .call f args, s =>
    applicationsEach run args s ++
      match evalArgs run args s with
      | .ok words _ => [(f, words)]
      | .error _ _ => []
  | _, _ => []

/-- The names that the evaluation of operands applies. -/
def applicationsEach (run : Apply) : List Yul.Expr → State → List (String × List Word)
  | [], _ => []
  | .quoted _ :: rest, s => applicationsEach run rest s
  | e :: rest, s =>
    applicationsEach run rest s ++
      match evalArgs run rest s with
      | .ok _ t => applications run e t
      | .error _ _ => []
end

/-- The expression that a statement evaluates itself; what stands in its blocks comes later. -/
def operand? : Yul.Stmt → Option Yul.Expr
  | .evaluate value | .declare _ (some value) | .assign _ value => some value
  | .ifThen condition _ | .guard condition _ | .ifZero condition _ _ => some condition
  | .loop condition _ _ => some condition
  | .declare _ none | .block _ | .leave | .stop => none

/-- The names that the operands of some statements apply, one statement after another. -/
def applicationsAll (run : Apply) (rounds : Nat) :
    List Yul.Stmt → State → List (String × List Word)
  | [], _ => []
  | c :: rest, s =>
    ((operand? c).map (applications run · s)).getD [] ++
      match exec run rounds c s with
      | .ok .next t => applicationsAll run rounds rest t
      | _ => []

end Machine

namespace Emit

open Machine

/-! ## Calls in code -/

/-- Whether a name is that of a method, of a call of another contract or of a deployment. -/
def isCall (f : String) : Bool :=
  ["fun_", "call_", "deploy_"].any fun start => start.toList.isPrefixOf f.toList

/-- The calls among applications, by name. -/
def callNames (applied : List (String × List Word)) : List String :=
  (applied.map Prod.fst).filter isCall

@[simp] theorem callNames_nil : callNames [] = [] := rfl

/-- The calls of two runs, one after the other. -/
@[simp] theorem callNames_append (first second : List (String × List Word)) :
    callNames (first ++ second) = callNames first ++ callNames second := by
  simp [callNames]

@[simp] theorem isCall_methodFunction (name : String) : isCall (methodFunction name) = true := by
  simp [isCall, methodFunction, String.toList_append]

@[simp] theorem isCall_callFunction (contract method : String) :
    isCall (callFunction contract method) = true := by
  simp [isCall, callFunction, String.toList_append]

@[simp] theorem isCall_deployFunction (contract : String) :
    isCall (deployFunction contract) = true := by
  simp [isCall, deployFunction, String.toList_append]

@[simp] theorem isCall_getter (name : String) : isCall (Storage.getter name) = false := by
  simp [isCall, Storage.getter, String.toList_append, List.isPrefixOf]

@[simp] theorem isCall_setter (name : String) : isCall (Storage.setter name) = false := by
  simp [isCall, Storage.setter, String.toList_append, List.isPrefixOf]

@[simp] theorem isCall_lengthGetter (name : String) :
    isCall (Storage.lengthGetter name) = false := by
  simp [isCall, Storage.lengthGetter, String.toList_append, List.isPrefixOf]

@[simp] theorem isCall_hashFunction (count : Nat) : isCall (hashFunction count) = false := by
  simp [isCall, hashFunction, String.toList_append, List.isPrefixOf]

@[simp] theorem isCall_eventFunction (event : String) : isCall (eventFunction event) = false := by
  simp [isCall, eventFunction, String.toList_append, List.isPrefixOf]

/-- What is read from the environment calls nothing of the program. -/
theorem isCall_environment {space member : String} {m : EnvMember}
    (h : Environment.member? space member = some m) : isCall m.builtin = false := by
  have hall : ∀ entry ∈ Environment.spaces, ∀ m ∈ entry.2, isCall m.builtin = false := by
    decide
  have hm := List.mem_of_find?_eq_some h
  unfold Environment.members at hm
  cases hspace : Environment.spaces.lookup space with
  | none =>
    rw [hspace] at hm
    cases hm
  | some members =>
    rw [hspace] at hm
    obtain ⟨before, after, hspaces, -⟩ := List.lookup_eq_some_iff.1 hspace
    exact hall (space, members) (by simp [hspaces]) m hm

/-! ## Orders -/

/-- The function that a call or a deployment goes to. -/
def Context.ownCall (x : Context) : Expr → List String
  | .call _ target (.this _) _ => [methodFunction target]
  | .call _ target receiver _ =>
    (x.receiverContract? receiver).toList.map (callFunction · target)
  | .deploy _ contract _ => [deployFunction contract]
  | _ => []

/-- **The calls and deployments within an expression**, by the functions they go to: those of its
parts, in an arrangement, and then its own. -/
def Context.callOrder (x : Context) (arrange : List (List String) → List (List String))
    (e : Expr) : List String :=
  (arrange (e.parts.attach.map fun part => x.callOrder arrange part.1)).flatten ++ x.ownCall e
termination_by sizeOf e
decreasing_by exact Expr.sizeOf_lt_of_mem_parts part.2

/-- The calls of an expression in the order in which they are written. -/
def Context.sourceOrder (x : Context) : Expr → List String :=
  x.callOrder id

/-- The calls of an expression from the last part to the first. -/
def Context.reverseOrder (x : Context) : Expr → List String :=
  x.callOrder List.reverse

/-- The calls of several operands, from the last one to the first. -/
def Context.reverseOrderEach (x : Context) (es : List Expr) : List String :=
  (es.map x.reverseOrder).reverse.flatten

variable {x : Context} {run : Apply} {order orders : List String}

/-- An expression calls what its parts do, in the order they are arranged in, and then itself. -/
theorem callOrder_eq (arrange : List (List String) → List (List String)) (e : Expr) :
    x.callOrder arrange e =
      (arrange (e.parts.map (x.callOrder arrange))).flatten ++ x.ownCall e := by
  rw [Context.callOrder, List.map_attach_eq_pmap, List.pmap_eq_map]

/-- The parts call from the last to the first. -/
theorem reverseOrder_eq (e : Expr) :
    x.reverseOrder e = x.reverseOrderEach e.parts ++ x.ownCall e :=
  callOrder_eq _ e

/-- What is no call itself runs the calls of its parts. -/
theorem reverseOrder_of_ownCall_eq_nil {e : Expr} (h : x.ownCall e = []) :
    x.reverseOrder e = x.reverseOrderEach e.parts := by
  rw [reverseOrder_eq, h, List.append_nil]

theorem reverseOrderEach_singleton (e : Expr) : x.reverseOrderEach [e] = x.reverseOrder e := by
  simp [Context.reverseOrderEach]

theorem reverseOrderEach_cons (e : Expr) (es : List Expr) :
    x.reverseOrderEach (e :: es) = x.reverseOrderEach es ++ x.reverseOrder e := by
  simp [Context.reverseOrderEach]

/-! ## Expressions -/

/-- **The evaluation of an expression runs calls in an order**: they are the beginning of it, and
all of it where the evaluation gives words. -/
structure RunsCalls (run : Apply) (y : Yul.Expr) (order : List String) : Prop where
  unquoted : ∀ name, y ≠ .quoted name
  begins : ∀ s, callNames (applications run y s) <+: order
  all : ∀ s words t, eval run y s = .ok words t → callNames (applications run y s) = order

/-- The evaluation of operands runs calls in an order. -/
structure RunsCallsEach (run : Apply) (ys : List Yul.Expr) (order : List String) : Prop where
  begins : ∀ s, callNames (applicationsEach run ys s) <+: order
  all : ∀ s words t, evalArgs run ys s = .ok words t →
    callNames (applicationsEach run ys s) = order

theorem RunsCallsEach.nil : RunsCallsEach run [] [] :=
  ⟨fun _ => List.prefix_rfl, fun _ _ _ _ => rfl⟩

/-- The calls of the first operand come last. -/
theorem RunsCallsEach.cons {y : Yul.Expr} {ys : List Yul.Expr} (h : RunsCalls run y order)
    (hrest : RunsCallsEach run ys orders) : RunsCallsEach run (y :: ys) (orders ++ order) := by
  -- operands are evaluated from the last to the first
  have hcalls (s : State) : applicationsEach run (y :: ys) s = applicationsEach run ys s ++
      match evalArgs run ys s with
      | .ok _ t => applications run y t
      | .error _ _ => [] := by
    cases y with
    | quoted name => exact absurd rfl (h.unquoted name)
    | _ => rfl
  constructor
  · intro s
    rw [hcalls, callNames_append]
    cases hargs : evalArgs run ys s with
    | ok words t =>
      rw [hrest.all s words t hargs]
      exact List.prefix_append_right_inj orders |>.2 (h.begins t)
    | error why t =>
      rw [callNames_nil, List.append_nil]
      exact (hrest.begins s).trans (List.prefix_append orders order)
  · intro s words t hok
    rw [evalArgs_cons run ys h.unquoted, bind_apply] at hok
    rw [hcalls, callNames_append]
    cases hargs : evalArgs run ys s with
    | error why t =>
      rw [hargs] at hok
      cases hok
    | ok rest u =>
      rw [hargs, andThen_ok, bind_apply, single_apply] at hok
      cases hy : eval run y u with
      | error why v =>
        rw [hy] at hok
        cases hok
      | ok first v => rw [hrest.all s rest u hargs, h.all u first v hy]

/-- **An application runs the calls of its operands**, and then its own. -/
theorem RunsCallsEach.call {ys : List Yul.Expr} (h : RunsCallsEach run ys order) (f : String) :
    RunsCalls run (.call f ys) (order ++ [f].filter isCall) := by
  refine ⟨fun _ => nofun, fun s => ?_, fun s words t hok => ?_⟩
  · rw [applications, callNames_append]
    cases hargs : evalArgs run ys s with
    | ok words t =>
      rw [h.all s words t hargs]
      exact List.prefix_rfl
    | error why t =>
      rw [callNames_nil, List.append_nil]
      exact (h.begins s).trans (List.prefix_append _ _)
  · rw [eval, bind_apply] at hok
    rw [applications, callNames_append]
    cases hargs : evalArgs run ys s with
    | ok words t =>
      rw [h.all s words t hargs]
      rfl
    | error why t =>
      rw [hargs] at hok
      cases hok

theorem RunsCallsEach.callOf {ys : List Yul.Expr} {f : String} (h : RunsCallsEach run ys order)
    (hf : isCall f = true) : RunsCalls run (.call f ys) (order ++ [f]) := by
  have hcall := h.call f
  rwa [List.filter_cons_of_pos hf, List.filter_nil] at hcall

/-- An application of what is no call runs the calls of its operands. -/
theorem RunsCallsEach.apply {ys : List Yul.Expr} {f : String} (h : RunsCallsEach run ys order)
    (hf : isCall f = false) : RunsCalls run (.call f ys) order := by
  have hcall := h.call f
  rwa [List.filter_cons_of_neg (by simp [hf]), List.filter_nil, List.append_nil] at hcall

/-- A variable or a literal calls nothing. -/
theorem RunsCalls.leaf {y : Yul.Expr} (hquoted : ∀ name, y ≠ .quoted name)
    (hcall : ∀ f args, y ≠ .call f args) : RunsCalls run y [] := by
  have happlied (s : State) : applications run y s = [] := by
    cases y with
    | call f args => exact absurd rfl (hcall f args)
    | _ => rfl
  exact ⟨hquoted, fun s => by rw [happlied]; exact List.prefix_rfl,
    fun s _ _ _ => by rw [happlied]; rfl⟩

theorem RunsCalls.isZero {y : Yul.Expr} (h : RunsCalls run y order) :
    RunsCalls run (.isZero y) order :=
  (RunsCallsEach.cons h .nil).apply (by decide)

/-- An operator runs the calls of the right operand first. -/
theorem runsCalls_operation {left right : Yul.Expr} (op : BinaryOp)
    (hleft : RunsCalls run left order) (hright : RunsCalls run right orders) :
    RunsCalls run (operation op left right) (orders ++ order) := by
  have hboth : RunsCallsEach run [left, right] (orders ++ order) := .cons hleft (.cons hright .nil)
  cases op with
  | ne | le | ge => exact (hboth.apply (by decide)).isZero
  | _ => exact hboth.apply (by decide)

theorem method?_name {c : Contract} {name : String} {m : Routine} (h : c.method? name = some m) :
    m.name = name := by
  simpa using List.find?_some h

/-- A call with a known receiver applies one function. -/
theorem Receives.ownCall_eq {receiver : Expr} {target function : String} {m : Routine}
    {before : List Yul.Expr} (h : Receives x receiver target m function before) (pos : Position)
    (args : List Expr) : x.ownCall (.call pos target receiver args) = [function] := by
  cases h with
  | own => rfl
  | external _ hm => simp [Context.ownCall, Context.receiverContract?, method?_name hm]
  | stored hv htype _ hm =>
    simp [Context.ownCall, Context.receiverContract?, hv, htype, method?_name hm]

theorem Receives.isCall_eq {receiver : Expr} {target function : String} {m : Routine}
    {before : List Yul.Expr} (h : Receives x receiver target m function before) :
    isCall function = true := by
  cases h <;> simp

mutual
/-- **The code of an expression runs the calls from the last part to the first.** -/
theorem Codes.runsCalls (run : Apply) : ∀ {e : Expr} {y : Yul.Expr}, Codes x e y →
    RunsCalls run y (x.reverseOrder e)
  | _, _, .literal _ | _, _, .var => by
    rw [reverseOrder_of_ownCall_eq_nil rfl]
    exact .leaf nofun nofun
  | _, _, .storage _ _ => by
    rw [reverseOrder_of_ownCall_eq_nil rfl]
    exact RunsCallsEach.nil.apply (isCall_getter _)
  | _, _, .length _ => by
    rw [reverseOrder_of_ownCall_eq_nil rfl]
    exact RunsCallsEach.nil.apply (isCall_lengthGetter _)
  | _, _, .this => by
    rw [reverseOrder_of_ownCall_eq_nil rfl]
    exact RunsCallsEach.nil.apply (by decide)
  | _, _, .environment h => by
    rw [reverseOrder_of_ownCall_eq_nil rfl]
    exact RunsCallsEach.nil.apply (isCall_environment h)
  | _, _, .entry _ _ h => by
    rw [reverseOrder_of_ownCall_eq_nil rfl]
    exact (h.runsCalls run).apply (isCall_getter _)
  | _, _, .hash h => by
    rw [reverseOrder_of_ownCall_eq_nil rfl]
    exact (h.runsCalls run).apply (isCall_hashFunction _)
  | _, _, .binary hleft hright => by
    rw [reverseOrder_of_ownCall_eq_nil rfl, Expr.parts, reverseOrderEach_cons,
      reverseOrderEach_singleton]
    exact runsCalls_operation _ (hleft.runsCalls run) (hright.runsCalls run)
  | _, _, .not h => by
    rw [reverseOrder_of_ownCall_eq_nil rfl, Expr.parts, reverseOrderEach_singleton]
    exact (h.runsCalls run).isZero
  | _, _, .external h => by
    rw [reverseOrder_of_ownCall_eq_nil rfl, Expr.parts, reverseOrderEach_singleton]
    exact h.runsCalls run
  | _, _, .deploy _ _ h => by
    rw [reverseOrder_eq]
    exact (h.runsCalls run).callOf (isCall_deployFunction _)
  -- the receiver is the first part, so it is evaluated last
  | _, _, .call hreceiver _ _ h => by
    rw [reverseOrder_eq, hreceiver.ownCall_eq, Expr.parts, reverseOrderEach_cons]
    exact (hreceiver.runsCalls run (h.runsCalls run)).callOf hreceiver.isCall_eq

/-- The receiver stands before the arguments, and is evaluated after them. -/
theorem Receives.runsCalls (run : Apply) : ∀ {receiver : Expr} {target function : String}
    {m : Routine} {before ys : List Yul.Expr} {order : List String},
    Receives x receiver target m function before → RunsCallsEach run ys order →
    RunsCallsEach run (before ++ ys) (order ++ x.reverseOrder receiver)
  | _, _, _, _, _, _, _, .own _, h => by
    rw [reverseOrder_of_ownCall_eq_nil rfl, List.nil_append]
    simpa [Expr.parts, Context.reverseOrderEach] using h
  | _, _, _, _, _, _, _, .external _ _ _ haddress, h => by
    rw [reverseOrder_of_ownCall_eq_nil rfl, Expr.parts, reverseOrderEach_singleton]
    exact .cons (haddress.runsCalls run) h
  | _, _, _, _, _, _, _, .stored _ _ _ _ _ haddress, h => .cons (haddress.runsCalls run) h

/-- **The codes of several expressions call in reverse**, from the last expression to the first. -/
theorem CodesEach.runsCalls (run : Apply) : ∀ {es : List Expr} {ys : List Yul.Expr},
    CodesEach x es ys → RunsCallsEach run ys (x.reverseOrderEach es)
  | _, _, .nil => .nil
  | _, _, .cons h hrest => by
    rw [reverseOrderEach_cons]
    exact .cons (h.runsCalls run) (hrest.runsCalls run)
end

/-! ## Statements -/

/-- **Statements run the calls of their operands in an order**: they are the beginning of it, and
all of it where the statements end. -/
structure RunsCallsAll (run : Apply) (rounds : Nat) (code : List Yul.Stmt) (order : List String) :
    Prop where
  begins : ∀ s, callNames (applicationsAll run rounds code s) <+: order
  all : ∀ s flow t, execAll run rounds code s = .ok flow t →
    callNames (applicationsAll run rounds code s) = order

variable {rounds : Nat}

/-- A statement that ends has evaluated its operand. -/
theorem eval_operand_of_exec {c : Yul.Stmt} {y : Yul.Expr} {s t : State} {flow : Flow}
    (hoperand : operand? c = some y) (h : exec run rounds c s = .ok flow t) :
    ∃ words u, eval run y s = .ok words u := by
  cases hy : eval run y s with
  | ok words u => exact ⟨words, u, rfl⟩
  | error why u =>
    cases c with
    | declare names value =>
      cases value with
      | none => cases hoperand
      | some value =>
        cases hoperand
        simp [hy] at h
    | loop condition step body =>
      cases hoperand
      cases rounds with
      | zero => simp [iterate] at h
      | succ rounds => simp [iterate, hy] at h
    | block | leave | stop => cases hoperand
    | evaluate | assign | ifThen | guard | ifZero =>
      cases hoperand
      simp [hy] at h

theorem RunsCallsAll.nil : RunsCallsAll run rounds [] [] :=
  ⟨fun _ => List.prefix_rfl, fun _ _ _ _ => rfl⟩

/-- A statement with an operand runs the calls of the operand, and then those of what follows. -/
theorem RunsCallsAll.cons {c : Yul.Stmt} {rest : List Yul.Stmt} {y : Yul.Expr}
    (hoperand : operand? c = some y) (h : RunsCalls run y order)
    (hnext : rest = [] ∨ ∀ s flow t, exec run rounds c s = .ok flow t → flow = .next)
    (hrest : RunsCallsAll run rounds rest orders) :
    RunsCallsAll run rounds (c :: rest) (order ++ orders) := by
  have hcalls (s : State) : callNames (applicationsAll run rounds (c :: rest) s) =
      callNames (applications run y s) ++
        callNames (match exec run rounds c s with
          | .ok .next t => applicationsAll run rounds rest t
          | _ => []) := by
    rw [applicationsAll, hoperand, callNames_append]
    rfl
  constructor
  · intro s
    rw [hcalls]
    -- only if the statement ends are the calls of the others run
    cases hexec : exec run rounds c s with
    | error why t =>
      rw [callNames_nil, List.append_nil]
      exact (h.begins s).trans (List.prefix_append _ _)
    | ok flow t =>
      obtain ⟨words, u, hy⟩ := eval_operand_of_exec hoperand hexec
      rw [h.all s words u hy, List.prefix_append_right_inj]
      cases flow with
      | next => exact hrest.begins t
      | left | broke => exact List.nil_prefix
  · intro s flow t hok
    rw [execAll, bind_apply] at hok
    rw [hcalls]
    cases hexec : exec run rounds c s with
    | error why u =>
      rw [hexec] at hok
      cases hok
    | ok flow' u =>
      obtain ⟨words, v, hy⟩ := eval_operand_of_exec hoperand hexec
      rw [h.all s words v hy]
      rw [hexec, andThen_ok] at hok
      rcases hnext with rfl | hnext
      · -- nothing follows, so that nothing is left out whichever way the statement ends
        have hnone : orders = [] := (hrest.all u .next u rfl).symm
        subst hnone
        cases flow' <;> rfl
      · obtain rfl := hnext s flow' u hexec
        rw [hrest.all u flow t hok]

/-- A single statement runs the calls of its operand. -/
theorem RunsCalls.statement {c : Yul.Stmt} {y : Yul.Expr} (h : RunsCalls run y order)
    (hoperand : operand? c = some y) : RunsCallsAll run rounds [c] order := by
  have hnone : RunsCallsAll run rounds [] [] := .nil
  have hall := RunsCallsAll.cons hoperand h (.inl rfl) hnone
  rwa [List.append_nil] at hall

/-- An assignment runs the calls of its value, and then what follows is run. -/
theorem RunsCallsAll.assign {name : String} {y : Yul.Expr} {rest : List Yul.Stmt}
    (h : RunsCalls run y order) (hrest : RunsCallsAll run rounds rest orders) :
    RunsCallsAll run rounds (.assign name y :: rest) (order ++ orders) := by
  refine .cons rfl h (.inr fun s flow t hok => ?_) hrest
  rw [exec, bind_apply] at hok
  cases hsingle : single (eval run y) s with
  | error why u =>
    rw [hsingle] at hok
    cases hok
  | ok w u =>
    rw [hsingle, andThen_ok, bind_apply] at hok
    cases hassign : Machine.assign name w u with
    | error why v =>
      rw [hassign] at hok
      cases hok
    | ok _ v =>
      rw [hassign] at hok
      cases hok
      rfl

theorem RunsCallsAll.leave : RunsCallsAll run rounds [.leave] [] :=
  ⟨fun _ => List.prefix_rfl, fun _ _ _ _ => rfl⟩

/-- **The calls of the operands of a statement**, from the last operand to the first. The fields of
a record that is returned come as they are written. -/
def Context.statementOrder (x : Context) : Stmt → List String
  | .exit _ (some (.record _ _ fields)) => fields.flatMap x.reverseOrder
  | s => x.reverseOrderEach s.operands

/-- The fields of a record are assigned one after another. -/
theorem CodesEach.runsCallsAll (run : Apply) (rounds : Nat) : ∀ {fields : List Expr}
    {ys : List Yul.Expr} {results : List String}, CodesEach x fields ys →
    fields.length = results.length →
    RunsCallsAll run rounds (List.zipWith Yul.Stmt.assign results ys ++ [.leave])
      (fields.flatMap x.reverseOrder)
  | _, _, [], .nil, _ => .leave
  | _, _, _ :: _, .cons h hrest, hcount =>
    .assign (h.runsCalls run) (hrest.runsCallsAll run rounds (Nat.succ.inj hcount))

/-- **The code of a statement runs the calls of its operands** from the last to the first. -/
theorem CodesStmt.runsCalls (run : Apply) (rounds : Nat) {returns : Ty} {s : Stmt}
    {code : List Yul.Stmt} (h : CodesStmt x returns s code) :
    RunsCallsAll run rounds code (x.statementOrder s) := by
  cases h with
  | blank => exact ⟨fun _ => List.prefix_rfl, fun _ _ _ _ => rfl⟩
  | exit => exact .leave
  | skip => exact .nil
  | setProperty _ _ h =>
    exact ((CodesEach.runsCalls run (.cons h .nil)).apply (isCall_setter _)).statement rfl
  | setEntry _ _ hindices hvalue =>
    have hoperands := hindices.append (.cons hvalue .nil)
    exact ((hoperands.runsCalls run).apply (isCall_setter _)).statement rfl
  | declare h | setVariable h | ifThen h | ifElse _ h =>
    have hvalue := h.runsCalls run
    rw [← reverseOrderEach_singleton] at hvalue
    exact hvalue.statement rfl
  | throw h =>
    exact ((CodesEach.runsCalls run (.cons h .nil)).apply (by decide)).statement rfl
  | emit _ h => exact ((h.runsCalls run).apply (isCall_eventFunction _)).statement rfl
  -- a word that is returned is assigned to the result in front of leaving
  | @exitWord _ value y result _ h =>
    have hassign :
        RunsCallsAll run rounds [.assign result y, .leave] (x.reverseOrder value ++ []) :=
      .assign (h.runsCalls run) .leave
    rw [List.append_nil, ← reverseOrderEach_singleton] at hassign
    cases value with
    | record => cases h
    | _ => exact hassign
  | exitRecord hcount h => exact h.runsCallsAll run rounds hcount
  | @evaluate _ value y h =>
    have hvalue := h.runsCalls run
    have hpop : RunsCalls run (.call "pop" [y]) (x.reverseOrderEach [value]) :=
      (CodesEach.runsCalls run (.cons h .nil)).apply (by decide)
    rw [← reverseOrderEach_singleton] at hvalue
    split
    · exact hpop.statement rfl
    · exact hvalue.statement rfl

/-! ## Where the order is that of the source -/

/-- At most one of several expressions has calls. -/
def Context.OneCalls (x : Context) (es : List Expr) : Prop :=
  (es.filter fun e => !(x.sourceOrder e).isEmpty).length ≤ 1

/-- **Of the parts of every expression within an expression at most one has calls.** -/
def Context.CallsLinearly (x : Context) (e : Expr) : Prop :=
  ∀ whole ∈ e.subexpressions, x.OneCalls whole.parts

/-- If at most one of several lists has elements, it does not matter how they are arranged. -/
theorem flatten_reverse_of_length_le {α : Type} {lists : List (List α)}
    (h : (lists.filter (!·.isEmpty)).length ≤ 1) : lists.reverse.flatten = lists.flatten := by
  have hreverse : lists.reverse.flatten = ((lists.filter (!·.isEmpty)).reverse).flatten := by
    rw [← List.filter_reverse, List.flatten_filter_not_isEmpty]
  rw [hreverse, ← @List.flatten_filter_not_isEmpty _ lists]
  generalize lists.filter (!·.isEmpty) = filled at h
  match filled, h with
  | [], _ | [_], _ => rfl

/-- Where at most one of several expressions calls anything, the order among them is that of the
source. -/
theorem reverseOrderEach_eq {es : List Expr} (hone : x.OneCalls es)
    (h : ∀ e ∈ es, x.reverseOrder e = x.sourceOrder e) :
    x.reverseOrderEach es = es.flatMap x.sourceOrder := by
  rw [Context.reverseOrderEach, List.map_congr_left h, List.flatMap]
  refine flatten_reverse_of_length_le ?_
  rw [List.filter_map, List.length_map]
  exact hone

/-- **Where at most one part has calls, they run in the order of the source.** -/
theorem Context.CallsLinearly.reverseOrder_eq {e : Expr} (h : x.CallsLinearly e) :
    x.reverseOrder e = x.sourceOrder e := by
  induction e using Expr.induction with
  | h e ih =>
    rw [Context.CallsLinearly, Expr.subexpressions_eq, List.forall_mem_cons] at h
    obtain ⟨hone, hparts⟩ := h
    rw [Emit.reverseOrder_eq, Context.sourceOrder, callOrder_eq, id, ← List.flatMap,
      reverseOrderEach_eq hone]
    · rfl
    · intro part hpart
      exact ih part hpart fun whole hwhole =>
        hparts whole (List.mem_flatMap.2 ⟨part, hpart, hwhole⟩)

theorem sourceOrder_record (pos : Position) (shape : Interface) (fields : List Expr) :
    x.sourceOrder (.record pos shape fields) = fields.flatMap x.sourceOrder := by
  rw [Context.sourceOrder, callOrder_eq, id, ← List.flatMap]
  exact List.append_nil _

/-- A statement whose operands call linearly calls in the order of the source. -/
theorem statementOrder_eq {s : Stmt} (hone : x.OneCalls s.operands)
    (h : ∀ e ∈ s.operands, x.CallsLinearly e) :
    x.statementOrder s = s.operands.flatMap x.sourceOrder := by
  have hoperands : x.reverseOrderEach s.operands = s.operands.flatMap x.sourceOrder :=
    reverseOrderEach_eq hone fun e he => (h e he).reverseOrder_eq
  unfold Context.statementOrder
  split
  · rename_i recordPos shape fields
    have hfields (e : Expr) (he : e ∈ fields) : x.CallsLinearly e := by
      intro whole hwhole
      refine h _ (List.mem_singleton_self _) whole ?_
      rw [Expr.subexpressions_eq]
      exact List.mem_cons_of_mem _ (List.mem_flatMap.2 ⟨e, he, hwhole⟩)
    rw [Stmt.operands, Option.toList_some, List.flatMap_singleton, sourceOrder_record]
    exact List.flatMap_congr fun e he => (hfields e he).reverseOrder_eq
  · exact hoperands

/-- **Calls run from right to left.** The code of an expression runs its calls and deployments from
its last part to its first: the arguments of a call from the last to the first, then what it is sent
to, and then the call itself. The code of a statement runs its operands in that order too, but for
the fields of a record that is returned, which come as they are written. A run that stops early has
begun with that order. It is the order of the source where at most one of the operands has calls,
and likewise within each operand; no more than that is needed of each field of a record. -/
theorem calls_run_right_to_left (x : Context) (run : Apply) (rounds : Nat) :
    (∀ e y, x.expr e = .ok y → RunsCalls run y (x.reverseOrder e)) ∧
    (∀ returns s code, x.statement returns s = .ok code →
      RunsCallsAll run rounds code (x.statementOrder s)) ∧
    (∀ e, x.CallsLinearly e → x.reverseOrder e = x.sourceOrder e) ∧
    (∀ s : Stmt, x.OneCalls s.operands → (∀ e ∈ s.operands, x.CallsLinearly e) →
      x.statementOrder s = s.operands.flatMap x.sourceOrder) ∧
    ∀ pos recordPos shape fields, (∀ e ∈ fields, x.CallsLinearly e) →
      x.statementOrder (.exit pos (some (.record recordPos shape fields))) =
        fields.flatMap x.sourceOrder := by
  refine ⟨fun e y h => (codes_of_expr h).runsCalls run,
    fun returns s code h => (codes_of_statement h).runsCalls run rounds,
    fun e h => h.reverseOrder_eq, fun s hone h => statementOrder_eq hone h,
    fun pos recordPos shape fields h => ?_⟩
  exact List.flatMap_congr fun e he => (h e he).reverseOrder_eq

/-! ## Two calls in one expression -/

/-- A contract with `first(): number { return 1; }` and `second(): number { return 2; }`. -/
def twoMethods : Contract where
  name := "TwoMethods"
  methods :=
    [{ name := "first", returns := .number
       body := [.exit {} (some (.literal {} .number "1"))] },
      { name := "second", returns := .number
        body := [.exit {} (some (.literal {} .number "2"))] }]

/-- The code of `twoMethods` is generated for it alone. -/
def twoMethodsContext : Context where
  registry := { contracts := [twoMethods] }
  contract := twoMethods
  layout := ⟨[], 0⟩
  creation := false

/-- The expression `this.first() == this.second()`. -/
def bothCalls : Expr :=
  .binary {} .eq (.call {} "first" (.this {}) []) (.call {} "second" (.this {}) [])

theorem sourceOrder_bothCalls :
    twoMethodsContext.sourceOrder bothCalls = ["fun_first", "fun_second"] := by
  simp [Context.sourceOrder, callOrder_eq, bothCalls, Expr.parts, Context.ownCall, methodFunction]

theorem reverseOrder_bothCalls :
    twoMethodsContext.reverseOrder bothCalls = ["fun_second", "fun_first"] := by
  simp [Context.reverseOrder, callOrder_eq, bothCalls, Expr.parts, Context.ownCall, methodFunction]

/-- The functions of both methods. -/
def twoMethodsCode : List Yul.Function :=
  [{ name := "fun_first", results := ["ret"], body := [.assign "ret" (.literal "1"), .leave] },
    { name := "fun_second", results := ["ret"], body := [.assign "ret" (.literal "2"), .leave] }]

/-- The second method is called first. -/
theorem calls_run_right_to_left_bothCalls :
    twoMethodsContext.expr bothCalls =
        .ok (.binary "eq" (.call "fun_first" []) (.call "fun_second" [])) ∧
      RunsCalls (apply ⟨fun _ => 0, [], 0, fun _ => 0, fun _ => none⟩ twoMethodsCode 1)
        (.binary "eq" (.call "fun_first" []) (.call "fun_second" []))
        ["fun_second", "fun_first"] := by
  refine ⟨rfl, ?_⟩
  rw [← reverseOrder_bothCalls]
  exact (calls_run_right_to_left twoMethodsContext _ 1).1 bothCalls _ rfl

/-- **Calls do not run in the order of the source.** The second method of `twoMethods` is called
before the first. -/
theorem calls_run_out_of_order :
    ¬ ∀ (x : Context) (e : Expr) (y : Yul.Expr) (code : List Yul.Function) (host : Host)
        (rounds : Nat) (s t : State) (words : List Word), x.expr e = .ok y →
      x.contract.methods.mapM x.method = .ok code →
      eval (apply host code rounds) y s = .ok words t →
      callNames (applications (apply host code rounds) y s) = x.sourceOrder e := by
  intro horder
  let host : Host := ⟨fun _ => 0, [], 0, fun _ => 0, fun _ => none⟩
  let start : State := { storage := fun _ => 0 }
  let y : Yul.Expr := .binary "eq" (.call "fun_first" []) (.call "fun_second" [])
  have hrun : callNames (applications (apply host twoMethodsCode 1) y start) =
      ["fun_second", "fun_first"] := by
    decide +kernel
  have hends : ∃ words t, eval (apply host twoMethodsCode 1) y start = .ok words t := ⟨_, _, rfl⟩
  obtain ⟨words, t, heval⟩ := hends
  have hsource := horder twoMethodsContext bothCalls y twoMethodsCode host 1 start t words rfl rfl
    heval
  rw [hrun, sourceOrder_bothCalls] at hsource
  exact absurd hsource (by decide)

end Emit

end Covenant
