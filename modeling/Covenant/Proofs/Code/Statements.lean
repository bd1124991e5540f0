import Covenant.Proofs.Code.Expressions
import Covenant.Proofs.Contract.Parts

/-!
# The code of statements

The rules by which a statement has code in a function that returns a type, and by which a body has
the code of its statements, one after another. Where code is generated, the rules apply
(`codes_of_statements`). All expressions of such a body have code, but for a record that is
returned, which is returned field by field.
-/

namespace Covenant

/-- Whether a property can be assigned as a whole, in the code that creates the contract or in the
code that stays. -/
def Storage.Location.isAssignable (creation : Bool) : Storage.Location → Bool
  | .scalar _ => true
  | .staged _ _ => creation
  | _ => false

/-- **The expressions of a statement whose values are used.** Of what is evaluated for its effect
only the parts are, and a record is returned field by field. -/
def Stmt.values : Stmt → List Expr
  | .evaluate _ value => value.parts
  | .exit _ (some (.record _ _ fields)) => fields
  | s => s.operands

namespace Emit

open Yul.Stmt

mutual
/-- **A statement has code** in a function that returns a type. -/
inductive CodesStmt (x : Context) (returns : Ty) : Stmt → List Yul.Stmt → Prop
  | setProperty {pos name location value y} (h : x.layout.location? name = some location)
      (hassignable : location.isAssignable x.creation) (hvalue : Codes x value y) :
      CodesStmt x returns (.setProperty pos name value) [run (Storage.setter name) [y]]
  | setEntry {pos name location indices value ys y} (h : x.layout.location? name = some location)
      (hcount : location.indices? = some indices.length) (hindices : CodesEach x indices ys)
      (hvalue : Codes x value y) :
      CodesStmt x returns (.setEntry pos name indices value)
        [run (Storage.setter name) (ys ++ [y])]
  | blank {pos name type} :
      CodesStmt x returns (.declare pos name type none) [.declare [localName name] none]
  | declare {pos name type value y} (h : Codes x value y) :
      CodesStmt x returns (.declare pos name type (some value)) [define (localName name) y]
  | setVariable {pos name value y} (h : Codes x value y) :
      CodesStmt x returns (.setVariable pos name value) [assign (localName name) y]
  | exit {pos} : CodesStmt x returns (.exit pos none) [leave]
  | exitWord {pos value y result} (hreturns : resultVars returns = [result])
      (h : Codes x value y) :
      CodesStmt x returns (.exit pos (some value)) [assign result y, leave]
  /-- The result variables are assigned one after another. -/
  | exitRecord {pos recordPos shape fields ys}
      (hcount : fields.length = (resultVars returns).length) (h : CodesEach x fields ys) :
      CodesStmt x returns (.exit pos (some (.record recordPos shape fields)))
        (List.zipWith assign (resultVars returns) ys ++ [leave])
  | ifThen {pos condition yes y code} (h : Codes x condition y)
      (hyes : CodesBody x returns yes code) :
      CodesStmt x returns (.branch pos condition yes []) [.ifThen y code]
  | ifElse {pos condition yes no y yesCode noCode} (hno : no ≠ []) (h : Codes x condition y)
      (hyes : CodesBody x returns yes yesCode) (hnoCode : CodesBody x returns no noCode) :
      CodesStmt x returns (.branch pos condition yes no) [ifZero y noCode yesCode]
  | throw {pos message y} (h : Codes x message y) :
      CodesStmt x returns (.throw pos message) [run "revert_error" [y]]
  | emit {pos name event args ys} (hevent : x.contract.event? name = some event)
      (h : CodesEach x args ys) :
      CodesStmt x returns (.emit pos name args) [run (eventFunction name) ys]
  | evaluate {pos value y} (h : Codes x value y) :
      CodesStmt x returns (.evaluate pos value)
        [if x.leavesWord value then run "pop" [y] else .evaluate y]
  | skip {pos} : CodesStmt x returns (.skip pos) []

/-- A body has the code of its statements, one after another. -/
inductive CodesBody (x : Context) (returns : Ty) : List Stmt → List Yul.Stmt → Prop
  | nil : CodesBody x returns [] []
  | cons {s code body rest} (h : CodesStmt x returns s code)
      (hrest : CodesBody x returns body rest) : CodesBody x returns (s :: body) (code ++ rest)
end

variable {x : Context} {returns : Ty}

/-! ## Generated code -/

/-- What passed the check is a property that may be assigned to. -/
theorem isAssignable_of_checkAssignable {pos : Position} {name : String}
    (h : x.checkAssignable pos name = .ok ()) :
    ∃ location, x.layout.location? name = some location ∧ location.isAssignable x.creation := by
  obtain ⟨location, hlocation, h⟩ := bind_eq_ok.1 h
  refine ⟨location, location_eq_ok.1 hlocation, ?_⟩
  cases location with
  | scalar => rfl
  | staged =>
    dsimp only at h
    split at h
    · assumption
    · exact absurd h throw_ne_ok
  | inlined | array | mapping => exact absurd h throw_ne_ok

/-- Code of a return is related to the statement. -/
theorem codes_of_exit {pos : Position} {value : Expr} {code : List Yul.Stmt}
    (h : x.exit pos returns value = .ok code) :
    CodesStmt x returns (.exit pos (some value)) code := by
  unfold Context.exit at h
  split at h
  · obtain ⟨⟨⟩, -, h⟩ := bind_eq_ok.1 h
    dsimp only at h
    rw [check_eq_ok, Decidable.not_not] at h
    obtain ⟨hcount, h⟩ := h
    obtain ⟨ys, hys, h⟩ := bind_eq_ok.1 h
    cases pure_eq_ok.1 h
    exact .exitRecord hcount (codes_of_exprs hys)
  · obtain ⟨⟨⟩, -, h⟩ := bind_eq_ok.1 h
    split at h
    · obtain ⟨y, hy, h⟩ := bind_eq_ok.1 h
      cases pure_eq_ok.1 h
      exact .exitWord ‹_› (codes_of_expr hy)
    · exact absurd h throw_ne_ok

mutual
/-- **Code that is generated for a statement is related to it**, by induction on the statement. -/
theorem codes_of_statement : ∀ {s : Stmt} {code : List Yul.Stmt},
    x.statement returns s = .ok code → CodesStmt x returns s code
  | .setProperty _ _ _, _, h => by
    rw [Context.statement] at h
    obtain ⟨⟨⟩, hcheck, h⟩ := bind_eq_ok.1 h
    obtain ⟨y, hy, h⟩ := bind_eq_ok.1 h
    cases pure_eq_ok.1 h
    obtain ⟨location, hlocation, hassignable⟩ := isAssignable_of_checkAssignable hcheck
    exact .setProperty hlocation hassignable (codes_of_expr hy)
  | .setEntry _ _ _ _, _, h => by
    rw [Context.statement] at h
    obtain ⟨⟨⟩, hcheck, h⟩ := bind_eq_ok.1 h
    obtain ⟨ys, hys, h⟩ := bind_eq_ok.1 h
    obtain ⟨y, hy, h⟩ := bind_eq_ok.1 h
    cases pure_eq_ok.1 h
    obtain ⟨location, hlocation, hcount⟩ := indices?_of_checkIndexed hcheck
    exact .setEntry hlocation hcount (codes_of_exprs hys) (codes_of_expr hy)
  | .declare _ _ _ none, _, h => by
    cases h
    exact .blank
  | .declare _ _ _ (some _), _, h => by
    rw [Context.statement] at h
    obtain ⟨y, hy, h⟩ := bind_eq_ok.1 h
    cases pure_eq_ok.1 h
    exact .declare (codes_of_expr hy)
  | .setVariable _ _ _, _, h => by
    rw [Context.statement] at h
    obtain ⟨y, hy, h⟩ := bind_eq_ok.1 h
    cases pure_eq_ok.1 h
    exact .setVariable (codes_of_expr hy)
  | .exit _ none, _, h => by
    cases h
    exact .exit
  | .exit _ (some _), _, h => codes_of_exit h
  | .branch _ _ yes [], _, h => by
    rw [Context.statement] at h
    obtain ⟨y, hy, h⟩ := bind_eq_ok.1 h
    obtain ⟨code, hcode, h⟩ := bind_eq_ok.1 h
    cases pure_eq_ok.1 h
    exact .ifThen (codes_of_expr hy) (codes_of_statements hcode)
  | .branch _ _ yes (s :: no), _, h => by
    rw [Context.statement] at h
    obtain ⟨y, hy, h⟩ := bind_eq_ok.1 h
    obtain ⟨yesCode, hyes, h⟩ := bind_eq_ok.1 h
    -- The else branch is generated only when it holds a statement.
    rw [List.isEmpty_cons, if_neg Bool.false_ne_true] at h
    obtain ⟨noCode, hno, h⟩ := bind_eq_ok.1 h
    cases pure_eq_ok.1 h
    exact .ifElse (List.cons_ne_nil _ _) (codes_of_expr hy) (codes_of_statements hyes)
      (codes_of_statements hno)
  | .throw _ _, _, h => by
    rw [Context.statement] at h
    obtain ⟨y, hy, h⟩ := bind_eq_ok.1 h
    cases pure_eq_ok.1 h
    exact .throw (codes_of_expr hy)
  | .emit _ name _, _, h => by
    rw [Context.statement] at h
    split at h
    · rename_i hevent
      obtain ⟨event, hevent⟩ := Option.isSome_iff_exists.1 hevent
      obtain ⟨ys, hys, h⟩ := bind_eq_ok.1 h
      cases pure_eq_ok.1 h
      exact .emit hevent (codes_of_exprs hys)
    · cases h
  | .evaluate _ _, _, h => by
    rw [Context.statement] at h
    obtain ⟨y, hy, h⟩ := bind_eq_ok.1 h
    cases pure_eq_ok.1 h
    exact .evaluate (codes_of_expr hy)
  | .skip _, _, h => by
    cases h
    exact .skip

/-- **Where code is generated for a body, the rules apply.** -/
theorem codes_of_statements : ∀ {body : List Stmt} {code : List Yul.Stmt},
    x.statements returns body = .ok code → CodesBody x returns body code
  | [], _, h => by
    cases h
    exact .nil
  | _ :: _, _, h => by
    rw [Context.statements] at h
    obtain ⟨code, hcode, h⟩ := bind_eq_ok.1 h
    obtain ⟨rest, hrest, h⟩ := bind_eq_ok.1 h
    cases pure_eq_ok.1 h
    exact .cons (codes_of_statement hcode) (codes_of_statements hrest)
end

/-- The function of a method has its parameters, its result variables and the code of its body. -/
theorem method_eq_ok {m : Routine} {f : Yul.Function} (h : x.method m = .ok f) :
    f.name = methodFunction m.name ∧ f.params = Context.paramNames m.params ∧
      f.results = resultVars m.returns ∧ CodesBody x m.returns m.body f.body := by
  obtain ⟨code, hcode, h⟩ := bind_eq_ok.1 h
  obtain ⟨⟨⟩, -, h⟩ := bind_eq_ok.1 h
  cases pure_eq_ok.1 h
  exact ⟨rfl, rfl, rfl, codes_of_statements hcode⟩

theorem constructorBody_eq_ok {c : Construction} {f : Yul.Function}
    (h : x.constructorBody c = .ok f) :
    f.name = "constructor_body" ∧ CodesBody x .void c.body f.body := by
  obtain ⟨code, hcode, h⟩ := bind_eq_ok.1 h
  cases pure_eq_ok.1 h
  exact ⟨rfl, codes_of_statements hcode⟩

/-! ## Expressions with code -/

/-- An expression has some code. -/
def HasCode (x : Context) (e : Expr) : Prop :=
  ∃ y, Codes x e y

theorem CodesEach.hasCode : ∀ {es : List Expr} {ys : List Yul.Expr}, CodesEach x es ys →
    ∀ e ∈ es, HasCode x e
  | _, _, .nil => fun _ h => absurd h List.not_mem_nil
  | _, _, .cons h hrest => List.forall_mem_cons.2 ⟨⟨_, h⟩, hrest.hasCode⟩

/-- The parts of an expression with code have code. -/
theorem HasCode.parts {e part : Expr} (h : HasCode x e) (hpart : part ∈ e.parts) :
    HasCode x part := by
  obtain ⟨y, h⟩ := h
  cases h with
  | literal | var | storage | length | this | environment => cases hpart
  | entry _ _ h | hash h | deploy _ _ h => exact h.hasCode part hpart
  | binary hleft hright =>
    simp only [Expr.parts, List.mem_cons, List.not_mem_nil, or_false] at hpart
    rcases hpart with rfl | rfl
    · exact ⟨_, hleft⟩
    · exact ⟨_, hright⟩
  | not h | external h =>
    obtain rfl := List.mem_singleton.1 hpart
    exact ⟨_, h⟩
  | call hreceiver _ _ h =>
    rcases List.mem_cons.1 hpart with rfl | hpart
    · cases hreceiver with
      | own => exact ⟨_, .this⟩
      | external _ _ _ h => exact ⟨_, .external h⟩
      | stored _ _ _ _ _ h => exact ⟨_, h⟩
    · exact h.hasCode part hpart

/-- What is within an expression that has code has code too. -/
theorem HasCode.subexpressions {e part : Expr} (h : HasCode x e)
    (hpart : part ∈ e.subexpressions) : HasCode x part := by
  induction e using Expr.induction with
  | h e ih =>
    rw [Expr.subexpressions_eq] at hpart
    rcases List.mem_cons.1 hpart with rfl | hpart
    · exact h
    · obtain ⟨child, hchild, hpart⟩ := List.mem_flatMap.1 hpart
      exact ih child hchild (h.parts hchild) hpart

theorem CodesStmt.values {s : Stmt} {code : List Yul.Stmt} (h : CodesStmt x returns s code) :
    ∀ e ∈ s.values, HasCode x e := by
  cases h with
  | blank | exit | skip => exact fun _ h => absurd h List.not_mem_nil
  | setProperty _ _ h | declare h | setVariable h | ifThen h | ifElse _ h | throw h =>
    exact List.forall_mem_singleton.2 ⟨_, h⟩
  | setEntry _ _ hindices hvalue =>
    exact List.forall_mem_append.2 ⟨hindices.hasCode, List.forall_mem_singleton.2 ⟨_, hvalue⟩⟩
  | @exitWord _ value _ _ _ h =>
    cases value with
    | record => cases h
    | _ => exact List.forall_mem_singleton.2 ⟨_, h⟩
  | exitRecord _ h | emit _ h => exact h.hasCode
  | evaluate h => exact fun _ hpart => HasCode.parts ⟨_, h⟩ hpart

mutual
theorem CodesStmt.substatements : ∀ {s : Stmt} {code : List Yul.Stmt}, CodesStmt x returns s code →
    ∀ t ∈ s.substatements, ∃ code, CodesStmt x returns t code
  | .branch pos condition yes no, _, h => by
    have hboth : (∃ code, CodesBody x returns yes code) ∧ ∃ code, CodesBody x returns no code := by
      cases h with
      | ifThen _ hyes => exact ⟨⟨_, hyes⟩, _, .nil⟩
      | ifElse _ _ hyes hno => exact ⟨⟨_, hyes⟩, _, hno⟩
    obtain ⟨⟨_, hyes⟩, _, hno⟩ := hboth
    rw [Stmt.substatements_eq, List.forall_mem_cons, Stmt.inner, Stmt.substatementsAll_append]
    exact ⟨⟨_, h⟩, List.forall_mem_append.2 ⟨hyes.substatements, hno.substatements⟩⟩
  | .setProperty _ _ _, _, h | .declare _ _ _ _, _, h | .setVariable _ _ _, _, h
  | .setEntry _ _ _ _, _, h | .exit _ _, _, h | .throw _ _, _, h | .emit _ _ _, _, h
  | .evaluate _ _, _, h | .skip _, _, h => List.forall_mem_singleton.2 ⟨_, h⟩

/-- **The statements of a body with code have code**, those in branches too. -/
theorem CodesBody.substatements : ∀ {body : List Stmt} {code : List Yul.Stmt},
    CodesBody x returns body code →
    ∀ t ∈ Stmt.substatementsAll body, ∃ code, CodesStmt x returns t code
  | [], _, _ => fun _ h => absurd h List.not_mem_nil
  | _ :: _, _, .cons h hrest => by
    rw [Stmt.substatementsAll]
    exact List.forall_mem_append.2 ⟨h.substatements, hrest.substatements⟩
end

end Emit

end Covenant
