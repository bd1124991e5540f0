import Covenant.Emit.Statements
import Covenant.Proofs.Computations

/-!
# The code of expressions

The rules by which an expression has code. Where code is generated for an expression, the rules
apply (`codes_of_expr`): each property is used as its location allows, and each call goes to a
method that exists, takes as many arguments and returns no record.
-/

namespace Covenant

namespace Storage.Location

/-- Whether a property is one word. -/
def isWord : Location → Bool
  | .mapping _ _ | .array _ => false
  | _ => true

/-- The number of indices that a property is used with, if it has entries. -/
def indices? : Location → Option Nat
  | .mapping arity _ => some arity
  | .array _ => some 1
  | _ => none

end Storage.Location

namespace Emit

/-- **The method that a call goes to**: one of the executing contract, or of the contract that the
receiver refers to. -/
def Context.callee? (x : Context) (receiver : Expr) (target : String) : Option Routine :=
  match receiver with
  | .this _ => x.contract.method? target
  | receiver => ((x.receiverContract? receiver).bind x.lookup).bind (·.method? target)

mutual
/-- **An expression has code.** -/
inductive Codes (x : Context) : Expr → Yul.Expr → Prop
  | literal {pos type text word} (h : literalWord pos type text = .ok word) :
      Codes x (.literal pos type text) (.literal word)
  | var {pos name} : Codes x (.var pos name) (.var (localName name))
  | storage {pos name location} (h : x.layout.location? name = some location)
      (hword : location.isWord) : Codes x (.storage pos name) (.call (Storage.getter name) [])
  | entry {pos name location indices ys} (h : x.layout.location? name = some location)
      (hcount : location.indices? = some indices.length) (hindices : CodesEach x indices ys) :
      Codes x (.entry pos name indices) (.call (Storage.getter name) ys)
  | length {pos name slot} (h : x.layout.location? name = some (.array slot)) :
      Codes x (.length pos name) (.call (Storage.lengthGetter name) [])
  | binary {pos op left right yl yr} (hleft : Codes x left yl) (hright : Codes x right yr) :
      Codes x (.binary pos op left right) (operation op yl yr)
  | not {pos value y} (h : Codes x value y) : Codes x (.not pos value) (.isZero y)
  | this {pos} : Codes x (.this pos) (.call "address" [])
  /-- A contract at an address is its address. -/
  | external {pos contract address y} (h : Codes x address y) :
      Codes x (.external pos contract address) y
  | environment {pos space member m} (h : Environment.member? space member = some m) :
      Codes x (.environment pos space member) (.call m.builtin [])
  | hash {pos inputs ys} (h : CodesEach x inputs ys) :
      Codes x (.hash pos inputs) (.call (hashFunction inputs.length) ys)
  | call {pos target receiver args m function before ys}
      (hreceiver : Receives x receiver target m function before)
      (hcount : args.length = m.params.length) (hreturns : isRecord m.returns = false)
      (h : CodesEach x args ys) :
      Codes x (.call pos target receiver args) (.call function (before ++ ys))
  | deploy {pos contract args other ys} (hcontract : x.lookup contract = some other)
      (hcount : args.length = other.constructorParams.length) (h : CodesEach x args ys) :
      Codes x (.deploy pos contract args) (.call (deployFunction contract) ys)

/-- **A receiver takes a call** of a method: the function that makes the call, and the code of what
stands before the arguments. -/
inductive Receives (x : Context) : Expr → String → Routine → String → List Yul.Expr → Prop
  | own {pos target m} (hm : x.contract.method? target = some m) :
      Receives x (.this pos) target m (methodFunction target) []
  | external {pos contract address target other m y} (hcontract : x.lookup contract = some other)
      (hm : other.method? target = some m) (hexposed : m.visibility.isExposed)
      (h : Codes x address y) :
      Receives x (.external pos contract address) target m (callFunction contract m.name) [y]
  /-- A property that refers to a contract is read before the call. -/
  | stored {pos name v contract target other m y} (hv : x.contract.stateVar? name = some v)
      (htype : v.type = .address (some contract)) (hcontract : x.lookup contract = some other)
      (hm : other.method? target = some m) (hexposed : m.visibility.isExposed)
      (h : Codes x (.storage pos name) y) :
      Receives x (.storage pos name) target m (callFunction contract m.name) [y]

/-- Expressions have code one by one. -/
inductive CodesEach (x : Context) : List Expr → List Yul.Expr → Prop
  | nil : CodesEach x [] []
  | cons {e y es ys} (h : Codes x e y) (hrest : CodesEach x es ys) : CodesEach x (e :: es) (y :: ys)
end

variable {x : Context}

theorem CodesEach.length_eq {es : List Expr} {ys : List Yul.Expr} :
    CodesEach x es ys → ys.length = es.length
  | .nil => rfl
  | .cons _ hrest => by rw [List.length_cons, List.length_cons, hrest.length_eq]

theorem CodesEach.append {es more : List Expr} {ys rest : List Yul.Expr} :
    CodesEach x es ys → CodesEach x more rest → CodesEach x (es ++ more) (ys ++ rest)
  | .nil, h => h
  | .cons hfirst hrest, h => .cons hfirst (hrest.append h)

/-- The method that is called is the one that the receiver has. -/
theorem Receives.callee?_eq {receiver : Expr} {target function : String} {m : Routine}
    {before : List Yul.Expr} (h : Receives x receiver target m function before) :
    x.callee? receiver target = some m := by
  cases h with
  | own hm => exact hm
  | external hcontract hm => simp [Context.callee?, Context.receiverContract?, hcontract, hm]
  | stored hv htype hcontract hm =>
    simp [Context.callee?, Context.receiverContract?, hv, htype, hcontract, hm]

/-! ## Properties -/

theorem location_eq_ok {pos : Position} {name : String} {location : Storage.Location} :
    x.location pos name = .ok location ↔ x.layout.location? name = some location := by
  unfold Context.location
  cases x.layout.location? name <;> simp

/-- A property is read as a whole only if it is one word. -/
theorem codes_of_readProperty {pos : Position} {name : String} {y : Yul.Expr}
    (h : x.readProperty pos name = .ok y) : Codes x (.storage pos name) y := by
  obtain ⟨location, hlocation, h⟩ := bind_eq_ok.1 h
  rw [location_eq_ok] at hlocation
  cases location with
  | mapping | array => exact absurd h throw_ne_ok
  | scalar | inlined | staged =>
    cases pure_eq_ok.1 h
    exact .storage hlocation rfl

/-- A property is used with as many indices as it has. -/
theorem indices?_of_checkIndexed {pos : Position} {name : String} {given : Nat}
    (h : x.checkIndexed pos name given = .ok ()) :
    ∃ location, x.layout.location? name = some location ∧ location.indices? = some given := by
  obtain ⟨location, hlocation, h⟩ := bind_eq_ok.1 h
  refine ⟨location, location_eq_ok.1 hlocation, ?_⟩
  cases location with
  | mapping | array =>
    obtain ⟨wanted, hwanted, h⟩ := bind_eq_ok.1 h
    cases pure_eq_ok.1 hwanted
    dsimp only at h
    split at h
    · exact absurd h throw_ne_ok
    · rename_i hgiven
      rw [Decidable.not_not.1 hgiven]
      rfl
  | scalar | inlined | staged =>
    obtain ⟨wanted, hwanted, -⟩ := bind_eq_ok.1 h
    exact absurd hwanted throw_ne_ok

theorem codes_of_readLength {pos : Position} {name : String} {y : Yul.Expr}
    (h : x.readLength pos name = .ok y) : Codes x (.length pos name) y := by
  obtain ⟨location, hlocation, h⟩ := bind_eq_ok.1 h
  rw [location_eq_ok] at hlocation
  cases location with
  | array =>
    cases pure_eq_ok.1 h
    exact .length hlocation
  | mapping | scalar | inlined | staged => exact absurd h throw_ne_ok

/-! ## Calls -/

/-- A call on the executing contract goes to one of its methods. -/
theorem internalCall_eq_ok {e : Expr} {target function : String} {args : Nat}
    (h : x.internalCall e target args = .ok function) :
    ∃ m, x.contract.method? target = some m ∧ args = m.params.length ∧
      isRecord m.returns = false ∧ function = methodFunction target := by
  unfold Context.internalCall at h
  split at h
  · cases h
  · rename_i m hm
    split at h
    · cases h
    split at h
    · obtain ⟨_, -, h⟩ := bind_eq_ok.1 h
      exact absurd h throw_ne_ok
    · cases h
      exact ⟨m, hm, by omega, by simp_all, rfl⟩

/-- A call on another contract goes to a method that it exposes. -/
theorem externalCall_eq_ok {e : Expr} {contract target function : String} {args : Nat}
    (h : x.externalCall e contract target args = .ok function) :
    ∃ other m, x.lookup contract = some other ∧ other.method? target = some m ∧
      m.visibility.isExposed ∧ args = m.params.length ∧ isRecord m.returns = false ∧
      function = callFunction contract m.name := by
  unfold Context.externalCall at h
  split at h
  · cases h
  rename_i other hother
  split at h
  · cases h
  rename_i m hm
  obtain ⟨hm, hexposed⟩ := Option.filter_eq_some_iff.1 hm
  split at h
  · cases h
  split at h
  · obtain ⟨_, -, h⟩ := bind_eq_ok.1 h
    exact absurd h throw_ne_ok
  split at h
  · cases h
  · cases h
    exact ⟨other, m, hother, hm, hexposed, by omega, by simp_all, rfl⟩

theorem checkDeploy_eq_ok {pos : Position} {contract : String} {args : Nat}
    (h : x.checkDeploy pos contract args = .ok ()) :
    ∃ other, x.lookup contract = some other ∧ args = other.constructorParams.length := by
  unfold Context.checkDeploy at h
  split at h
  · cases h
  · rename_i other hother
    dsimp only at h
    split at h
    · cases h
    · exact ⟨other, hother, by omega⟩

theorem storedReceiver_eq_ok {e : Expr} {pos : Position} {name contract : String} {y : Yul.Expr}
    (h : x.storedReceiver e pos name = .ok (contract, y)) :
    ∃ v, x.contract.stateVar? name = some v ∧ v.type = .address (some contract) ∧
      Codes x (.storage pos name) y := by
  unfold Context.storedReceiver at h
  split at h
  · cases h
  · rename_i v hv
    split at h
    · obtain ⟨code, hcode, h⟩ := bind_eq_ok.1 h
      cases pure_eq_ok.1 h
      exact ⟨v, hv, ‹_›, codes_of_readProperty hcode⟩
    · obtain ⟨_, -, h⟩ := bind_eq_ok.1 h
      exact absurd h throw_ne_ok

/-! ## Expressions -/

mutual
/-- **Where code is generated for an expression, the rules apply.** -/
theorem codes_of_expr : ∀ {e : Expr} {y : Yul.Expr}, x.expr e = .ok y → Codes x e y
  | .literal pos type text, _, h => by
    rw [Context.expr] at h
    obtain ⟨word, hword, h⟩ := bind_eq_ok.1 h
    cases pure_eq_ok.1 h
    exact .literal hword
  | .var _ _, _, h => by
    cases h
    exact .var
  | .storage _ _, _, h => codes_of_readProperty h
  | .entry _ _ indices, _, h => by
    rw [Context.expr] at h
    obtain ⟨⟨⟩, hcheck, h⟩ := bind_eq_ok.1 h
    obtain ⟨ys, hys, h⟩ := bind_eq_ok.1 h
    cases pure_eq_ok.1 h
    obtain ⟨location, hlocation, hcount⟩ := indices?_of_checkIndexed hcheck
    exact .entry hlocation hcount (codes_of_exprs hys)
  | .length _ _, _, h => codes_of_readLength h
  | .binary _ _ left right, _, h => by
    rw [Context.expr] at h
    obtain ⟨yl, hl, h⟩ := bind_eq_ok.1 h
    obtain ⟨yr, hr, h⟩ := bind_eq_ok.1 h
    cases pure_eq_ok.1 h
    exact .binary (codes_of_expr hl) (codes_of_expr hr)
  | .not _ value, _, h => by
    rw [Context.expr] at h
    obtain ⟨y, hy, h⟩ := bind_eq_ok.1 h
    cases pure_eq_ok.1 h
    exact .not (codes_of_expr hy)
  | .this _, _, h => by
    cases h
    exact .this
  | .external _ _ address, _, h => by
    rw [Context.expr] at h
    exact .external (codes_of_expr h)
  | .environment _ space member, _, h => by
    rw [Context.expr, Context.readEnvironment] at h
    split at h
    · cases h
      exact .environment ‹_›
    · cases h
  | .hash _ inputs, _, h => by
    rw [Context.expr] at h
    obtain ⟨ys, hys, h⟩ := bind_eq_ok.1 h
    cases pure_eq_ok.1 h
    exact .hash (codes_of_exprs hys)
  | .call _ target (.this _) args, _, h => by
    rw [Context.expr] at h
    obtain ⟨ys, hys, h⟩ := bind_eq_ok.1 h
    obtain ⟨function, hfunction, h⟩ := bind_eq_ok.1 h
    cases pure_eq_ok.1 h
    obtain ⟨m, hm, hcount, hreturns, rfl⟩ := internalCall_eq_ok hfunction
    exact .call (.own hm) hcount hreturns (codes_of_exprs hys)
  | .call _ target (.external _ contract address) args, _, h => by
    rw [Context.expr] at h
    obtain ⟨ys, hys, h⟩ := bind_eq_ok.1 h
    obtain ⟨y, hy, h⟩ := bind_eq_ok.1 h
    obtain ⟨function, hfunction, h⟩ := bind_eq_ok.1 h
    cases pure_eq_ok.1 h
    obtain ⟨other, m, hother, hm, hexposed, hcount, hreturns, rfl⟩ := externalCall_eq_ok hfunction
    exact .call (.external hother hm hexposed (codes_of_expr hy)) hcount hreturns
      (codes_of_exprs hys)
  | .call _ target (.storage pos name) args, _, h => by
    rw [Context.expr] at h
    obtain ⟨ys, hys, h⟩ := bind_eq_ok.1 h
    obtain ⟨⟨contract, y⟩, hy, h⟩ := bind_eq_ok.1 h
    obtain ⟨function, hfunction, h⟩ := bind_eq_ok.1 h
    cases pure_eq_ok.1 h
    obtain ⟨v, hv, htype, hcode⟩ := storedReceiver_eq_ok hy
    obtain ⟨other, m, hother, hm, hexposed, hcount, hreturns, rfl⟩ := externalCall_eq_ok hfunction
    exact .call (.stored hv htype hother hm hexposed hcode) hcount hreturns (codes_of_exprs hys)
  | .deploy _ contract args, _, h => by
    rw [Context.expr] at h
    obtain ⟨⟨⟩, hcheck, h⟩ := bind_eq_ok.1 h
    obtain ⟨ys, hys, h⟩ := bind_eq_ok.1 h
    cases pure_eq_ok.1 h
    obtain ⟨other, hother, hcount⟩ := checkDeploy_eq_ok hcheck
    exact .deploy hother hcount (codes_of_exprs hys)
  -- conditionals and records are no words: they are refused wherever they stand
  | .conditional _ _ _ _, _, h | .record _ _ _, _, h => by
    rw [Context.expr] at h
    obtain ⟨_, -, h⟩ := bind_eq_ok.1 h
    exact absurd h throw_ne_ok
  -- a call on any other receiver is refused, after its arguments have been generated
  | .call _ _ (.literal _ _ _) _, _, h | .call _ _ (.var _ _) _, _, h
  | .call _ _ (.entry _ _ _) _, _, h | .call _ _ (.length _ _) _, _, h
  | .call _ _ (.binary _ _ _ _) _, _, h | .call _ _ (.not _ _) _, _, h
  | .call _ _ (.environment _ _ _) _, _, h | .call _ _ (.hash _ _) _, _, h
  | .call _ _ (.call _ _ _ _) _, _, h | .call _ _ (.deploy _ _ _) _, _, h
  | .call _ _ (.conditional _ _ _ _) _, _, h | .call _ _ (.record _ _ _) _, _, h
  | .call _ _ .missing _, _, h => by
    unfold Context.expr at h
    obtain ⟨_, -, h⟩ := bind_eq_ok.1 h
    obtain ⟨_, -, h⟩ := bind_eq_ok.1 h
    exact absurd h throw_ne_ok
  | .missing, _, h => by cases h

/-- Codes of several expressions are related to them, one by one. -/
theorem codes_of_exprs : ∀ {es : List Expr} {ys : List Yul.Expr}, x.exprs es = .ok ys →
    CodesEach x es ys
  | [], _, h => by
    cases h
    exact .nil
  | _ :: _, _, h => by
    rw [Context.exprs] at h
    obtain ⟨y, hy, h⟩ := bind_eq_ok.1 h
    obtain ⟨ys, hys, h⟩ := bind_eq_ok.1 h
    cases pure_eq_ok.1 h
    exact .cons (codes_of_expr hy) (codes_of_exprs hys)
end

end Emit

end Covenant
