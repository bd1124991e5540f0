import Covenant.Proofs.Execution.Locals
import Covenant.Proofs.Execution.Numeral
import Mathlib.Algebra.Group.Nat.Defs

/-!
# Running the bodies of a contract

What the statements and expressions of a contract mean, conditionals included. A run works on the
storage of the contract, on the log and on local variables; it ends by reaching the end of the body,
by returning or by throwing, or it fails. Beside its result a run leaves a trace: which expressions
were entered, which conditions were tested with which value, which calls, deployments, writes and
logs were made and what failed, each with the place in the source it comes from.

Operands are evaluated from left to right. What lies outside of the contract, such as the effect of
a call, is a parameter, the `World`.
-/

namespace Covenant

namespace Execution

/-- **A value**: one word, or the words of a record. -/
inductive Value where
  | word (w : Word)
  | record (fields : List Word)
deriving DecidableEq, Inhabited

/-- The word of a value. A record is no word, and counts as zero where one is needed. -/
def Value.toWord : Value → Word
  | word w => w
  | record _ => 0

/-- Why a run fails. -/
inductive Panic where
  /-- A result that no word can hold. -/
  | overflow
  | division
  /-- An index that is out of range. -/
  | bounds
  /-- A call or a deployment that reverted. -/
  | reverted
deriving DecidableEq, Repr, Inhabited

/-- **The storage of a contract and the log.** -/
structure Store where
  properties : String → Word
  entries : String → List Word → Word
  lengths : String → Word
  logs : List (String × List Word) := []

/-- Who is called: the method, whether it is one of the executing contract, the class of the
contract it is sent to where that is written, and its address. -/
structure Callee where
  method : String
  internal : Bool
  contract : Option String
  address : Word
deriving DecidableEq

/-- **What a contract runs in.** A call and a deployment may change the storage and the log in any
way, also where they fail. -/
structure World where
  self : Word
  environment : String → String → Word
  hash : List Word → Word
  isArray : String → Bool
  call : Callee → List Word → Store → Except Panic Value × Store
  deploy : String → List Word → Store → Except Panic Value × Store

/-- What is done at a place. -/
inductive Deed where
  /-- The evaluation of an expression begins. -/
  | entered
  /-- A condition was found to have a value. -/
  | tested (value : Word)
  | called (method : String)
  | deployed (contract : String)
  | wrote (property : String)
  | logged (event : String)
  | threw
  | failed (panic : Panic)
deriving DecidableEq

/-- One item of a trace. -/
structure Mark where
  pos : Position
  deed : Deed
deriving DecidableEq

/-- What a run works on. -/
structure State where
  store : Store
  locals : Locals Value := {}

/-- **The outcome of a run**, with the state it leaves and its trace. -/
structure Result (α : Type) where
  outcome : Except Panic α
  state : State
  trace : List Mark

/-- **A run** that gives a value. -/
structure Run (α : Type) where
  run : State → Result α

/-- How a body ends. -/
inductive Ending where
  | next
  | left (value : Option Value)
  | threw (message : Word)
deriving DecidableEq, Inhabited

/-! ## Runs one after the other -/

/-- Goes on with a result, unless the run failed. -/
def Result.andThen {α β : Type} (r : Result α) (f : α → Run β) : Result β :=
  match r.outcome with
  | .ok a =>
    let next := (f a).run r.state
    { outcome := next.outcome, state := next.state, trace := r.trace ++ next.trace }
  | .error panic => { outcome := .error panic, state := r.state, trace := r.trace }

namespace Run

instance : Monad Run where
  pure a := ⟨fun s => { outcome := .ok a, state := s, trace := [] }⟩
  bind x f := ⟨fun s => (x.run s).andThen f⟩

variable {α β : Type}

/-- Leaves a mark. -/
def mark (pos : Position) (deed : Deed) : Run Unit :=
  ⟨fun s => { outcome := .ok (), state := s, trace := [{ pos, deed }] }⟩

/-- The state a run works on. -/
def state : Run State :=
  ⟨fun s => { outcome := .ok s, state := s, trace := [] }⟩

/-- Changes the storage and the log. -/
def changeStore (f : Store → Store) : Run Unit :=
  ⟨fun s => { outcome := .ok (), state := { s with store := f s.store }, trace := [] }⟩

/-- Changes the local variables. -/
def changeLocals (f : Locals Value → Locals Value) : Run Unit :=
  ⟨fun s => { outcome := .ok (), state := { s with locals := f s.locals }, trace := [] }⟩

/-- Fails. -/
def fail (pos : Position) (panic : Panic) : Run α :=
  ⟨fun s =>
    { outcome := .error panic, state := s, trace := [{ pos, deed := .failed panic }] }⟩

/-- The result of a partial operation. -/
def ofExcept (pos : Position) : Except Panic α → Run α
  | .ok a => pure a
  | .error panic => fail pos panic

/-- Runs in a block of its own. -/
def inBlock (x : Run α) : Run α :=
  ⟨fun s =>
    let r := x.run { s with locals := s.locals.enter }
    { outcome := r.outcome
      state := { r.state with locals := r.state.locals.leave }
      trace := r.trace }⟩

/-- Goes on with another run, unless the body was left. -/
def followedBy (x y : Run Ending) : Run Ending := do
  match ← x with
  | .next => y
  | ending => return ending

/-- An action outside of the contract. -/
def outside (pos : Position) (f : Store → Except Panic α × Store) : Run α := do
  let s ← state
  changeStore fun _ => (f s.store).2
  ofExcept pos (f s.store).1

end Run

/-! ## Operations -/

/-- A number as a word, if it fits. -/
def fit (n : Nat) : Except Panic Word :=
  if n < 2 ^ 256 then .ok (BitVec.ofNat 256 n) else .error .overflow

/-- **The result of an operator.** Arithmetic is checked, `&&` and `||` work bit by bit. -/
def operate (op : BinaryOp) (a b : Word) : Except Panic Word :=
  match op with
  | .add => fit (a.toNat + b.toNat)
  | .sub => if b.toNat ≤ a.toNat then .ok (a - b) else .error .overflow
  | .mul => fit (a.toNat * b.toNat)
  | .div => if b = 0 then .error .division else .ok (a / b)
  | .mod => if b = 0 then .error .division else .ok (a % b)
  | .pow => fit (a.toNat ^ b.toNat)
  | .eq => .ok (Word.truth (a = b))
  | .ne => .ok (Word.truth (a ≠ b))
  | .lt => .ok (Word.truth (a < b))
  | .le => .ok (Word.truth (a ≤ b))
  | .gt => .ok (Word.truth (b < a))
  | .ge => .ok (Word.truth (b ≤ a))
  | .and => .ok (a &&& b)
  | .or | .other => .ok (a ||| b)

namespace Store

/-- An entry of a mapping, or an element of an array if there is one. -/
def read (isArray : String → Bool) (s : Store) (property : String) (indices : List Word) :
    Except Panic Word :=
  match isArray property, indices with
  | true, [index] =>
    if index < s.lengths property then .ok (s.entries property indices) else .error .bounds
  | _, _ => .ok (s.entries property indices)

/-- Writes a property. -/
def setProperty (s : Store) (property : String) (value : Word) : Store :=
  { s with properties := fun p => if p = property then value else s.properties p }

/-- Writes an entry. -/
def setEntry (s : Store) (property : String) (indices : List Word) (value : Word) : Store :=
  { s with
    entries := fun p is => if p = property ∧ is = indices then value else s.entries p is }

/-- Makes an array at least as long as needed for an index. -/
def extend (s : Store) (property : String) (index : Word) : Store :=
  { s with
    lengths := fun p =>
      if p = property ∧ ¬ index < s.lengths p then index + 1 else s.lengths p }

/-- **Writes an entry of a mapping or an element of an array**, which grows where needed. -/
def write (isArray : String → Bool) (s : Store) (property : String) (indices : List Word)
    (value : Word) : Except Panic Store :=
  match isArray property, indices with
  | true, [index] =>
    if Storage.maxArrayIndex < index then .error .bounds
    else .ok ((s.extend property index).setEntry property indices value)
  | _, _ => .ok (s.setEntry property indices value)

/-- Logs an event. -/
def log (s : Store) (event : String) (args : List Word) : Store :=
  { s with logs := s.logs ++ [(event, args)] }

end Store

/-- The class of a receiver, where it is written. -/
def classOf? : Expr → Option String
  | .external _ contract _ => some contract
  | _ => none

/-! ## Expressions -/

open Run

mutual
/-- **The value of an expression.** Of a conditional only the selected branch is evaluated. -/
def eval (w : World) : Expr → Run Value
  | .literal pos type text => do
    mark pos .entered
    return .word (Word.ofLiteral type text)
  | .var pos name => do
    mark pos .entered
    return ((← state).locals.get? name).getD (.word 0)
  | .storage pos name => do
    mark pos .entered
    return .word ((← state).store.properties name)
  | .entry pos property indices => do
    mark pos .entered
    let indices ← evalEach w indices
    let value ← ofExcept pos ((← state).store.read w.isArray property indices)
    return .word value
  | .binary pos op left right => do
    mark pos .entered
    let a ← eval w left
    let b ← eval w right
    let value ← ofExcept pos (operate op a.toWord b.toWord)
    return .word value
  | .not pos value => do
    mark pos .entered
    let a ← eval w value
    return .word (Word.truth (a.toWord = 0))
  | .this pos => do
    mark pos .entered
    return .word w.self
  | .external pos _ address => do
    mark pos .entered
    let a ← eval w address
    return .word a.toWord
  | .deploy pos contract args => do
    mark pos .entered
    let args ← evalEach w args
    mark pos (.deployed contract)
    outside pos (w.deploy contract args)
  | .call pos target receiver args => do
    mark pos .entered
    let address ← eval w receiver
    let args ← evalEach w args
    mark pos (.called target)
    outside pos (w.call ⟨target, receiver.isThis, classOf? receiver, address.toWord⟩ args)
  | .conditional pos condition yes no => do
    mark pos .entered
    let a ← eval w condition
    mark pos (.tested a.toWord)
    if a.toWord ≠ 0 then eval w yes else eval w no
  | .environment pos space member => do
    mark pos .entered
    return .word (w.environment space member)
  | .length pos property => do
    mark pos .entered
    return .word ((← state).store.lengths property)
  | .record pos _ fields => do
    mark pos .entered
    let words ← evalEach w fields
    return .record words
  | .hash pos inputs => do
    mark pos .entered
    let words ← evalEach w inputs
    return .word (w.hash words)
  | .missing => do
    mark {} .entered
    return .word 0

/-- The words of several expressions, in order. -/
def evalEach (w : World) : List Expr → Run (List Word)
  | [] => pure []
  | e :: es => do
    let a ← eval w e
    let rest ← evalEach w es
    return a.toWord :: rest
end

/-! ## Statements -/

mutual
/-- **Runs a statement.** -/
def exec (w : World) : Stmt → Run Ending
  | .setProperty pos property value => do
    let a ← eval w value
    mark pos (.wrote property)
    changeStore (·.setProperty property a.toWord)
    return .next
  | .declare _ name _ none => do
    changeLocals (·.declare name (.word 0))
    return .next
  | .declare _ name _ (some value) => do
    let a ← eval w value
    changeLocals (·.declare name a)
    return .next
  | .setVariable _ name value => do
    let a ← eval w value
    changeLocals (·.set name a)
    return .next
  | .setEntry pos property indices value => do
    let indices ← evalEach w indices
    let a ← eval w value
    let store ← ofExcept pos ((← state).store.write w.isArray property indices a.toWord)
    mark pos (.wrote property)
    changeStore fun _ => store
    return .next
  | .exit _ none => pure (.left none)
  | .exit _ (some value) => do
    let a ← eval w value
    return .left (some a)
  | .branch pos condition yes no => do
    let a ← eval w condition
    mark pos (.tested a.toWord)
    inBlock (if a.toWord ≠ 0 then execAll w yes else execAll w no)
  | .throw pos message => do
    let a ← eval w message
    mark pos .threw
    return .threw a.toWord
  | .emit pos event args => do
    let words ← evalEach w args
    mark pos (.logged event)
    changeStore (·.log event words)
    return .next
  | .evaluate _ value => do
    let _ ← eval w value
    return .next
  | .skip _ => pure .next

/-- **Runs a body** until a statement leaves it. -/
def execAll (w : World) : List Stmt → Run Ending
  | [] => pure .next
  | s :: rest => (exec w s).followedBy (execAll w rest)
end

/-! ## Runs in parts -/

section Parts

variable {α β γ : Type}

/-- A run goes on where the first one succeeded, with both traces in a row. -/
theorem andThen_of_ok {r : Result α} {a : α} (h : r.outcome = .ok a) (f : α → Run β) :
    r.andThen f
      = { outcome := ((f a).run r.state).outcome
          state := ((f a).run r.state).state
          trace := r.trace ++ ((f a).run r.state).trace } := by
  simp only [Result.andThen, h]

/-- A run ends where the first one failed. -/
theorem andThen_of_error {r : Result α} {panic : Panic} (h : r.outcome = .error panic)
    (f : α → Run β) :
    r.andThen f = { outcome := .error panic, state := r.state, trace := r.trace } := by
  simp only [Result.andThen, h]

theorem run_bind (x : Run α) (f : α → Run β) (s : State) :
    (x >>= f).run s = (x.run s).andThen f :=
  rfl

theorem outcome_bind {x : Run α} {s : State} {a : α} (h : (x.run s).outcome = .ok a)
    (f : α → Run β) : ((x >>= f).run s).outcome = ((f a).run (x.run s).state).outcome := by
  rw [run_bind, andThen_of_ok h]

theorem state_bind {x : Run α} {s : State} {a : α} (h : (x.run s).outcome = .ok a)
    (f : α → Run β) : ((x >>= f).run s).state = ((f a).run (x.run s).state).state := by
  rw [run_bind, andThen_of_ok h]

/-- Two runs one after the other succeed if both do. -/
theorem outcome_bind_eq_ok {x : Run α} {f : α → Run β} {s : State} {b : β} :
    ((x >>= f).run s).outcome = .ok b
      ↔ ∃ a, (x.run s).outcome = .ok a ∧ ((f a).run (x.run s).state).outcome = .ok b := by
  constructor
  · intro h
    cases hx : (x.run s).outcome with
    | error panic =>
      rw [run_bind, andThen_of_error hx] at h
      cases h
    | ok a =>
      rw [outcome_bind hx] at h
      exact ⟨a, rfl, h⟩
  · rintro ⟨a, ha, hb⟩
    rw [outcome_bind ha, hb]

theorem pure_bind (a : α) (f : α → Run β) : (pure a >>= f) = f a :=
  rfl

/-- It does not matter how three runs are grouped. -/
theorem bind_assoc (x : Run α) (f : α → Run β) (g : β → Run γ) :
    (x >>= f) >>= g = x >>= fun a => f a >>= g := by
  have hrun : ∀ s, ((x >>= f) >>= g).run s = (x >>= fun a => f a >>= g).run s := by
    intro s
    simp only [run_bind]
    cases hx : (x.run s).outcome with
    | error panic => rw [andThen_of_error hx, andThen_of_error hx, andThen_of_error rfl]
    | ok a =>
      rw [andThen_of_ok hx, andThen_of_ok hx]
      cases hf : ((f a).run (x.run s).state).outcome with
      | error panic => rw [run_bind, andThen_of_error hf, andThen_of_error rfl]
      | ok b =>
        rw [run_bind, andThen_of_ok hf, andThen_of_ok rfl]
        simp only [List.append_assoc]
  exact congrArg Run.mk (funext hrun)

theorem followedBy_assoc (x y z : Run Ending) :
    (x.followedBy y).followedBy z = x.followedBy (y.followedBy z) := by
  unfold followedBy
  rw [bind_assoc]
  congr 1
  funext ending
  cases ending with
  | next => rfl
  | left value => rfl
  | threw message => rfl

/-- Going on with nothing changes nothing. -/
theorem followedBy_next (x : Run Ending) : x.followedBy (pure .next) = x := by
  have hrun : ∀ s, (x.followedBy (pure .next)).run s = x.run s := by
    intro s
    rw [followedBy, run_bind]
    cases hx : (x.run s).outcome with
    | error panic => rw [andThen_of_error hx, ← hx]
    | ok ending =>
      have hrest : (x.run s).andThen
          (fun ending : Ending => match ending with | .next => pure .next | ending => pure ending)
          = { outcome := .ok ending, state := (x.run s).state,
              trace := (x.run s).trace ++ [] } := by
        rw [andThen_of_ok hx]
        cases ending <;> rfl
      rw [hrest, List.append_nil, ← hx]
  exact congrArg Run.mk (funext hrun)

/-- A run that reaches its end is followed by the next one. -/
theorem run_followedBy_of_next {x y : Run Ending} {s : State}
    (h : (x.run s).outcome = .ok .next) :
    ((x.followedBy y).run s).outcome = (y.run (x.run s).state).outcome
      ∧ ((x.followedBy y).run s).state = (y.run (x.run s).state).state :=
  ⟨outcome_bind h _, state_bind h _⟩

/-- What is done after a run that reaches its end is marked behind what the run marked. -/
theorem trace_followedBy_of_next {x : Run Ending} {s : State}
    (h : (x.run s).outcome = .ok .next) (y : Run Ending) :
    ((x.followedBy y).run s).trace = (x.run s).trace ++ (y.run (x.run s).state).trace := by
  rw [followedBy, run_bind, andThen_of_ok h]

/-- Where two runs succeed, the first one leaves the body or is followed by the second. -/
theorem followedBy_cases {x y : Run Ending} {s : State} {ending : Ending}
    (h : ((x.followedBy y).run s).outcome = .ok ending) :
    ((x.run s).outcome = .ok .next ∧ (y.run (x.run s).state).outcome = .ok ending)
      ∨ ending ≠ .next ∧ (x.run s).outcome = .ok ending
        ∧ ((x.followedBy y).run s).state = (x.run s).state := by
  obtain ⟨first, hfirst, hrest⟩ := outcome_bind_eq_ok.1 h
  cases first with
  | next => exact Or.inl ⟨hfirst, hrest⟩
  | left value =>
    cases hrest
    exact Or.inr ⟨by simp, hfirst, state_bind hfirst _⟩
  | threw message =>
    cases hrest
    exact Or.inr ⟨by simp, hfirst, state_bind hfirst _⟩

end Parts

/-- **A body runs part by part.** -/
theorem execAll_append (w : World) (first second : List Stmt) :
    execAll w (first ++ second) = (execAll w first).followedBy (execAll w second) := by
  induction first with
  | nil => rfl
  | cons s first ih =>
    rw [List.cons_append, execAll, ih, execAll, followedBy_assoc]

theorem execAll_singleton (w : World) (s : Stmt) : execAll w [s] = exec w s :=
  followedBy_next (exec w s)

/-! ## Where nothing happens -/

/-- A world in which every call and deployment gives zero and changes nothing. -/
def quietWorld (self : Word) : World where
  self := self
  environment _ _ := 0
  hash _ := 0
  isArray _ := false
  call _ _ s := (.ok (.word 0), s)
  deploy _ _ s := (.ok (.word 0), s)

/-- A state with nothing in it. -/
def blankState : State where
  store := { properties := fun _ => 0, entries := fun _ _ => 0, lengths := fun _ => 0 }

end Execution

end Covenant
