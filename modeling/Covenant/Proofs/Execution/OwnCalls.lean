import Covenant.Proofs.Execution.Run
import Covenant.Proofs.Mutability.Calls

/-!
# Runs that execute calls on the contract itself

A call on the contract itself runs the method it names, and so on, down to a number of nested calls;
what a call beyond that number does is left open. A body that writes no property, and whose calls on
the contract itself leave the storage as it is, leaves it as it is too, and only such calls can make
its run differ (`quiet_execAll`).
-/

namespace Covenant

namespace Execution

/-- **What a call does** to the storage and the log, and what it gives. -/
abbrev Answer := Callee → List Word → Store → Except Panic Value × Store

/-- A world in which calls on the contract itself are answered in another way. -/
def World.withOwn (w : World) (own : Answer) : World :=
  { w with call := fun callee args s =>
      if callee.internal then own callee args s else w.call callee args s }

/-- What a call gives of how the body of the method ended. A method that throws reverts. -/
def Ending.given : Ending → Except Panic Value
  | .left (some value) => .ok value
  | .left none | .next => .ok (.word 0)
  | .threw _ => .error .reverted

/-- The state that a method starts in. -/
def begin (m : Routine) (args : List Word) (s : Store) : State where
  store := s
  locals := { inner := (m.params.map Typed.name).zip (args.map .word) }

/-- Runs the body of a method on some arguments. -/
def runBody (w : World) (m : Routine) (args : List Word) (s : Store) : Result Ending :=
  (execAll w m.body).run (begin m args s)

/-- **The answer to calls on a contract itself**: the method of the name is run, in which further
calls are nested down to a depth. Beyond the depth they are answered in some other way. -/
def answer (c : Contract) (w : World) (beyond : Answer) : Nat → Answer
  | 0 => beyond
  | depth + 1 => fun callee args s =>
    match c.method? callee.method with
    | none => (.error .reverted, s)
    | some m =>
      let r := runBody (w.withOwn (answer c w beyond depth)) m args s
      (r.outcome.bind Ending.given, r.state.store)

/-- **Runs a method of a contract.** Calls on the contract itself run its methods, nested down to a
depth; beyond that they do something else. -/
def runMethod (c : Contract) (w : World) (beyond : Answer) (depth : Nat) (m : Routine)
    (args : List Word) (s : Store) : Result Ending :=
  runBody (w.withOwn (answer c w beyond depth)) m args s

/-! ## Storage that stays -/

/-- **The storage is the same**; the log may differ. -/
structure Store.SameStorage (s t : Store) : Prop where
  properties : t.properties = s.properties
  entries : t.entries = s.entries
  lengths : t.lengths = s.lengths

namespace Store.SameStorage

theorem refl (s : Store) : s.SameStorage s :=
  ⟨rfl, rfl, rfl⟩

theorem trans {s t u : Store} (h : s.SameStorage t) (h' : t.SameStorage u) : s.SameStorage u :=
  ⟨h'.properties.trans h.properties, h'.entries.trans h.entries, h'.lengths.trans h.lengths⟩

/-- A logged event leaves the storage alone. -/
theorem log (s : Store) (event : String) (args : List Word) : s.SameStorage (s.log event args) :=
  ⟨rfl, rfl, rfl⟩

end Store.SameStorage

/-- **Other contracts stay outside**: calls of them and deployments do not come back to change the
storage. -/
structure World.StaysOutside (w : World) : Prop where
  call (callee : Callee) (args : List Word) (s : Store) (hother : callee.internal = false) :
    s.SameStorage (w.call callee args s).2
  deploy (contract : String) (args : List Word) (s : Store) :
    s.SameStorage (w.deploy contract args s).2

namespace Run

variable {α β : Type} {x y : Run α} {f g : α → Run β}

/-- **Two runs are the same, and leave the storage as it is.** -/
structure Quiet (x y : Run α) : Prop where
  same : x = y
  keeps (s : State) : s.store.SameStorage (x.run s).state.store

/-- A run that does not touch the storage. -/
theorem Quiet.of_store (h : ∀ s, (x.run s).state.store = s.store) : Quiet x x :=
  ⟨rfl, fun s => by rw [h s]; exact .refl _⟩

theorem quiet_pure (a : α) : Quiet (pure a) (pure a) :=
  .of_store fun _ => rfl

theorem quiet_mark (pos : Position) (deed : Deed) : Quiet (mark pos deed) (mark pos deed) :=
  .of_store fun _ => rfl

theorem quiet_state : Quiet state state :=
  .of_store fun _ => rfl

theorem quiet_changeLocals (f : Locals Value → Locals Value) :
    Quiet (changeLocals f) (changeLocals f) :=
  .of_store fun _ => rfl

theorem quiet_log (event : String) (args : List Word) :
    Quiet (changeStore (·.log event args)) (changeStore (·.log event args)) :=
  ⟨rfl, fun s => .log s.store event args⟩

theorem quiet_ofExcept (pos : Position) (r : Except Panic α) :
    Quiet (ofExcept pos r) (ofExcept pos r) := by
  cases r <;> exact .of_store fun _ => rfl

/-- **Quiet runs may follow each other.** -/
theorem Quiet.bind (hx : Quiet x y) (hf : ∀ a, Quiet (f a) (g a)) :
    Quiet (x >>= f) (y >>= g) := by
  obtain rfl := hx.same
  obtain rfl : f = g := funext fun a => (hf a).same
  refine ⟨rfl, fun s => ?_⟩
  rw [run_bind]
  cases h : (x.run s).outcome with
  | ok a =>
    rw [andThen_of_ok h]
    exact (hx.keeps s).trans ((hf a).keeps _)
  | error panic =>
    rw [andThen_of_error h]
    exact hx.keeps s

/-- A call outside that leaves the storage as it is. -/
theorem quiet_outside (pos : Position) {f : Store → Except Panic α × Store}
    (h : ∀ s : Store, s.SameStorage (f s).2) : Quiet (outside pos f) (outside pos f) := by
  refine ⟨rfl, fun s => ?_⟩
  have hresult : ((outside pos f).run s).state.store = (f s.store).2 := by
    rw [outside, state_bind (a := s) rfl, state_bind (a := ()) rfl]
    cases (f s.store).1 <;> rfl
  rw [hresult]
  exact h s.store

theorem Quiet.inBlock (h : Quiet x y) : Quiet (inBlock x) (inBlock y) := by
  obtain rfl := h.same
  exact ⟨rfl, fun s => h.keeps { s with locals := s.locals.enter }⟩

theorem Quiet.followedBy {x y x' y' : Run Ending} (h : Quiet x y) (h' : Quiet x' y') :
    Quiet (x.followedBy x') (y.followedBy y') := by
  refine h.bind fun ending => ?_
  cases ending with
  | next => exact h'
  | left value => exact quiet_pure _
  | threw message => exact quiet_pure _

end Run

/-! ## Bodies that only look -/

open Run

section Bodies

variable {w : World} {a b : Answer} {known : String → Prop}

/-- **Two answers are the same for the calls of some methods**, and leave the storage as it is. -/
structure Concordant (known : String → Prop) (a b : Answer) : Prop where
  same {callee : Callee} (hown : callee.internal = true) (hknown : known callee.method) :
    a callee = b callee
  keeps {callee : Callee} (hown : callee.internal = true) (hknown : known callee.method)
    (args : List Word) (s : Store) : s.SameStorage (a callee args s).2

/-- All calls of an expression on the contract itself are calls of some methods. -/
def Knows (known : String → Prop) (e : Expr) : Prop :=
  ∀ pos target self args, e.Contains (.call pos target (.this self) args) → known target

/-- The calls in a part are calls of the whole. -/
theorem Knows.part {e part : Expr} (h : Knows known e) (hpart : part ∈ e.parts) :
    Knows known part :=
  fun pos target self args hcall => h pos target self args (.part hpart hcall)

theorem quiet_evalEach {w' : World} {es : List Expr}
    (h : ∀ e ∈ es, Quiet (eval w e) (eval w' e)) : Quiet (evalEach w es) (evalEach w' es) := by
  induction es with
  | nil => exact quiet_pure _
  | cons e es ih =>
    rw [List.forall_mem_cons] at h
    rw [evalEach, evalEach]
    exact h.1.bind fun _ => (ih h.2).bind fun _ => quiet_pure _

/-- A call leaves the storage as it is, and is answered alike. -/
theorem quiet_call (hw : w.StaysOutside) (h : Concordant known a b) (pos : Position)
    {callee : Callee} (hknown : callee.internal = true → known callee.method) (args : List Word) :
    Quiet (outside pos ((w.withOwn a).call callee args))
      (outside pos ((w.withOwn b).call callee args)) := by
  have hsame : (w.withOwn a).call callee args = (w.withOwn b).call callee args := by
    funext s
    simp only [World.withOwn]
    split
    · rename_i hown
      rw [h.same hown (hknown hown)]
    · rfl
  rw [← hsame]
  refine quiet_outside pos fun s => ?_
  simp only [World.withOwn]
  split
  · rename_i hown
    exact h.keeps hown (hknown hown) args s
  · rename_i hother
    exact hw.call callee args s (by simpa using hother)

/-- **Evaluating an expression leaves the storage as it is**, and is the same where the calls on the
contract itself are answered alike. -/
theorem quiet_eval (hw : w.StaysOutside) (h : Concordant known a b) {e : Expr}
    (he : Knows known e) : Quiet (eval (w.withOwn a) e) (eval (w.withOwn b) e) := by
  induction e using Expr.induction with
  | h e ih =>
    have hparts : ∀ part ∈ e.parts, Quiet (eval (w.withOwn a) part) (eval (w.withOwn b) part) :=
      fun part hpart => ih part hpart (he.part hpart)
    cases e with
    | literal | this | environment | missing =>
      rw [eval, eval]
      exact (quiet_mark _ _).bind fun _ => quiet_pure _
    | var | storage | length =>
      rw [eval, eval]
      exact (quiet_mark _ _).bind fun _ => quiet_state.bind fun _ => quiet_pure _
    | entry pos property indices =>
      rw [eval, eval]
      exact (quiet_mark _ _).bind fun _ => (quiet_evalEach hparts).bind fun _ =>
        quiet_state.bind fun _ => (quiet_ofExcept _ _).bind fun _ => quiet_pure _
    | binary pos op left right =>
      rw [eval, eval]
      exact (quiet_mark _ _).bind fun _ => (hparts left (by simp [Expr.parts])).bind fun _ =>
        (hparts right (by simp [Expr.parts])).bind fun _ =>
          (quiet_ofExcept _ _).bind fun _ => quiet_pure _
    | not pos value =>
      rw [eval, eval]
      exact (quiet_mark _ _).bind fun _ => (hparts value (by simp [Expr.parts])).bind fun _ =>
        quiet_pure _
    | external pos contract address =>
      rw [eval, eval]
      exact (quiet_mark _ _).bind fun _ => (hparts address (by simp [Expr.parts])).bind fun _ =>
        quiet_pure _
    | deploy pos contract args =>
      rw [eval, eval]
      exact (quiet_mark _ _).bind fun _ => (quiet_evalEach hparts).bind fun args =>
        (quiet_mark _ _).bind fun _ => quiet_outside pos (hw.deploy contract args)
    | call pos target receiver args =>
      -- only calls on the contract itself are answered by `a` and `b`; where they agree is what is
      -- known
      have hknown : receiver.isThis = true → known target := by
        intro hthis
        obtain ⟨self, rfl⟩ := Expr.isThis_eq_true.1 hthis
        exact he pos target self args (.self _)
      rw [eval, eval]
      exact (quiet_mark _ _).bind fun _ => (hparts receiver (by simp [Expr.parts])).bind fun _ =>
        (quiet_evalEach fun e hmem => hparts e (by simp [Expr.parts, hmem])).bind fun args =>
          (quiet_mark _ _).bind fun _ => quiet_call hw h pos hknown args
    | conditional pos condition yes no =>
      rw [eval, eval]
      refine (quiet_mark _ _).bind fun _ =>
        (hparts condition (by simp [Expr.parts])).bind fun value =>
          (quiet_mark _ _).bind fun _ => ?_
      split
      · exact hparts yes (by simp [Expr.parts])
      · exact hparts no (by simp [Expr.parts])
    | record pos shape fields =>
      rw [eval, eval]
      exact (quiet_mark _ _).bind fun _ => (quiet_evalEach hparts).bind fun _ => quiet_pure _
    | hash pos inputs =>
      rw [eval, eval]
      exact (quiet_mark _ _).bind fun _ => (quiet_evalEach hparts).bind fun _ => quiet_pure _

/-- A statement writes no property, and neither do those in its branches; all its calls on the
contract itself are calls of some methods. -/
structure Looks (known : String → Prop) (stmt : Stmt) : Prop where
  own : ∀ inner, stmt.Contains inner → ¬ (∃ pos property value,
      inner = .setProperty pos property value) ∧
    ¬ ∃ pos property indices value, inner = .setEntry pos property indices value
  knows : ∀ inner, stmt.Contains inner → ∀ e ∈ inner.operands, Knows known e

/-- The statements of a branch look where the whole does. -/
theorem Looks.inner {stmt inner : Stmt} (h : Looks known stmt) (hinner : inner ∈ stmt.inner) :
    Looks known inner where
  own t ht := h.own t (.branch hinner ht)
  knows t ht := h.knows t (.branch hinner ht)

theorem quiet_execEach {w' : World} {body : List Stmt}
    (h : ∀ stmt ∈ body, Quiet (exec w stmt) (exec w' stmt)) :
    Quiet (execAll w body) (execAll w' body) := by
  induction body with
  | nil => exact quiet_pure _
  | cons stmt body ih =>
    rw [List.forall_mem_cons] at h
    rw [execAll, execAll]
    exact h.1.followedBy (ih h.2)

/-- **A statement that only looks leaves the storage as it is.** -/
theorem quiet_exec (hw : w.StaysOutside) (h : Concordant known a b) {stmt : Stmt}
    (hstmt : Looks known stmt) : Quiet (exec (w.withOwn a) stmt) (exec (w.withOwn b) stmt) := by
  induction stmt using Stmt.induction with
  | h stmt ih =>
    have hinner : ∀ part ∈ stmt.inner, Quiet (exec (w.withOwn a) part) (exec (w.withOwn b) part) :=
      fun part hpart => ih part hpart (hstmt.inner hpart)
    have hvalues : ∀ e ∈ stmt.operands, Quiet (eval (w.withOwn a) e) (eval (w.withOwn b) e) :=
      fun e he => quiet_eval hw h (hstmt.knows stmt (.self stmt) e he)
    cases stmt with
    -- what only looks sets no property and no entry
    | setProperty pos property value =>
      exact absurd ⟨pos, property, value, rfl⟩ (hstmt.own _ (.self _)).1
    | setEntry pos property indices value =>
      exact absurd ⟨pos, property, indices, value, rfl⟩ (hstmt.own _ (.self _)).2
    | declare pos name type value =>
      cases value with
      | none =>
        rw [exec, exec]
        exact (quiet_changeLocals _).bind fun _ => quiet_pure _
      | some value =>
        rw [exec, exec]
        exact (hvalues value (by simp [Stmt.operands])).bind fun _ =>
          (quiet_changeLocals _).bind fun _ => quiet_pure _
    | setVariable pos name value =>
      rw [exec, exec]
      exact (hvalues value (by simp [Stmt.operands])).bind fun _ =>
        (quiet_changeLocals _).bind fun _ => quiet_pure _
    | exit pos value =>
      cases value with
      | none =>
        rw [exec, exec]
        exact quiet_pure _
      | some value =>
        rw [exec, exec]
        exact (hvalues value (by simp [Stmt.operands])).bind fun _ => quiet_pure _
    | branch pos condition yes no =>
      have hyes := quiet_execEach fun part hpart =>
        hinner part (List.mem_append_left no (show part ∈ yes from hpart))
      have hno := quiet_execEach fun part hpart =>
        hinner part (List.mem_append_right yes (show part ∈ no from hpart))
      rw [exec, exec]
      refine (hvalues condition (by simp [Stmt.operands])).bind fun value =>
        (quiet_mark _ _).bind fun _ => Quiet.inBlock ?_
      split
      · exact hyes
      · exact hno
    | throw pos message =>
      rw [exec, exec]
      exact (hvalues message (by simp [Stmt.operands])).bind fun _ =>
        (quiet_mark _ _).bind fun _ => quiet_pure _
    | emit pos event args =>
      rw [exec, exec]
      exact (quiet_evalEach hvalues).bind fun words => (quiet_mark _ _).bind fun _ =>
        (quiet_log event words).bind fun _ => quiet_pure _
    | evaluate pos value =>
      rw [exec, exec]
      exact (hvalues value (by simp [Stmt.operands])).bind fun _ => quiet_pure _
    | skip pos =>
      rw [exec, exec]
      exact quiet_pure _

/-- **A body that writes nothing and calls only some methods leaves the storage as it is**, and is
the same where the calls of those methods are answered alike. -/
theorem quiet_execAll (hw : w.StaysOutside) (h : Concordant known a b) {body : List Stmt}
    (hwrites : ¬ Stmt.Writes body) (hcalls : ∀ target, Stmt.CallsOwn body target → known target) :
    Quiet (execAll (w.withOwn a) body) (execAll (w.withOwn b) body) := by
  refine quiet_execEach fun stmt hstmt => quiet_exec hw h ⟨fun inner hinner => ⟨?_, ?_⟩, ?_⟩
  · rintro ⟨pos, property, value, rfl⟩
    exact hwrites (.inl ⟨pos, property, value, stmt, hstmt, hinner⟩)
  · rintro ⟨pos, property, indices, value, rfl⟩
    exact hwrites (.inr ⟨pos, property, indices, value, stmt, hstmt, hinner⟩)
  · intro inner hinner e he pos target self args hcall
    exact hcalls target ⟨pos, self, args, inner, ⟨stmt, hstmt, hinner⟩, e, he, hcall⟩

end Bodies

/-! ## Calls that end -/

/-- **Some methods only look, and their calls end**: they write no property, and what they call is
one of them that ranks lower. -/
structure Descends (c : Contract) (looks : String → Prop) (rank : String → Nat) : Prop where
  writes : ∀ m ∈ c.methods, looks m.name → ¬ Stmt.Writes m.body
  calls : ∀ m ∈ c.methods, looks m.name → ∀ target, Stmt.CallsOwn m.body target →
    looks target ∧ rank target < rank m.name

section Descends

variable {c : Contract} {w : World} {looks : String → Prop} {rank : String → Nat} {m : Routine}
  {a b : Answer} {k : Nat}

/-- The body of a method runs the same where what ranks lower is answered alike. -/
theorem quiet_body (hw : w.StaysOutside) (h : Descends c looks rank) (hm : m ∈ c.methods)
    (hlooks : looks m.name) (hrank : rank m.name ≤ k)
    (hab : Concordant (fun target => looks target ∧ rank target < k) a b) :
    Quiet (execAll (w.withOwn a) m.body) (execAll (w.withOwn b) m.body) := by
  refine quiet_execAll hw hab (h.writes m hm hlooks) fun target hcall => ?_
  obtain ⟨hknown, hlower⟩ := h.calls m hm hlooks target hcall
  exact ⟨hknown, by omega⟩

/-- **Down to the rank of a method, what lies beyond the depth does not matter.** By induction on
the rank; a call of a method of one rank runs calls of lower ranks only. -/
theorem alike_answer (hw : w.StaysOutside) (h : Descends c looks rank) (beyond beyond' : Answer)
    {depth depth' : Nat} (hdepth : k ≤ depth) (hdepth' : k ≤ depth') :
    Concordant (fun target => looks target ∧ rank target < k) (answer c w beyond depth)
      (answer c w beyond' depth') := by
  induction k generalizing depth depth' with
  | zero =>
    exact ⟨fun _ hknown => absurd hknown.2 (Nat.not_lt_zero _),
      fun _ hknown => absurd hknown.2 (Nat.not_lt_zero _)⟩
  | succ k ih =>
    obtain ⟨depth, rfl⟩ := Nat.exists_eq_add_of_lt hdepth
    obtain ⟨depth', rfl⟩ := Nat.exists_eq_add_of_lt hdepth'
    have hlower := @ih (k + depth) (k + depth') (by omega) (by omega)
    have hbody {callee : Callee} {m : Routine} (hfound : c.method? callee.method = some m)
        (hknown : looks callee.method ∧ rank callee.method < k + 1) :
        Quiet (execAll (w.withOwn (answer c w beyond (k + depth))) m.body)
          (execAll (w.withOwn (answer c w beyond' (k + depth'))) m.body) := by
      have hname : m.name = callee.method := by simpa using List.find?_some hfound
      rw [← hname] at hknown
      exact quiet_body hw h (List.mem_of_find?_eq_some hfound) hknown.1 (by omega) hlower
    refine ⟨fun {callee} _ hknown => ?_, fun {callee} _ hknown args s => ?_⟩
    · funext args s
      simp only [answer, runBody]
      split
      · rfl
      · rename_i m hfound
        rw [(hbody hfound hknown).same]
    · simp only [answer, runBody]
      split
      · exact .refl s
      · rename_i m hfound
        exact (hbody hfound hknown).keeps (begin m args s)

/-- **A method that only looks has one result**, whatever the depth is from its rank on and whatever
lies beyond; and it leaves the storage as it is. -/
theorem runMethod_quiet (hw : w.StaysOutside) (h : Descends c looks rank) (hm : m ∈ c.methods)
    (hlooks : looks m.name) (args : List Word) (s : Store) :
    ∃ result, (∀ beyond depth, rank m.name ≤ depth →
        runMethod c w beyond depth m args s = result) ∧
      s.SameStorage result.state.store := by
  have hquiet (beyond beyond' : Answer) {depth depth' : Nat} (hdepth : rank m.name ≤ depth)
      (hdepth' : rank m.name ≤ depth') :=
    quiet_body hw h hm hlooks (Nat.le_refl _) (alike_answer hw h beyond beyond' hdepth hdepth')
  let start : Answer := fun _ _ s => (.error .reverted, s)
  refine ⟨runMethod c w start (rank m.name) m args s, fun beyond depth hdepth => ?_, ?_⟩
  · rw [runMethod, runBody, (hquiet beyond start hdepth (Nat.le_refl _)).same]
    rfl
  · exact (hquiet start start (Nat.le_refl _) (Nat.le_refl _)).keeps (begin m args s)

end Descends

end Execution

end Covenant
