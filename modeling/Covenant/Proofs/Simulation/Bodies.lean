import Covenant.Proofs.Names.Scoping
import Covenant.Proofs.Simulation.Statements

/-!
# Bodies on the machine

The code of a body follows the reference interpreter (`follows_body`), statement by statement and
into branches. What is asked of a body is asked of each of its statements and expressions, and that
it is well scoped: then whatever it reads or sets is there when it runs (`Runnable`).
-/

namespace Covenant

namespace Simulation

open Emit Machine
open Reference (Ending panics)

/-! ## Bodies that can be run -/

/-- **What is asked of a statement itself**: it assigns no variable that is readonly, and an event
has a function in the code, as many arguments as parameters, and room in memory. -/
def PlainStmt (x : Context) (code : List Yul.Function) (p : Nat) : Stmt → Prop
  | .setProperty _ name _ => ∀ source index, x.layout.location? name ≠ some (.staged source index)
  | .emit _ name args => ∀ e, x.contract.event? name = some e →
      (∃ number, eventDefinition e number ∈ code) ∧ args.length = e.params.length ∧
        p + 96 * args.length < 2 ^ 256
  | _ => True

/-- **A body can be run** where some names are visible. -/
structure Runnable (x : Context) (code : List Yul.Function) (p : Nat) (visible : List String)
    (body : List Stmt) : Prop where
  statements : ∀ stmt ∈ Stmt.substatementsAll body, PlainStmt x code p stmt
  expressions : ∀ e ∈ Stmt.expressionsOf body, Plain code p e
  placed : Stmt.Scoped (fun _ => False) visible body

variable {x : Context} {host : Host} {w : Reference.World} {code : List Yul.Function}
  {bodies : List Stmt} {p rounds n : Nat} {before : List (List UInt8 × List Word)}
  {visible : List String} {returns : Ty} {ref : Reference.State} {s : State}

namespace Runnable

variable {stmt : Stmt} {body : List Stmt}

theorem head (h : Runnable x code p visible (stmt :: body)) :
    Runnable x code p visible [stmt] where
  statements inner hinner := h.statements inner (by
    rw [← List.singleton_append, Stmt.substatementsAll_append]
    exact List.mem_append_left _ hinner)
  expressions e he := h.expressions e (by
    rw [← List.singleton_append, Stmt.expressionsOf_append]
    exact List.mem_append_left _ he)
  placed := Stmt.scoped_singleton.2 ⟨h.placed.1, h.placed.2.1⟩

theorem tail (h : Runnable x code p visible (stmt :: body)) :
    Runnable x code p (stmt.declares ++ visible) body where
  statements inner hinner := h.statements inner (by
    rw [← List.singleton_append, Stmt.substatementsAll_append]
    exact List.mem_append_right _ hinner)
  expressions e he := h.expressions e (by
    rw [← List.singleton_append, Stmt.expressionsOf_append]
    exact List.mem_append_right _ he)
  placed := h.placed.2.2

theorem self (h : Runnable x code p visible [stmt]) : PlainStmt x code p stmt :=
  h.statements stmt (by
    rw [Stmt.substatementsAll, Stmt.substatements_eq]
    exact List.mem_cons_self)

theorem branches {pos : Position} {condition : Expr} {yes no : List Stmt}
    (h : Runnable x code p visible [.branch pos condition yes no]) :
    Runnable x code p visible yes ∧ Runnable x code p visible no := by
  obtain ⟨hstatements, hexpressions, -, ⟨hyes, hno⟩, -⟩ := h
  rw [Stmt.substatementsAll, Stmt.substatements_eq, Stmt.inner, Stmt.substatementsAll_append,
    Stmt.substatementsAll, List.append_nil, List.forall_mem_cons, List.forall_mem_append]
    at hstatements
  rw [Stmt.expressionsOf_cons, Stmt.inner, Stmt.expressionsOf_append, List.forall_mem_append,
    List.forall_mem_append, List.forall_mem_append] at hexpressions
  exact ⟨⟨hstatements.2.1, hexpressions.1.2.1, hyes⟩, ⟨hstatements.2.2, hexpressions.1.2.2, hno⟩⟩

/-- The operands of a statement can be evaluated. -/
theorem evaluable (h : Runnable x code p visible [stmt])
    (hknown : ∀ name ∈ visible, (ref.locals.get? name).isSome) :
    ∀ e ∈ stmt.operands, Evaluable code p ref e := by
  intro e he
  refine ⟨fun part hpart => h.expressions part ?_, fun q hq => hknown _ (h.placed.1.reads q ?_)⟩
  · rw [Stmt.expressionsOf_cons]
    exact List.mem_append_left _ (List.mem_append_left _ (List.mem_flatMap.2 ⟨e, he, hpart⟩))
  · exact List.mem_flatMap.2 ⟨e, he, hq⟩

end Runnable

/-! ## Blocks and sequences -/

section Sequences

variable {names : List String} {results : Table Word} {run : Apply}
  {r : Except Reference.Failure (Ending × Reference.State)}

theorem Tracks.enter (h : Tracks x w p before results ref s) :
    Tracks x w p before results { ref with locals := ref.locals.enter }
      { s with locals := s.locals.enter } :=
  h.withLocals (by rw [h.locals, Locals.coded_enter])

/-- Whether code follows depends on its run only. -/
theorem Follows.of_eq {action other : Action Flow} {t : State} (heq : action s = other t)
    (h : Follows x w p before names other t r) : Follows x w p before names action s r := by
  cases r with
  | error why =>
    obtain ⟨data, u, h⟩ := h
    exact ⟨data, u, heq.trans h⟩
  | ok out =>
    obtain ⟨u, h, htracks⟩ := h
    exact ⟨u, heq.trans h, htracks⟩

/-- Code that follows in a block of its own follows. -/
theorem Follows.inBlock {action : Action Flow}
    (h : Follows x w p before names action { s with locals := s.locals.enter } r)
    (houter : ∀ ending t, r = .ok (ending, t) → t.locals.outer ≠ []) :
    Follows x w p before names (inBlock action) s (do
      let out ← r
      return (out.1, out.2.leave)) := by
  cases r with
  | error why => exact Reverts.inBlock h
  | ok out =>
    obtain ⟨ending, ref⟩ := out
    obtain ⟨t, ht, htracks⟩ := h
    refine ⟨_, inBlock_of_ok ht, htracks.withLocals ?_⟩
    rw [htracks.locals, Locals.coded_leave _ (houter ending ref rfl)]

/-- Code behind code that follows is reached where the interpreter goes on. -/
theorem Follows.append {first second : List Yul.Stmt}
    {next : Reference.State → Except Reference.Failure (Ending × Reference.State)}
    (h : Follows x w p before names (execAll run n first) s r)
    (hnext : ∀ ref t, r = .ok (.next, ref) →
      Tracks x w p before (names.map (·, 0)) ref t →
      Follows x w p before names (execAll run n second) t (next ref)) :
    Follows x w p before names (execAll run n (first ++ second)) s (do
      match ← r with
      | (.next, ref) => next ref
      | ended => return ended) := by
  cases r with
  | error why =>
    obtain ⟨data, t, ht⟩ := h
    refine ⟨data, t, ?_⟩
    rw [execAll_append_of_ne (by simp [ht]), ht]
  | ok out =>
    obtain ⟨ending, ref⟩ := out
    obtain ⟨t, ht, htracks⟩ := h
    cases ending with
    | next =>
      exact .of_eq (execAll_append ht second) (hnext ref t rfl htracks)
    | left words =>
      refine ⟨t, ?_, htracks⟩
      rw [execAll_append_of_ne (by simp [ht, flowOf]), ht]

end Sequences

/-! ## Statements and bodies -/

/-- The code of a statement follows wherever the statement can be run. -/
def StmtFollows (x : Context) (w : Reference.World) (host : Host) (code : List Yul.Function)
    (p rounds n : Nat) (before : List (List UInt8 × List Word)) (returns : Ty) (stmt : Stmt) :
    Prop :=
  ∀ visible ys ref s, CodesStmt x returns stmt ys → Runnable x code p visible [stmt] →
    (∀ name ∈ visible, (ref.locals.get? name).isSome) →
    (∀ g ∈ shared, g.name ∈ Yul.Stmt.callsAll ys → g ∈ code) →
    Tracks x w p before ((resultVars returns).map (·, 0)) ref s →
    Follows x w p before (resultVars returns) (execAll (apply host code rounds) n ys) s
      (Reference.exec w stmt ref)

/-- What was visible in front of a statement and what it declares is known behind it. -/
theorem known_after {stmt : Stmt} {ref' : Reference.State}
    (hknown : ∀ name ∈ visible, (ref.locals.get? name).isSome)
    (h : Reference.exec w stmt ref = .ok (.next, ref')) :
    ∀ name ∈ stmt.declares ++ visible, (ref'.locals.get? name).isSome := by
  intro name hname
  rcases List.mem_append.1 hname with hname | hname
  · cases stmt with
    | declare pos declared type value =>
      obtain rfl := List.mem_singleton.1 hname
      have hdeclared (a : Word) : ((ref.locals.declare name a).get? name).isSome := by
        rw [Locals.get?_declare_self]
        rfl
      cases value with
      | none =>
        cases h
        exact hdeclared 0
      | some value =>
        rw [Reference.exec] at h
        obtain ⟨a, -, h⟩ := bind_eq_ok.1 h
        cases pure_eq_ok.1 h
        exact hdeclared a
    | _ => cases hname
  · exact (Reference.exec_grown stmt h).get? (hknown name hname)

theorem follows_body_of {body : List Stmt} {ys : List Yul.Stmt}
    (h : ∀ stmt ∈ body, StmtFollows x w host code p rounds n before returns stmt)
    (hcodes : CodesBody x returns body ys) (hrunnable : Runnable x code p visible body)
    (hknown : ∀ name ∈ visible, (ref.locals.get? name).isSome)
    (hshared : ∀ g ∈ shared, g.name ∈ Yul.Stmt.callsAll ys → g ∈ code)
    (htracks : Tracks x w p before ((resultVars returns).map (·, 0)) ref s) :
    Follows x w p before (resultVars returns) (execAll (apply host code rounds) n ys) s
      (Reference.execAll w body ref) := by
  induction body generalizing visible ys ref s with
  | nil =>
    cases hcodes
    exact ⟨s, rfl, htracks⟩
  | cons stmt body ih =>
    cases hcodes with
    | cons hfirst hrest =>
      rw [List.forall_mem_cons] at h
      simp only [Yul.Stmt.callsAll_append, List.mem_append] at hshared
      rw [Reference.execAll]
      refine .append (h.1 visible _ ref s hfirst hrunnable.head hknown
        (fun g hg hname => hshared g hg (.inl hname)) htracks) fun ref' t href' htracks => ?_
      exact ih h.2 hrest hrunnable.tail (known_after hknown href')
        (fun g hg hname => hshared g hg (.inr hname)) htracks

/-- A branch follows where its two bodies do: the code runs one of them in a block of its own. -/
theorem follows_branch (hlinked : Linked x bodies code) (hserves : Serves x host w)
    (hapart : Apart (resultVars returns))
    (htracks : Tracks x w p before ((resultVars returns).map (·, 0)) ref s)
    {pos : Position} {condition : Expr} {yes no : List Stmt} {y : Yul.Expr}
    {yesCode noCode : List Yul.Stmt} {c : Yul.Stmt} (hcodes : Codes x condition y)
    (hevaluable : Evaluable code p ref condition)
    (hshared : ∀ g ∈ shared, g.name ∈ y.calls → g ∈ code)
    (hreverts : Reverts (eval (apply host code (rounds + 260)) y) s →
      Reverts (exec (apply host code (rounds + 260)) n c) s)
    (hrun : ∀ a t, eval (apply host code (rounds + 260)) y s = .ok [a] t →
      exec (apply host code (rounds + 260)) n c s
        = inBlock
          (execAll (apply host code (rounds + 260)) n (if a = 0 then noCode else yesCode)) t)
    (hbodies : ∀ (a : Word) t,
      Tracks x w p before ((resultVars returns).map (·, 0))
        { ref with locals := ref.locals.enter } t →
      Follows x w p before (resultVars returns)
        (execAll (apply host code (rounds + 260)) n (if a = 0 then noCode else yesCode)) t
        (Reference.execAll w (if a = 0 then no else yes) { ref with locals := ref.locals.enter })) :
    Follows x w p before (resultVars returns) (exec (apply host code (rounds + 260)) n c) s
      (Reference.exec w (.branch pos condition yes no) ref) := by
  rw [Reference.exec_branch]
  refine follows_value rounds hlinked hserves hapart htracks hcodes hevaluable hshared hreverts
    fun a t ht htracks => .of_eq (hrun a t ht) ?_
  refine .inBlock (hbodies a _ htracks.enter) fun ending ref' h => ?_
  exact (Reference.execAll_grown _ h).outer_ne_nil (List.cons_ne_nil _ _)

theorem leavesWord_of_plain {value : Expr} (h : Plain code p value) : x.leavesWord value := by
  cases value with
  | call => exact h.elim
  | _ => rfl

theorem callsAll_singleton (c : Yul.Stmt) : Yul.Stmt.callsAll [c] = c.calls := by
  rw [Yul.Stmt.callsAll, Yul.Stmt.callsAll, List.append_nil]

theorem mem_callsAll_assigns {results : List String} {ys : List Yul.Expr} {name : String}
    (hcount : results.length = ys.length) (h : name ∈ Yul.Expr.callsAll ys) :
    name ∈ Yul.Stmt.callsAll (List.zipWith .assign results ys) := by
  induction ys generalizing results with
  | nil => cases h
  | cons y ys ih =>
    cases results with
    | nil => cases hcount
    | cons result results =>
      rw [Yul.Expr.callsAll, List.mem_append] at h
      rw [List.zipWith_cons_cons, Yul.Stmt.callsAll, Yul.Stmt.calls, List.mem_append]
      exact h.imp_right (ih (Nat.succ.inj hcount))

/-- **The code of a statement follows the interpreter.** -/
theorem follows_statement (hlinked : Linked x bodies code) (hserves : Serves x host w)
    (hapart : Apart (resultVars returns)) (hnodup : (resultVars returns).Nodup) (stmt : Stmt) :
    StmtFollows x w host code p (rounds + 260) n before returns stmt := by
  induction stmt using Stmt.induction with
  | h stmt ih =>
    intro visible ys ref s hcodes hrunnable hknown hshared htracks
    have hevaluable := hrunnable.evaluable hknown
    have hself := hrunnable.self
    -- what is known outside is known in the scope of either side of a branch
    have hinside name (hname : name ∈ visible) : (ref.locals.enter.get? name).isSome := by
      rw [Locals.get?_enter]
      exact hknown name hname
    cases hcodes with
    | @setProperty _ name location _ _ h hassignable hvalue =>
      rw [callsAll_singleton] at hshared
      cases location with
      | scalar slot =>
        exact follows_setProperty hlinked hserves hapart htracks h hvalue
          (hevaluable _ List.mem_cons_self) hshared
      -- a body that can be run assigns no variable that is readonly
      | staged source index => exact absurd h (hself source index)
      | inlined | array | mapping => cases hassignable
    | setEntry h hcount hindices hvalue =>
      rw [callsAll_singleton] at hshared
      exact follows_setEntry hlinked hserves hapart htracks h hcount
        (hindices.append (.cons hvalue .nil)) hevaluable hshared
    | blank =>
      refine .singleton ⟨_, rfl, htracks.withLocals ?_⟩
      rw [htracks.locals, Locals.coded_declare]
      rfl
    | declare h =>
      rw [callsAll_singleton] at hshared
      exact .singleton (follows_declare hlinked hserves hapart htracks h
        (hevaluable _ List.mem_cons_self) hshared)
    | setVariable h =>
      rw [callsAll_singleton] at hshared
      exact .singleton (follows_setVariable hlinked hserves hapart htracks
        (hknown _ (hrunnable.placed.1.sets _ rfl)) h (hevaluable _ List.mem_cons_self) hshared)
    | exit => exact .singleton ⟨s, rfl, htracks⟩
    | @exitWord _ value y result hreturns h =>
      rw [Reference.exec, returned_of_codes h]
      have hexit := @follows_exit x host w code bodies p rounds n before _ ref s hlinked hserves
        hapart htracks hnodup [value] [y] (.cons h .nil) hevaluable
        (by simpa [Yul.Stmt.callsAll, Yul.Stmt.calls, Yul.Expr.callsAll] using hshared)
        (by rw [hreturns]; rfl)
      rw [hreturns] at hexit ⊢
      exact hexit
    | exitRecord hcount h =>
      have hrecord := hevaluable _ List.mem_cons_self
      refine follows_exit hlinked hserves hapart htracks hnodup h
        (fun e he => hrecord.of_mem_parts he)
        (fun g hg hname => hshared g hg ?_) hcount
      rw [Yul.Stmt.callsAll_append]
      exact List.mem_append_left _ (mem_callsAll_assigns (hcount.symm.trans h.length_eq.symm) hname)
    | ifThen h hyes =>
      rw [callsAll_singleton, Yul.Stmt.calls] at hshared
      simp only [List.mem_append] at hshared
      refine .singleton (follows_branch hlinked hserves hapart htracks h
        (hevaluable _ List.mem_cons_self) (fun g hg hname => hshared g hg (.inl hname))
        reverts_ifThen (fun a t ht => exec_ifThen_of_ok ht) fun a t htracks => ?_)
      split
      · exact ⟨t, rfl, htracks⟩
      · exact follows_body_of (fun part hpart => ih part (List.mem_append_left _ hpart)) hyes
          hrunnable.branches.1 hinside (fun g hg hname => hshared g hg (.inr hname)) htracks
    | ifElse hno h hyes hnoCode =>
      rw [callsAll_singleton, Yul.Stmt.calls] at hshared
      simp only [List.mem_append, or_assoc] at hshared
      refine .singleton (follows_branch hlinked hserves hapart htracks h
        (hevaluable _ List.mem_cons_self) (fun g hg hname => hshared g hg (.inl hname))
        reverts_ifZero (fun a t ht => exec_ifZero_of_ok ht) fun a t htracks => ?_)
      split
      · exact follows_body_of (fun part hpart => ih part (List.mem_append_right _ hpart)) hnoCode
          hrunnable.branches.2 hinside (fun g hg hname => hshared g hg (.inr (.inl hname))) htracks
      · exact follows_body_of (fun part hpart => ih part (List.mem_append_left _ hpart)) hyes
          hrunnable.branches.1 hinside (fun g hg hname => hshared g hg (.inr (.inr hname))) htracks
    | throw h =>
      rw [callsAll_singleton] at hshared
      exact follows_throw hlinked hserves hapart htracks h (hevaluable _ List.mem_cons_self) hshared
    | emit hevent h =>
      rw [callsAll_singleton] at hshared
      obtain ⟨⟨number, hcode⟩, hcount, hroom⟩ := hself _ hevent
      exact follows_emit hlinked hserves hapart htracks hevent hcode hcount hroom h hevaluable
        hshared
    | evaluate h =>
      have hvalue := hevaluable _ List.mem_cons_self
      rw [leavesWord_of_plain hvalue.self, if_pos rfl] at hshared ⊢
      rw [callsAll_singleton] at hshared
      exact follows_evaluate hlinked hserves hapart htracks h hvalue hshared
    | skip => exact ⟨s, rfl, htracks⟩

/-- **The code of a body follows the interpreter.** -/
theorem follows_body (hlinked : Linked x bodies code) (hserves : Serves x host w)
    (hapart : Apart (resultVars returns)) (hnodup : (resultVars returns).Nodup)
    {body : List Stmt} {ys : List Yul.Stmt} (hcodes : CodesBody x returns body ys)
    (hrunnable : Runnable x code p visible body)
    (hknown : ∀ name ∈ visible, (ref.locals.get? name).isSome)
    (hshared : ∀ g ∈ shared, g.name ∈ Yul.Stmt.callsAll ys → g ∈ code)
    (htracks : Tracks x w p before ((resultVars returns).map (·, 0)) ref s) :
    Follows x w p before (resultVars returns) (execAll (apply host code (rounds + 260)) n ys) s
      (Reference.execAll w body ref) :=
  follows_body_of (fun stmt _ => follows_statement hlinked hserves hapart hnodup stmt) hcodes
    hrunnable hknown hshared htracks

end Simulation

end Covenant
