import Covenant.Proofs.Machine.Rules

/-!
# Runs that only give words

Code without calls gives words and changes little else: storage, the log and the variables stay as
they are, and of memory only the scratch space and what lies behind the free place is written
(`Still`). Such a run gives the words that are expected, or it reverts where they are not to be had
(`Yields`); how its operands are ordered makes no difference.
-/

namespace Covenant

namespace Machine

variable {α ε : Type} {run : Apply} {p : Nat} {s t u : State}

/-- **Only memory was written**, below the place of the free pointer or from the free place on. What
was accessed is not looked at. -/
structure Still (p : Nat) (s t : State) : Prop where
  storage : t.storage = s.storage
  logs : t.logs = s.logs
  locals : t.locals = s.locals
  memory : ∀ i, 64 ≤ i → i < p → t.memory i = s.memory i

namespace Still

theorem refl (p : Nat) (s : State) : Still p s s :=
  ⟨rfl, rfl, rfl, fun _ _ _ => rfl⟩

/-- Two runs that only write elsewhere are one. -/
theorem trans (h : Still p s t) (h' : Still p t u) : Still p s u where
  storage := h'.storage.trans h.storage
  logs := h'.logs.trans h.logs
  locals := h'.locals.trans h.locals
  memory i h1 h2 := (h'.memory i h1 h2).trans (h.memory i h1 h2)

/-- What is read between the two places stays. -/
theorem read_eq (h : Still p s t) {place count : Nat} (hlow : 64 ≤ place)
    (hhigh : place + count ≤ p) : t.memory.read place count = s.memory.read place count := by
  refine List.map_congr_left fun i hi => ?_
  have hi := List.mem_range.1 hi
  exact h.memory (place + i) (by omega) (by omega)

end Still

/-- The run reverts. -/
def Reverts (x : Action α) (s : State) : Prop :=
  ∃ data t, x s = .error (.reverted data) t

/-- The run reverts with these bytes. -/
def RevertsWith (data : List UInt8) (x : Action α) (s : State) : Prop :=
  ∃ t, x s = .error (.reverted data) t

/-- **A run gives words and leaves the rest alone**, or it reverts where there are none. -/
def Yields (p : Nat) (x : Action (List Word)) (s : State) : Except ε (List Word) → Prop
  | .ok words => ∃ t, x s = .ok words t ∧ Still p s t
  | .error _ => Reverts x s

section Refusals

variable {β : Type} {data : List UInt8}

theorem RevertsWith.reverts {x : Action α} (h : RevertsWith data x s) : Reverts x s :=
  ⟨data, h⟩

/-- What fails first fails the whole. -/
theorem RevertsWith.bind {x : Action α} (h : RevertsWith data x s) (f : α → Action β) :
    RevertsWith data (x >>= f) s := by
  obtain ⟨t, h⟩ := h
  exact ⟨t, by rw [bind_apply, h, andThen_error]⟩

theorem Reverts.bind {x : Action α} (h : Reverts x s) (f : α → Action β) :
    Reverts (x >>= f) s := by
  obtain ⟨data, h⟩ := h
  exact (RevertsWith.bind h f).reverts

/-- What fails behind a success fails the whole, with the same bytes. -/
theorem RevertsWith.bind_of_ok {x : Action α} {f : α → Action β} {a : α} (hx : x s = .ok a t)
    (h : RevertsWith data (f a) t) : RevertsWith data (x >>= f) s := by
  obtain ⟨u, h⟩ := h
  exact ⟨u, by rw [bind_apply, hx, andThen_ok, h]⟩

theorem Reverts.bind_of_ok {x : Action α} {f : α → Action β} {a : α} (hx : x s = .ok a t)
    (h : Reverts (f a) t) : Reverts (x >>= f) s := by
  obtain ⟨data, h⟩ := h
  exact (RevertsWith.bind_of_ok hx h).reverts

/-- A function whose body reverts, reverts with the same bytes. -/
theorem RevertsWith.invoke {f : Yul.Function} {args : List Word} {body : Action Flow}
    (hargs : args.length = f.params.length)
    (h : RevertsWith data body
      { s with locals := { inner := f.params.zip args ++ f.results.map (·, 0) } }) :
    RevertsWith data (invoke f args body) s := by
  obtain ⟨t, h⟩ := h
  exact ⟨t, invoke_of_error hargs h⟩

/-- A function reverts if its body does, with the parameters bound. -/
theorem Reverts.invoke {f : Yul.Function} {args : List Word} {body : Action Flow}
    (hargs : args.length = f.params.length)
    (h : Reverts body { s with locals := { inner := f.params.zip args ++ f.results.map (·, 0) } }) :
    Reverts (invoke f args body) s := by
  obtain ⟨data, h⟩ := h
  exact (RevertsWith.invoke hargs h).reverts

end Refusals

/-! ## Statements -/

section Statements

variable {rounds : Nat} {c : Yul.Stmt} {rest : List Yul.Stmt} {flow : Flow} {data : List UInt8}

theorem execAll_of_next (h : exec run rounds c s = .ok .next t) :
    execAll run rounds (c :: rest) s = execAll run rounds rest t := by
  rw [execAll, bind_apply, h, andThen_ok]

/-- Statements behind an exit are not run. -/
theorem execAll_of_left (h : exec run rounds c s = .ok .left t) :
    execAll run rounds (c :: rest) s = .ok .left t := by
  rw [execAll, bind_apply, h, andThen_ok]
  rfl

theorem RevertsWith.execAll (h : RevertsWith data (exec run rounds c) s) :
    RevertsWith data (execAll run rounds (c :: rest)) s := by
  rw [Machine.execAll]
  exact h.bind _

theorem Reverts.execAll (h : Reverts (exec run rounds c) s) :
    Reverts (execAll run rounds (c :: rest)) s := by
  rw [Machine.execAll]
  exact h.bind _

/-- A later statement that reverts reverts the row. -/
theorem RevertsWith.execAll_of_next (hc : exec run rounds c s = .ok .next t)
    (h : RevertsWith data (Machine.execAll run rounds rest) t) :
    RevertsWith data (Machine.execAll run rounds (c :: rest)) s := by
  obtain ⟨u, h⟩ := h
  exact ⟨u, (Machine.execAll_of_next hc).trans h⟩

theorem Reverts.execAll_of_next (hc : exec run rounds c s = .ok .next t)
    (h : Reverts (Machine.execAll run rounds rest) t) :
    Reverts (Machine.execAll run rounds (c :: rest)) s := by
  obtain ⟨data, h⟩ := h
  exact (RevertsWith.execAll_of_next hc h).reverts

/-- A block is run on variables of its own. -/
theorem inBlock_of_ok {x : Action α} {a : α}
    (h : x { s with locals := s.locals.enter } = .ok a t) :
    inBlock x s = .ok a { t with locals := t.locals.leave } := by
  simp only [inBlock, bind_apply, change_apply, andThen_ok, h, pure_apply]

theorem RevertsWith.inBlock {x : Action α}
    (h : RevertsWith data x { s with locals := s.locals.enter }) :
    RevertsWith data (inBlock x) s := by
  obtain ⟨t, h⟩ := h
  refine ⟨t, ?_⟩
  simp only [Machine.inBlock, bind_apply, change_apply, andThen_ok, h, andThen_error]

theorem Reverts.inBlock {x : Action α} (h : Reverts x { s with locals := s.locals.enter }) :
    Reverts (inBlock x) s := by
  obtain ⟨data, h⟩ := h
  exact (RevertsWith.inBlock h).reverts

/-- A body that does not reach its end does not reach what stands behind it. -/
theorem execAll_append_of_ne {first second : List Yul.Stmt}
    (h : ∀ t, execAll run rounds first s ≠ .ok .next t) :
    execAll run rounds (first ++ second) s = execAll run rounds first s := by
  induction first generalizing s with
  | nil => exact absurd rfl (h s)
  | cons c first ih =>
    rw [List.cons_append]
    simp only [execAll, bind_apply] at h ⊢
    cases hc : exec run rounds c s with
    | error why t => rfl
    | ok flow t =>
      cases flow with
      | next =>
        rw [andThen_ok, andThen_ok]
        rw [hc] at h
        exact ih h
      | left => rfl
      | broke => rfl

end Statements

/-! ## Statements with values -/

section Values

variable {n : Nat} {name : String} {y : Yul.Expr} {ys : List Yul.Expr} {a : Word}
  {words : List Word}

/-- A function that gives no words is applied for its effect. -/
theorem exec_run_of_ok (hargs : evalArgs run ys s = .ok words t)
    (hrun : run (quotedNames ys) name words t = .ok [] u) :
    exec run n (.run name ys) s = .ok .next u := by
  simp [hargs, hrun]

theorem reverts_run_of_args (h : Reverts (evalArgs run ys) s) :
    Reverts (exec run n (.run name ys)) s := by
  rw [Yul.Stmt.run, exec, eval]
  exact (h.bind _).bind _

/-- A function that is run as a statement reverts it. -/
theorem reverts_run (hargs : evalArgs run ys s = .ok words t)
    (h : Reverts (run (quotedNames ys) name words) t) : Reverts (exec run n (.run name ys)) s := by
  rw [Yul.Stmt.run, exec, eval]
  exact (Reverts.bind_of_ok hargs h).bind _

theorem exec_define_of_ok (h : eval run y s = .ok [a] t) :
    exec run n (.define name y) s
      = .ok .next { t with locals := t.locals.declareAll [(name, a)] } := by
  simp [Yul.Stmt.define, h]

theorem exec_assign_of_ok (h : eval run y s = .ok [a] t) (hname : (t.locals.get? name).isSome) :
    exec run n (.assign name y) s = .ok .next { t with locals := t.locals.set name a } := by
  obtain ⟨old, hold⟩ := Option.isSome_iff_exists.1 hname
  simp [h, hold]

theorem reverts_define (h : Reverts (eval run y) s) : Reverts (exec run n (.define name y)) s := by
  rw [Yul.Stmt.define, exec]
  exact h.bind _

theorem reverts_assign (h : Reverts (eval run y) s) : Reverts (exec run n (.assign name y)) s := by
  rw [exec]
  exact Reverts.bind (h.bind _) _

/-- Where a condition is zero an empty block is run. -/
theorem exec_ifThen_of_ok {body : List Yul.Stmt} (h : eval run y s = .ok [a] t) :
    exec run n (.ifThen y body) s = inBlock (execAll run n (if a = 0 then [] else body)) t := by
  rw [exec, bind_apply, single_apply, h, andThen_ok]
  by_cases ha : a = 0
  · simp only [pure_apply, andThen_ok, if_pos ha]
    rfl
  · simp only [pure_apply, andThen_ok, if_neg ha]

/-- The first branch is taken at zero, each in a block of its own. -/
theorem exec_ifZero_of_ok {zero other : List Yul.Stmt} (h : eval run y s = .ok [a] t) :
    exec run n (.ifZero y zero other) s
      = inBlock (execAll run n (if a = 0 then zero else other)) t := by
  rw [exec, bind_apply, single_apply, h, andThen_ok]
  by_cases ha : a = 0
  · simp only [pure_apply, andThen_ok, if_pos ha]
  · simp only [pure_apply, andThen_ok, if_neg ha]

theorem reverts_ifThen {body : List Yul.Stmt} (h : Reverts (eval run y) s) :
    Reverts (exec run n (.ifThen y body)) s := by
  rw [exec]
  exact Reverts.bind (h.bind _) _

theorem reverts_ifZero {zero other : List Yul.Stmt} (h : Reverts (eval run y) s) :
    Reverts (exec run n (.ifZero y zero other)) s := by
  rw [exec]
  exact Reverts.bind (h.bind _) _

end Values

/-! ## Expressions -/

namespace Yields

/-- Words that are given without a run leave everything alone. -/
theorem pure (p : Nat) (s : State) (words : List Word) :
    Yields p (Pure.pure words) s (.ok words : Except ε (List Word)) :=
  ⟨s, rfl, .refl p s⟩

theorem nil : Yields p (evalArgs run []) s (.ok [] : Except ε (List Word)) :=
  .pure p s []

/-- **One more operand in front.** It is evaluated last, in a state where only memory differs. -/
theorem cons {y : Yul.Expr} {ys : List Yul.Expr} {r : Except ε Word} {rs : Except ε (List Word)}
    (hquoted : ∀ name, y ≠ .quoted name) (hrest : Yields p (evalArgs run ys) s rs)
    (hfirst : ∀ t, Still p s t → Yields p (eval run y) t (r.map ([·]))) :
    Yields p (evalArgs run (y :: ys)) s (r.bind fun a => rs.map (a :: ·)) := by
  rw [evalArgs_cons run ys hquoted]
  cases rs with
  | error why =>
    -- the later operand reverts first, whatever the first one would do
    cases r with
    | error _ => exact hrest.bind _
    | ok _ => exact hrest.bind _
  | ok words =>
    obtain ⟨t, hwords, hstill⟩ := hrest
    have hfirst := hfirst t hstill
    cases r with
    | error why => exact .bind_of_ok hwords (.bind (hfirst.bind _) _)
    | ok a =>
      obtain ⟨u, ha, hstill'⟩ := hfirst
      refine ⟨u, ?_, hstill.trans hstill'⟩
      simp only [bind_apply, single_apply, hwords, ha, andThen_ok, pure_apply]

/-- **An application** of a name to operands. -/
theorem call {ys : List Yul.Expr} {f : String} {rs : Except ε (List Word)}
    {g : List Word → Except ε (List Word)} (hargs : Yields p (evalArgs run ys) s rs)
    (hrun : ∀ words t, rs = .ok words → Still p s t →
      Yields p (run (quotedNames ys) f words) t (g words)) :
    Yields p (eval run (.call f ys)) s (rs.bind g) := by
  rw [eval]
  cases rs with
  | error why => exact hargs.bind _
  | ok words =>
    obtain ⟨t, hwords, hstill⟩ := hargs
    have hresult := hrun words t rfl hstill
    change Yields p _ s (g words)
    cases hg : g words with
    | error why =>
      rw [hg] at hresult
      exact .bind_of_ok hwords hresult
    | ok result =>
      rw [hg] at hresult
      obtain ⟨u, hresult, hstill'⟩ := hresult
      exact ⟨u, by rw [bind_apply, hwords, andThen_ok, hresult], hstill.trans hstill'⟩

end Yields

end Machine

end Covenant
