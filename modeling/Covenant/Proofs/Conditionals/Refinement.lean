import Covenant.Proofs.Conditionals.Temporaries

/-!
# A body without conditionals does what the body does

A body that makes no calls and no deployments is compared with the body that is left when its
conditionals are taken out. Where the latter runs without failing, so does the former, and both end
alike: in the same way, with the same storage and log, and with the same values of all variables
that are no temporaries. The converse does not hold, since a branch that is not selected may fail.

For an expression this is `Replaces`: some statements, and an expression to be evaluated behind
them, give no other value than the expression they were made from. The statements only add
declarations of temporaries, so what is made for one operand may stand before another operand.
-/

namespace Covenant

namespace Execution

open Resolve Run

/-- **Some statements and a run behind them replace a run.** The original reads no temporaries from
`base` on, the statements declare those from `lo` up to `hi`, and the run behind them reads none
from there on. -/
structure Replaces {α : Type} (w : World) (base lo hi : Nat) (pre : List Stmt)
    (after before : Run α) : Prop where
  base_le : base ≤ lo
  le : lo ≤ hi
  reads_before : Reads base before
  reads_after : Reads hi after
  sound : ∀ s ending, ((execAll w pre).run s).outcome = .ok ending →
    ending = .next ∧ Grown lo hi s ((execAll w pre).run s).state
      ∧ ∀ t v, Agree hi ((execAll w pre).run s).state t → (after.run t).outcome = .ok v →
        (before.run s).outcome = .ok v

namespace Replaces

variable {α β γ : Type} {w : World} {base lo mid hi : Nat} {pre preMore : List Stmt}

/-- A run that reads no temporaries replaces itself. -/
theorem leaf (hbase : base ≤ lo) {x : Run α} (hx : Reads base x) :
    Replaces w base lo lo [] x x where
  base_le := hbase
  le := Nat.le_refl lo
  reads_before := hx
  reads_after := hx.of_le hbase
  sound s ending h := by
    cases h
    refine ⟨rfl, Grown.refl lo s, fun t v hagree hv => ?_⟩
    have hsame : (x.run s).outcome = (x.run t).outcome := hx.outcome_eq (hagree.of_le hbase)
    rw [hsame, hv]

/-- What is done with the value of an operand, where that only reads. -/
theorem bind {x x' : Run α} {f : α → Run β} (hx : Replaces w base lo hi pre x' x)
    (hf : ∀ a, Reads base (f a)) : Replaces w base lo hi pre (x' >>= f) (x >>= f) where
  base_le := hx.base_le
  le := hx.le
  reads_before := reads_bind hx.reads_before hf
  reads_after := reads_bind hx.reads_after fun a => (hf a).of_le (Nat.le_trans hx.base_le hx.le)
  sound s ending h := by
    obtain ⟨hending, hgrown, hvalue⟩ := hx.sound s ending h
    refine ⟨hending, hgrown, fun t v hagree hv => ?_⟩
    obtain ⟨a, ha, hfa⟩ := hx.reads_after.outcome_bind_eq_ok.1 hv
    have hst : Agree base s t := (hgrown.agree.of_le hx.base_le).trans
      (hagree.of_le (Nat.le_trans hx.base_le hx.le))
    refine hx.reads_before.outcome_bind_eq_ok.2 ⟨a, hvalue t a hagree ha, ?_⟩
    rw [(hf a).outcome_eq hst, hfa]

/-- Statements for one run and behind them statements for another one: both runs may stand behind
all of them. -/
theorem sound_append {start : Nat} {x x' : Run α} {y y' : Run β}
    (hx : Replaces w base lo mid pre x' x) (hy : Replaces w base start hi preMore y' y)
    (hmid : mid ≤ start) {s : State} {ending : Ending}
    (h : ((execAll w (pre ++ preMore)).run s).outcome = .ok ending) :
    ending = .next ∧ Grown lo hi s ((execAll w (pre ++ preMore)).run s).state
      ∧ ∀ t, Agree hi ((execAll w (pre ++ preMore)).run s).state t →
        (∀ a, (x'.run t).outcome = .ok a → (x.run s).outcome = .ok a)
          ∧ ∀ b, (y'.run t).outcome = .ok b → (y.run s).outcome = .ok b := by
  have hlomid := hx.le
  have hfromhi := hy.le
  rw [execAll_append] at h ⊢
  rcases followedBy_cases h with ⟨hfirst, hsecond⟩ | ⟨hleft, hfirst, -⟩
  · obtain ⟨-, hgrown, hvalue⟩ := hx.sound s _ hfirst
    obtain ⟨hending, hgrown', hvalue'⟩ := hy.sound _ _ hsecond
    rw [(run_followedBy_of_next hfirst).2]
    refine ⟨hending, (hgrown.widen (Nat.le_refl _) (by omega)).trans
      (hgrown'.widen (by omega) (Nat.le_refl _)), fun t hagree => ⟨fun a ha => ?_, fun b hb => ?_⟩⟩
    · refine hvalue t a ?_ ha
      exact (hgrown'.agree.of_le hmid).trans (hagree.of_le (by omega))
    · have hs : Agree base s ((execAll w pre).run s).state := hgrown.agree.of_le hx.base_le
      rw [hy.reads_before.outcome_eq hs]
      exact hvalue' t b hagree hb
  · exact absurd (hx.sound s _ hfirst).1 hleft

/-- Statements and a run for one operand, the same for another one, and what is done with both
values. All statements stand before both runs. -/
theorem bind₂ {x x' : Run α} {y y' : Run β} {f : α → β → Run γ}
    (hx : Replaces w base lo mid pre x' x) (hy : Replaces w base mid hi preMore y' y)
    (hf : ∀ a b, Reads base (f a b)) :
    Replaces w base lo hi (pre ++ preMore) (x' >>= fun a => y' >>= f a)
      (x >>= fun a => y >>= f a) where
  base_le := hx.base_le
  le := Nat.le_trans hx.le hy.le
  reads_before := reads_bind hx.reads_before fun a => reads_bind hy.reads_before (hf a)
  reads_after := reads_bind (hx.reads_after.of_le hy.le) fun a =>
    reads_bind hy.reads_after fun b => (hf a b).of_le (Nat.le_trans hy.base_le hy.le)
  sound s ending h := by
    obtain ⟨hending, hgrown, hvalues⟩ := hx.sound_append hy (Nat.le_refl mid) h
    refine ⟨hending, hgrown, fun t v hagree hv => ?_⟩
    obtain ⟨hleft, hright⟩ := hvalues t hagree
    have hst : Agree base s t := (hgrown.agree.of_le hx.base_le).trans
      (hagree.of_le (Nat.le_trans hy.base_le hy.le))
    obtain ⟨a, ha, hrest⟩ := (hx.reads_after.of_le hy.le).outcome_bind_eq_ok.1 hv
    obtain ⟨b, hb, hfab⟩ := hy.reads_after.outcome_bind_eq_ok.1 hrest
    refine hx.reads_before.outcome_bind_eq_ok.2 ⟨a, hleft a ha, ?_⟩
    refine hy.reads_before.outcome_bind_eq_ok.2 ⟨b, hright b hb, ?_⟩
    rw [(hf a b).outcome_eq hst, hfab]

/-- Marks do not matter. -/
theorem mark {x x' : Run α} (pos : Position) (deed : Deed) (hx : Replaces w base lo hi pre x' x) :
    Replaces w base lo hi pre (mark pos deed >>= fun _ => x') (mark pos deed >>= fun _ => x) where
  base_le := hx.base_le
  le := hx.le
  reads_before := reads_bind (reads_mark pos deed) fun _ => hx.reads_before
  reads_after := reads_bind (reads_mark pos deed) fun _ => hx.reads_after
  sound s ending h := by
    obtain ⟨hending, hgrown, hvalue⟩ := hx.sound s ending h
    refine ⟨hending, hgrown, fun t v hagree hv => ?_⟩
    rw [outcome_bind rfl] at hv ⊢
    exact hvalue t v hagree hv

end Replaces

/-! ## A conditional -/

section Conditional

variable {w : World} {base lo mid hi last : Nat} {pos : Position} {type : Ty} {s : State}
  {ending : Ending}

/-- A declaration with a value, behind which the value is known. -/
theorem exec_declare_eq_ok {n : Nat} {name : String} {value : Expr}
    (hvalue : Reads n (eval w value))
    (h : ((exec w (.declare pos name type (some value))).run s).outcome = .ok ending) :
    ∃ a, ((eval w value).run s).outcome = .ok a ∧ ending = .next
      ∧ ((exec w (.declare pos name type (some value))).run s).state
        = { s with locals := s.locals.declare name a } := by
  rw [exec] at h ⊢
  obtain ⟨a, ha, hrest⟩ := hvalue.outcome_bind_eq_ok.1 h
  cases hrest
  exact ⟨a, ha, rfl, hvalue.state_bind ha⟩

/-- **What was taken out of the first branch** runs in a block of its own, behind the declaration of
the temporary. What is left of it is that the temporary has the value of the branch. -/
theorem Replaces.inBlock {pre : List Stmt} {value value' : Expr} {n : Nat} {no : Value}
    (hyes : Replaces w base lo hi pre (eval w value') (eval w value)) (hn : hi ≤ n)
    (h : ((inBlock (execAll w (pre ++ [.setVariable pos (Temps.nameOf n) value']))).run
      { s with locals := s.locals.declare (Temps.nameOf n) no }).outcome = .ok ending) :
    ∃ a, ending = .next ∧ ((eval w value).run s).outcome = .ok a
      ∧ ((inBlock (execAll w (pre ++ [.setVariable pos (Temps.nameOf n) value']))).run
          { s with locals := s.locals.declare (Temps.nameOf n) no }).state
        = { s with locals := s.locals.declare (Temps.nameOf n) a } := by
  rw [execAll_append, execAll_singleton, exec] at h ⊢
  -- the state in which the block begins
  obtain ⟨begun, hbegun⟩ : ∃ begun : State,
      begun = { s with locals := (s.locals.declare (Temps.nameOf n) no).enter } := ⟨_, rfl⟩
  have hs : Agree base s begun := by
    have hdeclared := (Grown.declare n no s).agree
    have hentered := Agree.enter n { s with locals := s.locals.declare (Temps.nameOf n) no }
    rw [hbegun]
    exact (hdeclared.trans hentered).of_le (Nat.le_trans (Nat.le_trans hyes.base_le hyes.le) hn)
  simp only [Run.inBlock, ← hbegun] at h ⊢
  rcases followedBy_cases h with ⟨hfirst, hsecond⟩ | ⟨hleft, hfirst, -⟩
  · obtain ⟨-, hgrown, hvalue⟩ := hyes.sound begun _ hfirst
    rw [(run_followedBy_of_next hfirst).2]
    obtain ⟨a, ha, hrest⟩ := hyes.reads_after.outcome_bind_eq_ok.1 hsecond
    cases hrest
    refine ⟨a, rfl, ?_, ?_⟩
    · rw [hyes.reads_before.outcome_eq hs]
      exact hvalue _ a (Agree.refl _ _) ha
    · obtain ⟨added, hadded, hnames⟩ := hgrown
      have hother : ∀ entry ∈ added, entry.1 ≠ Temps.nameOf n := by
        intro entry hentry hname
        obtain ⟨k, -, hk, hkname⟩ := hnames entry hentry
        have := nameOf_injective (hkname.symm.trans hname)
        omega
      rw [hyes.reads_after.state_bind ha, hadded, hbegun]
      exact congrArg (State.mk s.store) (Locals.leave_set_declareAll_enter hother)
  · exact absurd (hyes.sound begun _ hfirst).1 hleft

/-- **The test of a conditional**, behind the declaration of its temporary with the value of the
second branch: the temporary gets the value of the conditional. -/
theorem Replaces.test {preY : List Stmt} {c' yes yes' : Expr} {n : Nat} {no : Value}
    (hc : Reads mid (eval w c')) (hmid : mid ≤ n)
    (hyes : Replaces w base mid hi preY (eval w yes') (eval w yes)) (hn : hi ≤ n)
    (h : ((exec w (.branch pos c' (preY ++ [.setVariable pos (Temps.nameOf n) yes']) [])).run
      { s with locals := s.locals.declare (Temps.nameOf n) no }).outcome = .ok ending) :
    ∃ a b, ending = .next ∧ ((eval w c').run s).outcome = .ok a
      ∧ (if a.toWord ≠ 0 then ((eval w yes).run s).outcome else .ok no) = .ok b
      ∧ ((exec w (.branch pos c' (preY ++ [.setVariable pos (Temps.nameOf n) yes']) [])).run
          { s with locals := s.locals.declare (Temps.nameOf n) no }).state
        = { s with locals := s.locals.declare (Temps.nameOf n) b } := by
  rw [exec] at h ⊢
  obtain ⟨a, ha, hrest⟩ := hc.outcome_bind_eq_ok.1 h
  rw [hc.state_bind ha]
  rw [outcome_bind rfl] at hrest
  rw [state_bind rfl]
  have hdeclared : Agree mid s { s with locals := s.locals.declare (Temps.nameOf n) no } :=
    (Grown.declare n no s).agree.of_le hmid
  rw [← hc.outcome_eq hdeclared] at ha
  by_cases hzero : a.toWord = 0
  · simp only [hzero, ne_eq, not_true_eq_false, if_false] at hrest ⊢
    cases hrest
    exact ⟨a, no, rfl, ha, if_neg (fun hne => hne hzero), rfl⟩
  · simp only [ne_eq, hzero, not_false_eq_true, if_true] at hrest ⊢
    obtain ⟨b, hending, hb, hstate⟩ := hyes.inBlock hn hrest
    exact ⟨a, b, hending, ha, (if_pos hzero).trans hb, hstate⟩

/-- **A conditional that was taken out.** The statements behind those of the condition and of the
second branch declare the temporary and set it; the temporary is read instead. -/
theorem Replaces.conditional {preC preY preN : List Stmt} {c c' yes yes' no no' : Expr}
    (hc : Replaces w base lo mid preC (eval w c') (eval w c))
    (hyes : Replaces w base mid hi preY (eval w yes') (eval w yes))
    (hno : Replaces w base hi last preN (eval w no') (eval w no)) :
    Replaces w base lo (last + 1)
      (preC ++ preN ++ [.declare pos (Temps.nameOf last) type (some no'),
        .branch pos c' (preY ++ [.setVariable pos (Temps.nameOf last) yes']) []])
      (eval w (.var pos (Temps.nameOf last))) (eval w (.conditional pos c yes no)) where
  base_le := hc.base_le
  le := by
    have := hc.le
    have := hyes.le
    have := hno.le
    omega
  reads_before := by
    rw [eval]
    refine reads_bind (reads_mark _ _) fun _ => reads_bind hc.reads_before fun a => ?_
    refine reads_bind (reads_mark _ _) fun _ => ?_
    by_cases ha : a.toWord = 0
    · simpa only [ha, ne_eq, not_true_eq_false, if_false] using hno.reads_before
    · simpa only [ne_eq, ha, not_false_eq_true, if_true] using hyes.reads_before
  reads_after := by
    rw [eval]
    refine reads_bind (reads_mark _ _) fun _ => reads_state (fun _ => reads_pure _) ?_
    intro s t hst
    rw [hst.2 _ (not_later_nameOf (Nat.lt_succ_self last))]
  sound s ending h := by
    have hlomid := hc.le
    have hmidhi := hyes.le
    have hhilast := hno.le
    rw [execAll_append] at h ⊢
    rcases followedBy_cases h with ⟨hpre, hset⟩ | ⟨hleft, hpre, -⟩
    · obtain ⟨-, hgrown, hvalues⟩ := hc.sound_append hno hmidhi hpre
      obtain ⟨hcondition, hsecond⟩ := hvalues _ (Agree.refl _ _)
      rw [(run_followedBy_of_next hpre).2]
      have hs := hgrown.agree.of_le hc.base_le
      -- from here on, the state behind what was taken out of the condition and the second branch
      generalize ((execAll w (preC ++ preN)).run s).state = u at *
      rw [execAll, execAll_singleton] at hset ⊢
      rcases followedBy_cases hset with ⟨hdeclare, htest⟩ | ⟨hleft, hdeclare, -⟩
      · obtain ⟨b, hb, -, hdeclared⟩ := exec_declare_eq_ok hno.reads_after hdeclare
        rw [hdeclared] at htest
        rw [(run_followedBy_of_next hdeclare).2, hdeclared]
        obtain ⟨a, v, hending, ha, hv, hstate⟩ :=
          Replaces.test hc.reads_after (by omega) hyes hhilast htest
        rw [hstate]
        refine ⟨hending, (hgrown.widen (Nat.le_refl _) (Nat.le_succ _)).trans
          ((Grown.declare last v u).widen (by omega) (Nat.le_refl _)), fun t r hagree hr => ?_⟩
        -- no later temporary hides this one, so reading it gives the value it was set to
        have hread : t.locals.get? (Temps.nameOf last) = some v := by
          rw [← hagree.2 _ (not_later_nameOf (Nat.lt_succ_self last))]
          exact u.locals.get?_declare_self _ v
        have hrv : r = (t.locals.get? (Temps.nameOf last)).getD (.word 0) := by
          rw [eval, outcome_bind rfl, outcome_bind rfl] at hr
          exact (Except.ok.inj hr).symm
        rw [hread, Option.getD_some] at hrv
        rw [hrv, eval, outcome_bind rfl]
        refine hc.reads_before.outcome_bind_eq_ok.2 ⟨a, hcondition a ha, ?_⟩
        rw [outcome_bind rfl]
        by_cases hzero : a.toWord = 0
        · rw [if_neg (not_not_intro hzero)] at hv ⊢
          rw [← Except.ok.inj hv]
          exact hsecond b hb
        · rw [if_pos hzero] at hv ⊢
          exact (hyes.reads_before.outcome_eq hs).trans hv
      · exact absurd (exec_declare_eq_ok hno.reads_after hdeclare).choose_spec.2.1 hleft
    · exact absurd (hc.sound_append hno hmidhi hpre).1 hleft

end Conditional

/-! ## Expressions -/

/-- An expression that, apart from its parts, neither calls nor deploys, and reads no temporary from
a number on. -/
def Tame (n : Nat) : Expr → Prop
  | .call _ _ _ _ => False
  | .deploy _ _ _ => False
  | .var _ name => ¬ Later n name
  | _ => True

/-- All parts of an expression are tame. -/
def TameExpr (n : Nat) (e : Expr) : Prop :=
  ∀ part ∈ e.subexpressions, Tame n part

/-- All parts of several expressions are tame. -/
def TameEach (n : Nat) (es : List Expr) : Prop :=
  ∀ part ∈ Expr.subexpressionsAll es, Tame n part

/-- An expression without operands, of which nothing was taken out. -/
theorem replaces_leaf {w : World} {base lo : Nat} (hbase : base ≤ lo) {pos : Position}
    {x : Run Value} (hx : Reads base x) :
    Replaces w base lo lo [] (mark pos .entered >>= fun _ => x)
      (mark pos .entered >>= fun _ => x) :=
  (Replaces.leaf hbase hx).mark pos .entered

mutual
/-- **What is taken out of an expression and what is left of it replace the expression.** -/
theorem replaces_hoist (w : World) (scope : Scope) (base : Nat) : ∀ (e : Expr) (t : Temps),
    TameExpr base e → base ≤ t.next →
    Replaces w base t.next (hoist scope e t).2.2.next (hoist scope e t).1
      (eval w (hoist scope e t).2.1) (eval w e)
  | .literal pos type text, t, _, ht => by
    simp only [hoist, eval]
    exact replaces_leaf ht (reads_pure _)
  -- the names of temporaries from `base` on are later ones, and a tame expression mentions none
  | .var pos name, t, he, ht => by
    have hname : ¬ Later base name := he (.var pos name) (by simp [Expr.subexpressions])
    simp only [hoist, eval]
    refine replaces_leaf ht (reads_state (fun _ => reads_pure _) fun s u hsu => ?_)
    rw [hsu.2 name hname]
  | .storage pos name, t, _, ht => by
    simp only [hoist, eval]
    refine replaces_leaf ht (reads_state (fun _ => reads_pure _) fun s u hsu => ?_)
    rw [hsu.1]
  | .this pos, t, _, ht => by
    simp only [hoist, eval]
    exact replaces_leaf ht (reads_pure _)
  | .environment pos space member, t, _, ht => by
    simp only [hoist, eval]
    exact replaces_leaf ht (reads_pure _)
  | .length pos property, t, _, ht => by
    simp only [hoist, eval]
    refine replaces_leaf ht (reads_state (fun _ => reads_pure _) fun s u hsu => ?_)
    rw [hsu.1]
  | .missing, t, _, ht => by
    simp only [hoist, eval]
    exact replaces_leaf ht (reads_pure _)
  | .entry pos property indices, t, he, ht => by
    have hindices := replaces_hoistEach w scope base indices t
      (fun part hpart => he part (by simp [Expr.subexpressions, hpart])) ht
    simp only [hoist, eval]
    refine (hindices.bind fun words => ?_).mark pos .entered
    refine reads_state (fun s => ?_) fun s u hsu => by rw [hsu.1]
    exact reads_bind (reads_ofExcept _ _) fun _ => reads_pure _
  | .binary pos op left right, t, he, ht => by
    have hleft := replaces_hoist w scope base left t
      (fun part hpart => he part (by simp [Expr.subexpressions, hpart])) ht
    have hright := replaces_hoist w scope base right (hoist scope left t).2.2
      (fun part hpart => he part (by simp [Expr.subexpressions, hpart]))
      (Nat.le_trans ht hleft.le)
    simp only [hoist, eval]
    refine (hleft.bind₂ hright fun a b => ?_).mark pos .entered
    exact reads_bind (reads_ofExcept _ _) fun _ => reads_pure _
  | .not pos value, t, he, ht => by
    have hvalue := replaces_hoist w scope base value t
      (fun part hpart => he part (by simp [Expr.subexpressions, hpart])) ht
    simp only [hoist, eval]
    exact (hvalue.bind fun _ => reads_pure _).mark pos .entered
  | .external pos contract address, t, he, ht => by
    have haddress := replaces_hoist w scope base address t
      (fun part hpart => he part (by simp [Expr.subexpressions, hpart])) ht
    simp only [hoist, eval]
    exact (haddress.bind fun _ => reads_pure _).mark pos .entered
  -- a tame expression has no calls, in front of which what is taken out behind them would run
  | .deploy pos contract args, t, he, _ =>
    (he (.deploy pos contract args) (by simp [Expr.subexpressions])).elim
  | .call pos target receiver args, t, he, _ =>
    (he (.call pos target receiver args) (by simp [Expr.subexpressions])).elim
  | .record pos shape fields, t, he, ht => by
    have hfields := replaces_hoistEach w scope base fields t
      (fun part hpart => he part (by simp [Expr.subexpressions, hpart])) ht
    simp only [hoist, eval]
    exact (hfields.bind fun _ => reads_pure _).mark pos .entered
  | .hash pos inputs, t, he, ht => by
    have hinputs := replaces_hoistEach w scope base inputs t
      (fun part hpart => he part (by simp [Expr.subexpressions, hpart])) ht
    simp only [hoist, eval]
    exact (hinputs.bind fun _ => reads_pure _).mark pos .entered
  -- the temporaries of the three parts are numbered one after another
  | .conditional pos condition yes no, t, he, ht => by
    have hcondition := replaces_hoist w scope base condition t
      (fun part hpart => he part (by simp [Expr.subexpressions, hpart])) ht
    have hyes := replaces_hoist w scope base yes (hoist scope condition t).2.2
      (fun part hpart => he part (by simp [Expr.subexpressions, hpart]))
      (Nat.le_trans ht hcondition.le)
    have hno := replaces_hoist w scope base no
      (hoist scope yes (hoist scope condition t).2.2).2.2
      (fun part hpart => he part (by simp [Expr.subexpressions, hpart]))
      (Nat.le_trans hyes.base_le hyes.le)
    simp only [hoist, Temps.take]
    exact hcondition.conditional hyes hno

/-- The same for several expressions. -/
theorem replaces_hoistEach (w : World) (scope : Scope) (base : Nat) :
    ∀ (es : List Expr) (t : Temps), TameEach base es → base ≤ t.next →
    Replaces w base t.next (hoistEach scope es t).2.2.next (hoistEach scope es t).1
      (evalEach w (hoistEach scope es t).2.1) (evalEach w es)
  | [], t, _, ht => Replaces.leaf ht (reads_pure _)
  | e :: es, t, hes, ht => by
    have hfirst := replaces_hoist w scope base e t
      (fun part hpart => hes part (by simp [Expr.subexpressionsAll, hpart])) ht
    have hrest := replaces_hoistEach w scope base es (hoist scope e t).2.2
      (fun part hpart => hes part (by simp [Expr.subexpressionsAll, hpart]))
      (Nat.le_trans ht hfirst.le)
    simp only [hoistEach, evalEach]
    exact hfirst.bind₂ hrest fun _ _ => reads_pure _
end

/-! ## Statements -/

open Classical in
/-- Whether a name is a temporary from a number on. -/
noncomputable def hidden (n : Nat) (name : String) : Bool :=
  decide (Later n name)

theorem hidden_eq_false {n : Nat} {name : String} (h : ¬ Later n name) : hidden n name = false := by
  simp [hidden, h]

/-- **Two states are alike** if they are the same, block by block, but for temporaries from a number
on. -/
def Alike (n : Nat) (s t : State) : Prop :=
  s.store = t.store ∧ s.locals.visible (hidden n) = t.locals.visible (hidden n)

theorem Alike.agree {n : Nat} {s t : State} (h : Alike n s t) : Agree n s t := by
  refine ⟨h.1, fun name hname => ?_⟩
  rw [← Locals.get?_visible s.locals (hidden_eq_false hname), h.2,
    Locals.get?_visible t.locals (hidden_eq_false hname)]

/-- Growth by temporaries keeps states alike. -/
theorem Grown.alike {n lo hi : Nat} {s t : State} (h : Grown lo hi s t) (hn : n ≤ lo) :
    Alike n s t := by
  obtain ⟨added, rfl, hnames⟩ := h
  refine ⟨rfl, (Locals.visible_declareAll s.locals fun entry hentry => ?_).symm⟩
  obtain ⟨k, hk, -, hname⟩ := hnames entry hentry
  have hlater : Later n entry.1 := ⟨k, Nat.le_trans hn hk, hname⟩
  simp [hidden, hlater]

/-- **A run refines another one** if, in states that are alike, it succeeds only where the other one
does, with the same value, and leaves states that are alike. -/
def Refines {α : Type} (n : Nat) (out src : Run α) : Prop :=
  ∀ s t a, Alike n s t → (out.run s).outcome = .ok a →
    (src.run t).outcome = .ok a ∧ Alike n (out.run s).state (src.run t).state

section Refines

variable {α β : Type} {n : Nat}

theorem refines_pure (a : α) : Refines n (pure a : Run α) (pure a) :=
  fun _ _ _ hst ha => ⟨ha, hst⟩

theorem refines_mark (pos : Position) (deed : Deed) : Refines n (mark pos deed) (mark pos deed) :=
  fun _ _ _ hst ha => ⟨ha, hst⟩

theorem refines_ofExcept (pos : Position) (r : Except Panic α) :
    Refines n (ofExcept pos r) (ofExcept pos r) := by
  cases r with
  | ok a => exact refines_pure a
  | error panic =>
    intro _ _ _ _ ha
    cases ha

theorem refines_changeStore (f : Store → Store) : Refines n (changeStore f) (changeStore f) :=
  fun _ _ _ hst ha => ⟨ha, congrArg f hst.1, hst.2⟩

theorem refines_declare {name : String} (hname : ¬ Later n name) (value : Value) :
    Refines n (changeLocals (·.declare name value)) (changeLocals (·.declare name value)) := by
  intro s t _ hst ha
  refine ⟨ha, hst.1, ?_⟩
  change (s.locals.declare name value).visible _ = (t.locals.declare name value).visible _
  rw [Locals.visible_declare _ _ (hidden_eq_false hname), hst.2,
    Locals.visible_declare _ _ (hidden_eq_false hname)]

theorem refines_set {name : String} (hname : ¬ Later n name) (value : Value) :
    Refines n (changeLocals (·.set name value)) (changeLocals (·.set name value)) := by
  intro s t _ hst ha
  refine ⟨ha, hst.1, ?_⟩
  change (s.locals.set name value).visible _ = (t.locals.set name value).visible _
  rw [Locals.visible_set _ _ (hidden_eq_false hname), hst.2,
    Locals.visible_set _ _ (hidden_eq_false hname)]

theorem refines_bind {x y : Run α} {f g : α → Run β} (hxy : Refines n x y)
    (hfg : ∀ a, Refines n (f a) (g a)) : Refines n (x >>= f) (y >>= g) := by
  intro s t b hst hb
  obtain ⟨a, ha, hfa⟩ := outcome_bind_eq_ok.1 hb
  obtain ⟨hya, hmid⟩ := hxy s t a hst ha
  obtain ⟨hgb, hend⟩ := hfg a _ _ b hmid hfa
  rw [outcome_bind hya, state_bind ha, state_bind hya]
  exact ⟨hgb, hend⟩

/-- What depends on the storage only may look at the state. -/
theorem refines_store {f : Store → Run α} (hf : ∀ store, Refines n (f store) (f store)) :
    Refines n (state >>= fun s => f s.store) (state >>= fun s => f s.store) := by
  intro s t a hst ha
  rw [outcome_bind rfl] at ha ⊢
  rw [state_bind rfl, state_bind rfl]
  have hboth := hf s.store s t a hst ha
  rwa [hst.1] at hboth ⊢

theorem refines_followedBy {x y x' y' : Run Ending} (hx : Refines n x x') (hy : Refines n y y') :
    Refines n (x.followedBy y) (x'.followedBy y') := by
  refine refines_bind hx fun ending => ?_
  cases ending with
  | next => exact hy
  | left value => exact refines_pure _
  | threw message => exact refines_pure _

theorem refines_inBlock {x y : Run α} (hxy : Refines n x y) :
    Refines n (inBlock x) (inBlock y) := by
  intro s t a hst ha
  have hentered :
      Alike n { s with locals := s.locals.enter } { t with locals := t.locals.enter } := by
    refine ⟨hst.1, ?_⟩
    rw [Locals.visible_enter, Locals.visible_enter, hst.2]
  obtain ⟨hya, hstore, hlocals⟩ := hxy _ _ a hentered ha
  refine ⟨hya, hstore, ?_⟩
  change Locals.visible _ (Locals.leave _) = Locals.visible _ (Locals.leave _)
  rw [Locals.visible_leave, Locals.visible_leave, hlocals]

/-- **A statement behind what was taken out of its operands.** -/
theorem Replaces.refines {w : World} {lo hi : Nat} {pre : List Stmt} {x x' : Run α} {s s' : Stmt}
    {f f' : α → Run Ending} (hx : Replaces w n lo hi pre x' x) (hs' : exec w s' = x' >>= f')
    (hs : exec w s = x >>= f) (hf : ∀ a, Refines n (f' a) (f a)) :
    Refines n (execAll w (pre ++ [s'])) (exec w s) := by
  intro u v ending huv h
  rw [execAll_append, execAll_singleton] at h ⊢
  rcases followedBy_cases h with ⟨hfirst, hsecond⟩ | ⟨hleft, hfirst, -⟩
  · obtain ⟨-, hgrown, hvalue⟩ := hx.sound u _ hfirst
    rw [(run_followedBy_of_next hfirst).2]
    have hgrownAlike := hgrown.alike hx.base_le
    -- the state behind the statements is alike to the one the original starts from
    have hmid : Alike n ((execAll w pre).run u).state v :=
      ⟨hgrownAlike.1.symm.trans huv.1, hgrownAlike.2.symm.trans huv.2⟩
    rw [hs'] at hsecond ⊢
    obtain ⟨a, ha, hfa⟩ := hx.reads_after.outcome_bind_eq_ok.1 hsecond
    have hxu := hvalue _ a (Agree.refl _ _) ha
    have hxv : (x.run v).outcome = .ok a := by
      rw [← hx.reads_before.outcome_eq huv.agree, hxu]
    obtain ⟨hend, hstates⟩ := hf a _ _ ending hmid hfa
    rw [hs, hx.reads_after.state_bind ha, hx.reads_before.state_bind hxv]
    exact ⟨hx.reads_before.outcome_bind_eq_ok.2 ⟨a, hxv, hend⟩, hstates⟩
  · exact absurd (hx.sound u _ hfirst).1 hleft

end Refines

/-- The variable a statement declares or sets. -/
def target? : Stmt → Option String
  | .declare _ name _ _ => some name
  | .setVariable _ name _ => some name
  | _ => none

/-- A statement that, apart from the statements in its branches, neither calls nor deploys, and
neither reads nor changes a temporary from a number on. -/
def TameStmt (n : Nat) (s : Stmt) : Prop :=
  (∀ e ∈ s.operands, TameExpr n e) ∧ ∀ name, target? s = some name → ¬ Later n name

/-- All statements of a body are tame. -/
def TameBody (n : Nat) (body : List Stmt) : Prop :=
  ∀ s ∈ Stmt.substatementsAll body, TameStmt n s

theorem mem_substatements_self (s : Stmt) : s ∈ s.substatements := by
  cases s <;> simp [Stmt.substatements]

theorem mem_subexpressionsAll {part : Expr} {es : List Expr} :
    part ∈ Expr.subexpressionsAll es ↔ ∃ e ∈ es, part ∈ e.subexpressions := by
  induction es with
  | nil => simp [Expr.subexpressionsAll]
  | cons e es ih => simp [Expr.subexpressionsAll, ih]

theorem tameEach_iff {n : Nat} {es : List Expr} : TameEach n es ↔ ∀ e ∈ es, TameExpr n e := by
  constructor
  · intro h e he part hpart
    exact h part (mem_subexpressionsAll.2 ⟨e, he, hpart⟩)
  · intro h part hpart
    obtain ⟨e, he, hin⟩ := mem_subexpressionsAll.1 hpart
    exact h e he part hin

/-- **A branch of which the condition and both bodies are refined.** -/
theorem Replaces.refines_branch {w : World} {n lo hi : Nat} {pre yes yes' no no' : List Stmt}
    {pos : Position} {condition condition' : Expr}
    (hc : Replaces w n lo hi pre (eval w condition') (eval w condition))
    (hyes : Refines n (execAll w yes') (execAll w yes))
    (hno : Refines n (execAll w no') (execAll w no)) :
    Refines n (execAll w (pre ++ [.branch pos condition' yes' no']))
      (exec w (.branch pos condition yes no)) := by
  refine hc.refines rfl rfl fun a => refines_bind (refines_mark _ _) fun _ => ?_
  by_cases ha : a.toWord = 0
  · simpa only [ha, ne_eq, not_true_eq_false, if_false] using refines_inBlock hno
  · simpa only [ne_eq, ha, not_false_eq_true, if_true] using refines_inBlock hyes

/-- What a write of an entry does once its operands are evaluated. -/
def writeEntry (w : World) (pos : Position) (property : String) (operands : List Word × Value)
    (store : Store) : Run Ending := do
  let changed ← ofExcept pos (store.write w.isArray property operands.1 operands.2.toWord)
  mark pos (.wrote property)
  changeStore fun _ => changed
  return .next

theorem exec_setEntry (w : World) (pos : Position) (property : String) (indices : List Expr)
    (value : Expr) :
    exec w (.setEntry pos property indices value)
      = (evalEach w indices >>= fun words => eval w value >>= fun a => pure (words, a))
        >>= fun operands => state >>= fun s => writeEntry w pos property operands s.store := by
  simp only [exec, writeEntry, bind_assoc, pure_bind]

theorem refines_writeEntry (w : World) (n : Nat) (pos : Position) (property : String)
    (operands : List Word × Value) (store : Store) :
    Refines n (writeEntry w pos property operands store)
      (writeEntry w pos property operands store) := by
  refine refines_bind (refines_ofExcept _ _) fun _ => refines_bind (refines_mark _ _) fun _ => ?_
  exact refines_bind (refines_changeStore _) fun _ => refines_pure _

mutual
/-- **A statement without its conditionals refines the statement.** -/
theorem refines_hoistStmt (w : World) (scope : Scope) (n : Nat) : ∀ (s : Stmt) (t : Temps),
    (∀ sub ∈ s.substatements, TameStmt n sub) → n ≤ t.next →
    n ≤ (hoistStmt scope s t).2.next ∧ Refines n (execAll w (hoistStmt scope s t).1) (exec w s)
  | .setProperty pos property value, t, hs, ht => by
    obtain ⟨hoperands, -⟩ := hs _ (mem_substatements_self _)
    have hvalue := replaces_hoist w scope n value t (hoperands value (by simp [Stmt.operands])) ht
    refine ⟨Nat.le_trans ht hvalue.le, hvalue.refines rfl rfl fun a => ?_⟩
    exact refines_bind (refines_mark _ _) fun _ =>
      refines_bind (refines_changeStore _) fun _ => refines_pure _
  | .declare pos name type none, t, hs, ht => by
    obtain ⟨-, htarget⟩ := hs _ (mem_substatements_self _)
    refine ⟨ht, ?_⟩
    change Refines n (execAll w [.declare pos name type none]) _
    rw [execAll_singleton, exec]
    exact refines_bind (refines_declare (htarget name rfl) _) fun _ => refines_pure _
  | .declare pos name type (some value), t, hs, ht => by
    obtain ⟨hoperands, htarget⟩ := hs _ (mem_substatements_self _)
    have hvalue := replaces_hoist w scope n value t (hoperands value (by simp [Stmt.operands])) ht
    refine ⟨Nat.le_trans ht hvalue.le, hvalue.refines rfl rfl fun a => ?_⟩
    exact refines_bind (refines_declare (htarget name rfl) a) fun _ => refines_pure _
  | .setVariable pos name value, t, hs, ht => by
    obtain ⟨hoperands, htarget⟩ := hs _ (mem_substatements_self _)
    have hvalue := replaces_hoist w scope n value t (hoperands value (by simp [Stmt.operands])) ht
    refine ⟨Nat.le_trans ht hvalue.le, hvalue.refines rfl rfl fun a => ?_⟩
    exact refines_bind (refines_set (htarget name rfl) a) fun _ => refines_pure _
  | .setEntry pos property indices value, t, hs, ht => by
    obtain ⟨hoperands, -⟩ := hs _ (mem_substatements_self _)
    have hindices := replaces_hoistEach w scope n indices t
      (tameEach_iff.2 fun e he => hoperands e (by simp [Stmt.operands, he])) ht
    have hvalue := replaces_hoist w scope n value (hoistEach scope indices t).2.2
      (hoperands value (by simp [Stmt.operands])) (Nat.le_trans ht hindices.le)
    -- what is taken out of the value stands behind what is taken out of the indices
    have hboth := hindices.bind₂ hvalue fun words a => reads_pure (words, a)
    refine ⟨Nat.le_trans hvalue.base_le hvalue.le, ?_⟩
    exact hboth.refines (exec_setEntry ..) (exec_setEntry ..) fun _ =>
      refines_store fun _ => refines_writeEntry _ _ _ _ _ _
  | .exit pos none, t, _, ht => by
    refine ⟨ht, ?_⟩
    change Refines n (execAll w [.exit pos none]) _
    rw [execAll_singleton, exec]
    exact refines_pure _
  | .exit pos (some value), t, hs, ht => by
    obtain ⟨hoperands, -⟩ := hs _ (mem_substatements_self _)
    have hvalue := replaces_hoist w scope n value t (hoperands value (by simp [Stmt.operands])) ht
    exact ⟨Nat.le_trans ht hvalue.le, hvalue.refines rfl rfl fun a => refines_pure _⟩
  | .branch pos condition yes no, t, hs, ht => by
    obtain ⟨hoperands, -⟩ := hs _ (mem_substatements_self _)
    have hcondition := replaces_hoist w scope n condition t
      (hoperands condition (by simp [Stmt.operands])) ht
    obtain ⟨hnextYes, hyes⟩ := refines_hoistBody w scope n yes (hoist scope condition t).2.2
      (fun sub hsub => hs sub (by simp [Stmt.substatements, hsub])) (Nat.le_trans ht hcondition.le)
    -- numbers go on from the one side to the other, although only one of them runs
    obtain ⟨hnextNo, hno⟩ := refines_hoistBody w scope n no
      (hoistBody scope yes (hoist scope condition t).2.2).2
      (fun sub hsub => hs sub (by simp [Stmt.substatements, hsub])) hnextYes
    exact ⟨hnextNo, hcondition.refines_branch hyes hno⟩
  | .throw pos message, t, hs, ht => by
    obtain ⟨hoperands, -⟩ := hs _ (mem_substatements_self _)
    have hvalue := replaces_hoist w scope n message t
      (hoperands message (by simp [Stmt.operands])) ht
    refine ⟨Nat.le_trans ht hvalue.le, hvalue.refines rfl rfl fun a => ?_⟩
    exact refines_bind (refines_mark _ _) fun _ => refines_pure _
  | .emit pos event args, t, hs, ht => by
    obtain ⟨hoperands, -⟩ := hs _ (mem_substatements_self _)
    have hargs := replaces_hoistEach w scope n args t
      (tameEach_iff.2 fun e he => hoperands e he) ht
    refine ⟨Nat.le_trans ht hargs.le, hargs.refines rfl rfl fun words => ?_⟩
    exact refines_bind (refines_mark _ _) fun _ =>
      refines_bind (refines_changeStore _) fun _ => refines_pure _
  | .evaluate pos value, t, hs, ht => by
    obtain ⟨hoperands, -⟩ := hs _ (mem_substatements_self _)
    have hvalue := replaces_hoist w scope n value t (hoperands value (by simp [Stmt.operands])) ht
    exact ⟨Nat.le_trans ht hvalue.le, hvalue.refines rfl rfl fun a => refines_pure _⟩
  | .skip pos, t, _, ht => by
    refine ⟨ht, ?_⟩
    change Refines n (execAll w [.skip pos]) _
    rw [execAll_singleton, exec]
    exact refines_pure _

/-- **A body without its conditionals refines the body.** -/
theorem refines_hoistBody (w : World) (scope : Scope) (n : Nat) : ∀ (body : List Stmt) (t : Temps),
    TameBody n body → n ≤ t.next →
    n ≤ (hoistBody scope body t).2.next
      ∧ Refines n (execAll w (hoistBody scope body t).1) (execAll w body)
  | [], t, _, ht => ⟨ht, refines_pure _⟩
  | s :: rest, t, hbody, ht => by
    obtain ⟨hnext, hs⟩ := refines_hoistStmt w scope n s t
      (fun sub hsub => hbody sub (by simp [Stmt.substatementsAll, hsub])) ht
    obtain ⟨hnextRest, hrest⟩ := refines_hoistBody w scope n rest (hoistStmt scope s t).2
      (fun sub hsub => hbody sub (by simp [Stmt.substatementsAll, hsub])) hnext
    refine ⟨hnextRest, ?_⟩
    simp only [hoistBody, execAll_append, execAll]
    exact refines_followedBy hs hrest
end

/-! ## Main statement -/

/-- Whether an expression is a call or a deployment. -/
def isOutside : Expr → Bool
  | .call _ _ _ _ => true
  | .deploy _ _ _ => true
  | _ => false

/-- The variable an expression reads. -/
def variableName? : Expr → Option String
  | .var _ name => some name
  | _ => none

/-- **The variables of a body**: those that are declared, set or read in it. -/
def variablesOf (body : List Stmt) : List String :=
  (Stmt.substatementsAll body).filterMap target?
    ++ (Stmt.expressionsOf body).filterMap variableName?

theorem tame_of_variables {n : Nat} {e : Expr} (houtside : isOutside e = false)
    (hvariable : ∀ name, variableName? e = some name → ¬ Later n name) : Tame n e := by
  cases e with
  | call pos target receiver args => cases houtside
  | deploy pos contract args => cases houtside
  | var pos name => exact hvariable name rfl
  | _ => trivial

theorem tameBody_of_variables {n : Nat} {body : List Stmt}
    (houtside : ∀ e ∈ Stmt.expressionsOf body, isOutside e = false)
    (hnames : ∀ name ∈ variablesOf body, ¬ Later n name) : TameBody n body := by
  intro s hs
  have hmem : ∀ e ∈ s.operands, ∀ part ∈ e.subexpressions, part ∈ Stmt.expressionsOf body := by
    intro e he part hpart
    exact List.mem_flatMap.2 ⟨s, hs, List.mem_flatMap.2 ⟨e, he, hpart⟩⟩
  refine ⟨fun e he part hpart => ?_, fun name hname => ?_⟩
  · refine tame_of_variables (houtside part (hmem e he part hpart)) fun name hname => ?_
    refine hnames name (List.mem_append_right _ (List.mem_filterMap.2 ⟨part, ?_, hname⟩))
    exact hmem e he part hpart
  · exact hnames name (List.mem_append_left _ (List.mem_filterMap.2 ⟨s, hs, hname⟩))

/-- **A body does what is left of it without conditionals**, if it makes no calls and no deployments
and none of its variables is a temporary that is still to be handed out. Where the body without
conditionals does not fail, neither does the body; it ends in the same way, with the same value or
message, the same storage and log, and the same values of all variables but those temporaries. -/
theorem normalizeAll_refines (w : World) (scope : Scope) (next : Nat) (body : List Stmt)
    (houtside : ∀ e ∈ Stmt.expressionsOf body, isOutside e = false)
    (hnames : ∀ name ∈ variablesOf body, ∀ k, next ≤ k → name ≠ Temps.nameOf k)
    (s : State) (ending : Ending)
    (hrun : ((execAll w (normalizeAll scope next body).1).run s).outcome = .ok ending) :
    ((execAll w body).run s).outcome = .ok ending
      ∧ ((execAll w body).run s).state.store
        = ((execAll w (normalizeAll scope next body).1).run s).state.store
      ∧ ∀ name, (∀ k, next ≤ k → name ≠ Temps.nameOf k) →
        ((execAll w body).run s).state.locals.get? name
          = ((execAll w (normalizeAll scope next body).1).run s).state.locals.get? name := by
  have htame : TameBody next body := by
    refine tameBody_of_variables houtside ?_
    rintro name hname ⟨k, hk, hkname⟩
    exact hnames name hname k hk hkname
  obtain ⟨-, hrefines⟩ := refines_hoistBody w scope next body { next } htame (Nat.le_refl next)
  obtain ⟨hending, halike⟩ := hrefines s s ending ⟨rfl, rfl⟩ hrun
  refine ⟨hending, halike.1.symm, fun name hname => (halike.agree.2 name ?_).symm⟩
  rintro ⟨k, hk, hkname⟩
  exact hname k hk hkname

/-- A body with a conditional in a conditional: a variable is read in the condition of one and in a
branch of the other, and the result is stored. -/
def nestedChoice : List Stmt :=
  [.declare {} "x" .number (some (.literal {} .number "5")),
    .setProperty {} "p"
      (.conditional {} (.var {} "x")
        (.conditional {} (.this {}) (.literal {} .number "1") (.var {} "x"))
        (.literal {} .number "3")),
    .exit {} (some (.storage {} "p"))]

theorem normalizeAll_refines_nestedChoice :
    ((execAll (quietWorld 0) (normalizeAll {} 0 nestedChoice).1).run blankState).outcome
        = .ok (.left (some (.word 5)))
      ∧ ((execAll (quietWorld 0) nestedChoice).run blankState).outcome
        = .ok (.left (some (.word 5))) := by
  have hrun : ((execAll (quietWorld 0) (normalizeAll {} 0 nestedChoice).1).run blankState).outcome
      = .ok (.left (some (.word 5))) := by
    rfl
  have hvariables : variablesOf nestedChoice = ["x", "x", "x"] := by
    rfl
  refine ⟨hrun, (normalizeAll_refines (quietWorld 0) {} 0 nestedChoice (by decide) ?_ blankState _
    hrun).1⟩
  intro name hname k _ hk
  have hx : name = "x" := by
    simpa [hvariables] using hname
  have hlist := congrArg String.toList (hx.symm.trans hk)
  simp [Temps.nameOf] at hlist

end Execution

end Covenant
