import Covenant.Proofs.Execution.Run
import Covenant.Resolve.Conditionals

/-!
# Which branches of a conditional run

A statement without its conditionals does not evaluate the same things as the statement with them.
The first branch of a conditional is evaluated only after its condition was found not to be zero.
The second one is evaluated in any case, and before the condition is tested. Both are said of
traces: a mark at a place of the source says that something was done there, and the places of a
statement are listed with the branches they stand in.

A property of a trace is said mark by mark, each in view of the marks before it. A run keeps such a
property if it does whatever was marked earlier, so the property of a body is read off its parts:
one lemma for each way in which runs are put together.

Main statements: what is done for the second branch is done whatever the condition is
(`second_branch_evaluated`), and every mark of a statement has the marks before it that its place
asks for (`normalize_selects`).
-/

namespace Covenant

namespace Execution

/-! ## Properties of traces -/

/-- What is asked of a mark, in view of the earlier marks. -/
abbrev Rule := List Mark → Mark → Prop

/-- **Every mark of a trace obeys a rule**, where some marks were made before. -/
def Obeys (P : Rule) : List Mark → List Mark → Prop
  | _, [] => True
  | earlier, m :: rest => P earlier m ∧ Obeys P (earlier ++ [m]) rest

theorem obeys_append {P : Rule} {earlier first second : List Mark} :
    Obeys P earlier (first ++ second)
      ↔ Obeys P earlier first ∧ Obeys P (earlier ++ first) second := by
  induction first generalizing earlier with
  | nil => simp [Obeys]
  | cons m first ih => simp [Obeys, ih, and_assoc]

/-- A rule that holds along a trace holds at each place of it. -/
theorem Obeys.at {P : Rule} {trace before after : List Mark} {m : Mark}
    (h : Obeys P [] trace) (htrace : trace = before ++ m :: after) : P before m := by
  rw [htrace, obeys_append] at h
  simpa using h.2.1

/-- A rule may be weakened by what an earlier mark says. -/
theorem Obeys.imp_of_mem {P Q : Rule} {seen : Mark}
    (himp : ∀ earlier m, seen ∈ earlier → P earlier m → Q earlier m)
    {earlier trace : List Mark} (hseen : seen ∈ earlier) (h : Obeys P earlier trace) :
    Obeys Q earlier trace := by
  induction trace generalizing earlier with
  | nil => trivial
  | cons m trace ih =>
    exact ⟨himp earlier m hseen h.1, ih (List.mem_append_left _ hseen) h.2⟩

theorem Obeys.imp {P Q : Rule} (himp : ∀ earlier m, P earlier m → Q earlier m)
    {earlier trace : List Mark} (h : Obeys P earlier trace) : Obeys Q earlier trace := by
  induction trace generalizing earlier with
  | nil => trivial
  | cons m trace ih => exact ⟨himp earlier m h.1, ih h.2⟩

/-! ### Runs -/

namespace Run

variable {α β : Type} {P Q : Rule}

/-- **A run obeys a rule** if its trace does, whatever was marked before. -/
def Obeys (P : Rule) (x : Run α) : Prop :=
  ∀ s earlier, Execution.Obeys P earlier (x.run s).trace

theorem Obeys.imp {x : Run α} (himp : ∀ earlier m, P earlier m → Q earlier m) (h : x.Obeys P) :
    x.Obeys Q :=
  fun s earlier => (h s earlier).imp himp

/-- A run that leaves no marks obeys every rule. -/
theorem obeys_of_silent {x : Run α} (h : ∀ s, (x.run s).trace = []) : x.Obeys P := by
  intro s earlier
  rw [h s]
  trivial

theorem obeys_pure (a : α) : (pure a : Run α).Obeys P :=
  obeys_of_silent fun _ => rfl

theorem obeys_mark {pos : Position} {deed : Deed} (h : ∀ earlier, P earlier ⟨pos, deed⟩) :
    (mark pos deed).Obeys P :=
  fun _ earlier => ⟨h earlier, trivial⟩

/-- What follows a run is judged in view of its marks. -/
theorem obeys_andThen {x : Run α} {f : α → Run β} {s : State} {earlier : List Mark}
    (hx : Execution.Obeys P earlier (x.run s).trace)
    (hf : ∀ a, (x.run s).outcome = .ok a →
      Execution.Obeys P (earlier ++ (x.run s).trace) ((f a).run (x.run s).state).trace) :
    Execution.Obeys P earlier ((x >>= f).run s).trace := by
  rw [run_bind]
  cases h : (x.run s).outcome with
  | ok a =>
    rw [andThen_of_ok h]
    exact obeys_append.2 ⟨hx, hf a h⟩
  | error panic =>
    rw [andThen_of_error h]
    exact hx

/-- What a run marked stays marked, and in front of what follows. -/
theorem trace_prefix_bind (x : Run α) (f : α → Run β) (s : State) :
    (x.run s).trace <+: ((x >>= f).run s).trace := by
  rw [run_bind]
  cases hx : (x.run s).outcome with
  | ok a =>
    rw [andThen_of_ok hx]
    exact List.prefix_append _ _
  | error panic =>
    exact ⟨[], by rw [List.append_nil, andThen_of_error hx]⟩

theorem obeys_bind {x : Run α} {f : α → Run β} (hx : x.Obeys P) (hf : ∀ a, (f a).Obeys P) :
    (x >>= f).Obeys P :=
  fun s earlier => obeys_andThen (hx s earlier) fun a _ => hf a _ _

theorem obeys_state : state.Obeys P :=
  obeys_of_silent fun _ => rfl

theorem obeys_changeStore (f : Store → Store) : (changeStore f).Obeys P :=
  obeys_of_silent fun _ => rfl

theorem obeys_changeLocals (f : Locals Value → Locals Value) : (changeLocals f).Obeys P :=
  obeys_of_silent fun _ => rfl

theorem obeys_ofExcept {pos : Position} (h : ∀ earlier panic, P earlier ⟨pos, .failed panic⟩)
    (r : Except Panic α) : (ofExcept pos r).Obeys P := by
  cases r with
  | ok a => exact obeys_pure a
  | error panic => exact fun _ earlier => ⟨h earlier panic, trivial⟩

theorem obeys_outside {pos : Position} (h : ∀ earlier panic, P earlier ⟨pos, .failed panic⟩)
    (f : Store → Except Panic α × Store) : (outside pos f).Obeys P :=
  obeys_bind obeys_state fun _ =>
    obeys_bind (obeys_changeStore _) fun _ => obeys_ofExcept h _

theorem obeys_inBlock {x : Run α} (h : x.Obeys P) : (inBlock x).Obeys P :=
  fun _ earlier => h _ earlier

theorem obeys_followedBy {x y : Run Ending} (hx : x.Obeys P) (hy : y.Obeys P) :
    (x.followedBy y).Obeys P := by
  refine obeys_bind hx fun ending => ?_
  cases ending with
  | next => exact hy
  | left value => exact obeys_pure _
  | threw message => exact obeys_pure _

end Run

open Resolve Run

/-! ## The places of a statement -/

/-- What can be tested at a place. -/
inductive Role where
  | plain
  /-- The condition of a statement. -/
  | branch
  /-- The condition of a conditional, with the place of the second branch. -/
  | choice (second : Position)
deriving DecidableEq

/-- **A place of a statement**, with the conditionals in whose first and second branches it
stands. -/
structure Place where
  pos : Position
  role : Role := .plain
  chosen : List Position := []
  refused : List Position := []
deriving DecidableEq

namespace Place

/-- The place within the first branch of a conditional. -/
def inFirst (pos : Position) (p : Place) : Place :=
  { p with chosen := pos :: p.chosen }

/-- The place within the second branch of a conditional. -/
def inSecond (pos : Position) (p : Place) : Place :=
  { p with refused := pos :: p.refused }

end Place

mutual
/-- **The places of an expression**, itself first. -/
def places : Expr → List Place
  | .entry pos _ indices => { pos } :: placesEach indices
  | .binary pos _ left right => { pos } :: (places left ++ places right)
  | .not pos value => { pos } :: places value
  | .external pos _ address => { pos } :: places address
  | .deploy pos _ args => { pos } :: placesEach args
  | .call pos _ receiver args => { pos } :: (places receiver ++ placesEach args)
  | .conditional pos condition yes no =>
    { pos, role := .choice no.pos }
      :: (places condition ++ (places yes).map (Place.inFirst pos)
        ++ (places no).map (Place.inSecond pos))
  | .record pos _ fields => { pos } :: placesEach fields
  | .hash pos inputs => { pos } :: placesEach inputs
  | e => [{ pos := e.pos }]

/-- The places of several expressions. -/
def placesEach : List Expr → List Place
  | [] => []
  | e :: es => places e ++ placesEach es
end

theorem placesEach_append (es more : List Expr) :
    placesEach (es ++ more) = placesEach es ++ placesEach more := by
  induction es with
  | nil => rfl
  | cons e es ih => simp [placesEach, ih]

mutual
/-- **The places of a statement**, itself first. -/
def stmtPlaces : Stmt → List Place
  | .branch pos condition yes no =>
    { pos, role := .branch } :: (places condition ++ bodyPlaces yes ++ bodyPlaces no)
  | s => { pos := s.pos } :: placesEach s.operands

/-- The places of a body. -/
def bodyPlaces : List Stmt → List Place
  | [] => []
  | s :: rest => stmtPlaces s ++ bodyPlaces rest
end

/-! ## What a mark stands for -/

/-- A condition was found not to be zero. -/
def Selected (earlier : List Mark) (pos : Position) : Prop :=
  ∃ v : Word, v ≠ 0 ∧ ⟨pos, .tested v⟩ ∈ earlier

/-- What has to be done before a condition is tested: the second branch of a conditional was
entered. -/
def Role.Ready (earlier : List Mark) : Role → Prop
  | plain => False
  | branch => True
  | choice second => ⟨second, .entered⟩ ∈ earlier

/-- **A mark is warranted** by a place if it is made there, after the first branches around the
place were selected, and a test after what has to be done before it. -/
def Warranted (allowed : List Place) : Rule := fun earlier m =>
  ∃ p ∈ allowed, p.pos = m.pos ∧ (∀ c ∈ p.chosen, Selected earlier c)
    ∧ ∀ v, m.deed = .tested v → p.role.Ready earlier

section Warranted

variable {allowed more : List Place} {earlier : List Mark} {m : Mark} {pos : Position}

theorem Warranted.mono (hsub : ∀ p ∈ allowed, p ∈ more) (h : Warranted allowed earlier m) :
    Warranted more earlier m := by
  obtain ⟨p, hp, hrest⟩ := h
  exact ⟨p, hsub p hp, hrest⟩

/-- A place that no conditional stands around warrants what is no test. -/
theorem warranted_of_mem {role : Role} {deed : Deed} (hp : { pos, role } ∈ allowed)
    (hdeed : ∀ v, deed ≠ .tested v) : Warranted allowed earlier ⟨pos, deed⟩ :=
  ⟨{ pos, role }, hp, rfl, fun _ hc => absurd hc List.not_mem_nil,
    fun v hv => absurd hv (hdeed v)⟩

/-- Behind a test that selects it, a first branch warrants what it does on its own. -/
theorem Warranted.inFirst {v : Word} (hv : v ≠ 0) (hseen : ⟨pos, .tested v⟩ ∈ earlier)
    (h : Warranted allowed earlier m) : Warranted (allowed.map (Place.inFirst pos)) earlier m := by
  obtain ⟨p, hp, hpos, hchosen, hready⟩ := h
  refine ⟨p.inFirst pos, List.mem_map_of_mem hp, hpos, ?_, hready⟩
  intro c hc
  rcases List.mem_cons.1 hc with rfl | hc
  · exact ⟨v, hv, hseen⟩
  · exact hchosen c hc

theorem Warranted.inSecond (h : Warranted allowed earlier m) :
    Warranted (allowed.map (Place.inSecond pos)) earlier m := by
  obtain ⟨p, hp, hrest⟩ := h
  exact ⟨p.inSecond pos, List.mem_map_of_mem hp, hrest⟩

end Warranted

/-! ## Expressions -/

/-- The evaluation of an expression begins with a mark at its place. -/
theorem eval_trace (w : World) (e : Expr) (s : State) :
    ∃ rest, ((eval w e).run s).trace = ⟨e.pos, .entered⟩ :: rest := by
  have hbegin : ∀ {α : Type} (pos : Position) (f : Unit → Run α),
      ∃ rest, ((mark pos .entered >>= f).run s).trace = ⟨pos, .entered⟩ :: rest :=
    fun pos f => ⟨_, rfl⟩
  cases e <;> rw [eval] <;> exact hbegin _ _

/-- What is left of an expression stands where the expression stood. -/
theorem hoist_pos (scope : Scope) (e : Expr) (t : Temps) : (hoist scope e t).2.1.pos = e.pos := by
  cases e <;> rfl

/-- **A run is warranted** by places if all its marks are. -/
abbrev WarrantedRun {α : Type} (allowed : List Place) (x : Run α) : Prop :=
  x.Obeys (Warranted allowed)

section Expressions

variable {α β : Type} {allowed more : List Place} {pos : Position}

theorem WarrantedRun.mono {x : Run α} (hsub : ∀ p ∈ allowed, p ∈ more)
    (h : WarrantedRun allowed x) : WarrantedRun more x :=
  Run.Obeys.imp (fun _ _ => Warranted.mono hsub) h

theorem warrantedRun_followedBy {x y : Run Ending} (hx : WarrantedRun allowed x)
    (hy : WarrantedRun more y) : WarrantedRun (allowed ++ more) (x.followedBy y) :=
  obeys_followedBy (hx.mono fun _ => List.mem_append_left _)
    (hy.mono fun _ => List.mem_append_right _)

/-- What is done at a place outside of all conditionals, tests apart, is warranted by it. -/
theorem warrantedRun_mark {deed : Deed} (hdeed : ∀ v, deed ≠ .tested v) :
    WarrantedRun ({ pos } :: more) (mark pos deed) :=
  obeys_mark fun _ => warranted_of_mem List.mem_cons_self hdeed

theorem warrantedRun_ofExcept (r : Except Panic α) :
    WarrantedRun ({ pos } :: more) (ofExcept pos r) :=
  obeys_ofExcept (fun _ _ => warranted_of_mem List.mem_cons_self (by simp)) r

theorem warrantedRun_outside (f : Store → Except Panic α × Store) :
    WarrantedRun ({ pos } :: more) (outside pos f) :=
  obeys_outside (fun _ _ => warranted_of_mem List.mem_cons_self (by simp)) f

/-- An expression without operands has nothing to be taken out. -/
theorem warrantedRun_leaf {w : World} {x : Run Value} (hx : WarrantedRun [{ pos }] x) :
    WarrantedRun [{ pos }] (execAll w [])
      ∧ WarrantedRun [{ pos }] (mark pos .entered >>= fun _ => x) :=
  ⟨obeys_pure _, obeys_bind (warrantedRun_mark (by simp)) fun _ => hx⟩

/-- An expression with operands is warranted by its own place and theirs. -/
theorem warrantedRun_node {w : World} {pre : List Stmt} {x : Run α} {f : α → Run Value}
    (hpre : WarrantedRun more (execAll w pre)) (hx : WarrantedRun more x)
    (hf : ∀ a, WarrantedRun ({ pos } :: more) (f a)) :
    WarrantedRun ({ pos } :: more) (execAll w pre)
      ∧ WarrantedRun ({ pos } :: more) (mark pos .entered >>= fun _ => x >>= f) := by
  have hmore : ∀ p ∈ more, p ∈ { pos } :: more := fun _ => List.mem_cons_of_mem _
  refine ⟨hpre.mono hmore, obeys_bind (warrantedRun_mark (by simp)) fun _ => ?_⟩
  exact obeys_bind (hx.mono hmore) hf

/-- The same for an expression with operands of two kinds. -/
theorem warrantedRun_node₂ {w : World} {pre preMore : List Stmt} {x : Run α} {y : Run β}
    {f : α → β → Run Value} (hpre : WarrantedRun allowed (execAll w pre))
    (hx : WarrantedRun allowed x)
    (hmore : WarrantedRun more (execAll w preMore)) (hy : WarrantedRun more y)
    (hf : ∀ a b, WarrantedRun ({ pos } :: (allowed ++ more)) (f a b)) :
    WarrantedRun ({ pos } :: (allowed ++ more)) (execAll w (pre ++ preMore))
      ∧ WarrantedRun ({ pos } :: (allowed ++ more))
        (mark pos .entered >>= fun _ => x >>= fun a => y >>= f a) := by
  have hboth : WarrantedRun (allowed ++ more) (execAll w (pre ++ preMore)) := by
    rw [execAll_append]
    exact warrantedRun_followedBy hpre hmore
  refine warrantedRun_node hboth (hx.mono fun _ => List.mem_append_left _) fun a => ?_
  have hright : ∀ p ∈ more, p ∈ { pos } :: (allowed ++ more) := fun _ hp =>
    List.mem_cons_of_mem _ (List.mem_append_right _ hp)
  exact obeys_bind (hy.mono hright) (hf a)

/-- **The test of a conditional**, once its second branch was entered: what is done in the first
branch comes behind the test that selects it. -/
theorem obeys_choice {w : World} {condition : Expr} {body : List Stmt} {second : Position}
    {first all : List Place} (hcondition : WarrantedRun all (eval w condition))
    (hbody : WarrantedRun first (execAll w body))
    (hown : { pos, role := .choice second } ∈ all)
    (hfirst : ∀ p ∈ first, p.inFirst pos ∈ all)
    {s : State} {earlier : List Mark} (hseen : ⟨second, .entered⟩ ∈ earlier) :
    Obeys (Warranted all) earlier ((exec w (.branch pos condition body [])).run s).trace := by
  rw [exec]
  refine obeys_andThen (hcondition s earlier) fun a _ => ?_
  refine obeys_andThen ⟨?_, trivial⟩ fun _ _ => ?_
  · refine ⟨_, hown, rfl, fun _ hc => absurd hc List.not_mem_nil, fun _ _ => ?_⟩
    exact List.mem_append_left _ hseen
  · -- the block runs in view of the test just made
    by_cases ha : a.toWord = 0
    · simp only [ha, ne_eq, not_true_eq_false, if_false]
      exact obeys_inBlock (obeys_pure _) _ _
    · simp only [ne_eq, ha, not_false_eq_true, if_true]
      refine Obeys.imp_of_mem (fun earlier m hm hw => ?_) (List.mem_append_right _ (by
        exact List.mem_singleton.2 rfl)) (obeys_inBlock hbody _ _)
      exact (hw.inFirst ha hm).mono fun p hp => by
        obtain ⟨q, hq, rfl⟩ := List.mem_map.1 hp
        exact hfirst q hq

/-- The declaration of a local variable evaluates its value first. -/
theorem trace_prefix_declare (w : World) (pos : Position) (name : String) (type : Ty) (value : Expr)
    (s : State) :
    ((eval w value).run s).trace <+: ((exec w (.declare pos name type (some value))).run s).trace := by
  rw [exec]
  exact trace_prefix_bind _ _ s

/-- **A conditional that was taken out**: the second branch is evaluated, then the condition is
tested, and the first branch is evaluated where the test selects it. -/
theorem warrantedRun_conditional {w : World} {preC preY preN : List Stmt}
    {condition yes no : Expr} {temp : String} {type : Ty} {fromC fromY fromN : List Place}
    (hpreC : WarrantedRun fromC (execAll w preC)) (hC : WarrantedRun fromC (eval w condition))
    (hpreY : WarrantedRun fromY (execAll w preY)) (hY : WarrantedRun fromY (eval w yes))
    (hpreN : WarrantedRun fromN (execAll w preN)) (hN : WarrantedRun fromN (eval w no)) :
    WarrantedRun ({ pos, role := .choice no.pos }
        :: (fromC ++ fromY.map (Place.inFirst pos) ++ fromN.map (Place.inSecond pos)))
      (execAll w (preC ++ preN ++ [.declare pos temp type (some no),
        .branch pos condition (preY ++ [.setVariable pos temp yes]) []])) := by
  generalize hall : { pos, role := .choice no.pos } :: (fromC ++ fromY.map (Place.inFirst pos)
    ++ fromN.map (Place.inSecond pos)) = all
  have hfromC : ∀ p ∈ fromC, p ∈ all := by
    intro p hp
    simp [← hall, hp]
  -- nothing has to be selected for the second branch, so its places warrant it anywhere
  have hsecond : ∀ {α : Type} {x : Run α}, WarrantedRun fromN x → WarrantedRun all x := by
    intro α x hx
    refine Run.Obeys.imp (fun earlier m hm => ?_) hx
    have hwarranted : Warranted (fromN.map (Place.inSecond pos)) earlier m := hm.inSecond
    refine hwarranted.mono fun p hp => ?_
    simp only [← hall, List.mem_cons, List.mem_append]
    exact Or.inr (Or.inr hp)
  have hfirst : ∀ p ∈ fromY, p.inFirst pos ∈ all := by
    intro p hp
    simp only [← hall, List.mem_cons, List.mem_append, List.mem_map]
    exact Or.inr (Or.inl (Or.inr ⟨p, hp, rfl⟩))
  have hbody : WarrantedRun fromY (execAll w (preY ++ [.setVariable pos temp yes])) := by
    rw [execAll_append]
    refine obeys_followedBy hpreY (obeys_followedBy ?_ (obeys_pure _))
    rw [exec]
    exact obeys_bind hY fun _ => obeys_bind (obeys_changeLocals _) fun _ => obeys_pure _
  rw [execAll_append, execAll_append]
  refine obeys_followedBy (obeys_followedBy (hpreC.mono hfromC) (hsecond hpreN)) ?_
  intro s earlier
  rw [execAll, followedBy]
  refine obeys_andThen ?_ fun ending hending => ?_
  · rw [exec]
    exact obeys_bind (hsecond hN) (fun _ => obeys_bind (obeys_changeLocals _) fun _ =>
      obeys_pure _) s earlier
  · -- the declaration enters the second branch, and the test comes behind it
    have hseen : ⟨no.pos, .entered⟩
        ∈ ((exec w (.declare pos temp type (some no))).run s).trace := by
      obtain ⟨rest, htrace⟩ := eval_trace w no s
      exact (trace_prefix_declare w pos temp type no s).subset (by simp [htrace])
    cases ending with
    | left value => exact obeys_pure _ _ _
    | threw message => exact obeys_pure _ _ _
    | next =>
      rw [execAll, followedBy]
      refine obeys_andThen ?_ fun ending _ => ?_
      · exact obeys_choice (hC.mono hfromC) hbody (by simp [← hall]) hfirst
          (List.mem_append_right _ hseen)
      · cases ending <;> exact obeys_pure _ _ _

end Expressions

mutual
/-- **What was taken out of an expression, and what is left of it, are warranted by its places.** -/
theorem warrantedRun_hoist (w : World) (scope : Scope) : ∀ (e : Expr) (t : Temps),
    WarrantedRun (places e) (execAll w (hoist scope e t).1)
      ∧ WarrantedRun (places e) (eval w (hoist scope e t).2.1)
  | .literal pos type text, t => by
    simp only [hoist, eval, places]
    exact warrantedRun_leaf (obeys_pure _)
  | .var pos name, t => by
    simp only [hoist, eval, places]
    exact warrantedRun_leaf (obeys_bind obeys_state fun _ => obeys_pure _)
  | .storage pos name, t => by
    simp only [hoist, eval, places]
    exact warrantedRun_leaf (obeys_bind obeys_state fun _ => obeys_pure _)
  | .this pos, t => by
    simp only [hoist, eval, places]
    exact warrantedRun_leaf (obeys_pure _)
  | .environment pos space member, t => by
    simp only [hoist, eval, places]
    exact warrantedRun_leaf (obeys_pure _)
  | .length pos property, t => by
    simp only [hoist, eval, places]
    exact warrantedRun_leaf (obeys_bind obeys_state fun _ => obeys_pure _)
  | .missing, t => by
    simp only [hoist, eval, places]
    exact warrantedRun_leaf (obeys_pure _)
  | .entry pos property indices, t => by
    obtain ⟨hpre, hvalue⟩ := warrantedRun_hoistEach w scope indices t
    simp only [hoist, eval, places]
    refine warrantedRun_node hpre hvalue fun _ => obeys_bind obeys_state fun _ => ?_
    exact obeys_bind (warrantedRun_ofExcept _) fun _ => obeys_pure _
  | .binary pos op left right, t => by
    obtain ⟨hpreL, hleft⟩ := warrantedRun_hoist w scope left t
    obtain ⟨hpreR, hright⟩ := warrantedRun_hoist w scope right (hoist scope left t).2.2
    simp only [hoist, eval, places]
    refine warrantedRun_node₂ hpreL hleft hpreR hright fun _ _ => ?_
    exact obeys_bind (warrantedRun_ofExcept _) fun _ => obeys_pure _
  | .not pos value, t => by
    obtain ⟨hpre, hvalue⟩ := warrantedRun_hoist w scope value t
    simp only [hoist, eval, places]
    exact warrantedRun_node hpre hvalue fun _ => obeys_pure _
  | .external pos contract address, t => by
    obtain ⟨hpre, hvalue⟩ := warrantedRun_hoist w scope address t
    simp only [hoist, eval, places]
    exact warrantedRun_node hpre hvalue fun _ => obeys_pure _
  | .deploy pos contract args, t => by
    obtain ⟨hpre, hvalue⟩ := warrantedRun_hoistEach w scope args t
    simp only [hoist, eval, places]
    refine warrantedRun_node hpre hvalue fun _ => ?_
    exact obeys_bind (warrantedRun_mark (by simp)) fun _ => warrantedRun_outside _
  | .call pos target receiver args, t => by
    obtain ⟨hpreR, hreceiver⟩ := warrantedRun_hoist w scope receiver t
    obtain ⟨hpreA, hargs⟩ := warrantedRun_hoistEach w scope args (hoist scope receiver t).2.2
    simp only [hoist, eval, places]
    refine warrantedRun_node₂ hpreR hreceiver hpreA hargs fun _ _ => ?_
    exact obeys_bind (warrantedRun_mark (by simp)) fun _ => warrantedRun_outside _
  | .record pos shape fields, t => by
    obtain ⟨hpre, hvalue⟩ := warrantedRun_hoistEach w scope fields t
    simp only [hoist, eval, places]
    exact warrantedRun_node hpre hvalue fun _ => obeys_pure _
  | .hash pos inputs, t => by
    obtain ⟨hpre, hvalue⟩ := warrantedRun_hoistEach w scope inputs t
    simp only [hoist, eval, places]
    exact warrantedRun_node hpre hvalue fun _ => obeys_pure _
  | .conditional pos condition yes no, t => by
    obtain ⟨hpreC, hcondition⟩ := warrantedRun_hoist w scope condition t
    obtain ⟨hpreY, hyes⟩ := warrantedRun_hoist w scope yes (hoist scope condition t).2.2
    obtain ⟨hpreN, hno⟩ := warrantedRun_hoist w scope no
      (hoist scope yes (hoist scope condition t).2.2).2.2
    -- places are told apart by positions, and what is left of a side keeps the position of the side
    have hposN := hoist_pos scope no (hoist scope yes (hoist scope condition t).2.2).2.2
    simp only [hoist, places]
    rw [← hposN]
    refine ⟨warrantedRun_conditional hpreC hcondition hpreY hyes hpreN hno, ?_⟩
    rw [eval]
    refine obeys_bind (obeys_mark fun _ => ?_) fun _ => obeys_bind obeys_state fun _ => obeys_pure _
    exact warranted_of_mem List.mem_cons_self (by simp)

/-- The same for several expressions. -/
theorem warrantedRun_hoistEach (w : World) (scope : Scope) : ∀ (es : List Expr) (t : Temps),
    WarrantedRun (placesEach es) (execAll w (hoistEach scope es t).1)
      ∧ WarrantedRun (placesEach es) (evalEach w (hoistEach scope es t).2.1)
  | [], t => ⟨obeys_pure _, obeys_pure _⟩
  | e :: es, t => by
    obtain ⟨hpre, hvalue⟩ := warrantedRun_hoist w scope e t
    obtain ⟨hpreRest, hrest⟩ := warrantedRun_hoistEach w scope es (hoist scope e t).2.2
    simp only [hoistEach, evalEach, placesEach, execAll_append]
    refine ⟨warrantedRun_followedBy hpre hpreRest, ?_⟩
    refine obeys_bind (hvalue.mono fun _ => List.mem_append_left _) fun _ => ?_
    exact obeys_bind (hrest.mono fun _ => List.mem_append_right _) fun _ => obeys_pure _
end

/-! ## Statements -/

section Statements

variable {allowed more : List Place} {pos : Position} {w : World}

/-- A statement behind what was taken out of its operands. -/
theorem warrantedRun_stmt {α : Type} {pre : List Stmt} {s : Stmt} {x : Run α} {f : α → Run Ending}
    (hexec : exec w s = x >>= f) (hpre : WarrantedRun more (execAll w pre))
    (hx : WarrantedRun more x) (hf : ∀ a, WarrantedRun ({ pos } :: more) (f a)) :
    WarrantedRun ({ pos } :: more) (execAll w (pre ++ [s])) := by
  have hmore : ∀ p ∈ more, p ∈ { pos } :: more := fun _ => List.mem_cons_of_mem _
  rw [execAll_append]
  refine obeys_followedBy (hpre.mono hmore) (obeys_followedBy ?_ (obeys_pure _))
  rw [hexec]
  exact obeys_bind (hx.mono hmore) hf

/-- A branch of which the condition and both bodies are warranted. -/
theorem warrantedRun_branch {condition : Expr} {yes no : List Stmt}
    (hcondition : WarrantedRun allowed (eval w condition))
    (hyes : WarrantedRun allowed (execAll w yes))
    (hno : WarrantedRun allowed (execAll w no)) (hown : { pos, role := .branch } ∈ allowed) :
    WarrantedRun allowed (exec w (.branch pos condition yes no)) := by
  rw [exec]
  refine obeys_bind hcondition fun a => obeys_bind (obeys_mark fun earlier => ?_) fun _ => ?_
  · exact ⟨_, hown, rfl, fun _ hc => absurd hc List.not_mem_nil, fun _ _ => trivial⟩
  · by_cases ha : a.toWord = 0
    · simpa only [ha, ne_eq, not_true_eq_false, if_false] using obeys_inBlock hno
    · simpa only [ne_eq, ha, not_false_eq_true, if_true] using obeys_inBlock hyes

end Statements

mutual
/-- **A statement without its conditionals is warranted by the places of the statement.** -/
theorem warrantedRun_hoistStmt (w : World) (scope : Scope) : ∀ (s : Stmt) (t : Temps),
    WarrantedRun (stmtPlaces s) (execAll w (hoistStmt scope s t).1)
  | .setProperty pos property value, t => by
    obtain ⟨hpre, hvalue⟩ := warrantedRun_hoist w scope value t
    simp only [hoistStmt, stmtPlaces, Stmt.operands, placesEach, List.append_nil]
    refine warrantedRun_stmt rfl hpre hvalue fun _ => ?_
    exact obeys_bind (warrantedRun_mark (by simp)) fun _ =>
      obeys_bind (obeys_changeStore _) fun _ => obeys_pure _
  | .declare pos name type none, t =>
    obeys_followedBy (obeys_bind (obeys_changeLocals _) fun _ => obeys_pure _) (obeys_pure _)
  | .declare pos name type (some value), t => by
    obtain ⟨hpre, hvalue⟩ := warrantedRun_hoist w scope value t
    simp only [hoistStmt, stmtPlaces, Stmt.operands, Option.toList, placesEach, List.append_nil]
    refine warrantedRun_stmt rfl hpre hvalue fun _ => ?_
    exact obeys_bind (obeys_changeLocals _) fun _ => obeys_pure _
  | .setVariable pos name value, t => by
    obtain ⟨hpre, hvalue⟩ := warrantedRun_hoist w scope value t
    simp only [hoistStmt, stmtPlaces, Stmt.operands, placesEach, List.append_nil]
    refine warrantedRun_stmt rfl hpre hvalue fun _ => ?_
    exact obeys_bind (obeys_changeLocals _) fun _ => obeys_pure _
  | .setEntry pos property indices value, t => by
    obtain ⟨hpreI, hindices⟩ := warrantedRun_hoistEach w scope indices t
    obtain ⟨hpreV, hvalue⟩ := warrantedRun_hoist w scope value (hoistEach scope indices t).2.2
    simp only [hoistStmt, stmtPlaces, Stmt.operands, placesEach_append, placesEach, List.append_nil]
    have hpre := warrantedRun_followedBy hpreI hpreV
    -- The indices are hoisted before the value, into one run that precedes the assignment.
    rw [← execAll_append] at hpre
    refine warrantedRun_stmt rfl hpre (hindices.mono fun _ => List.mem_append_left _) fun _ => ?_
    refine obeys_bind (hvalue.mono fun p hp => by simp [hp]) fun _ => ?_
    refine obeys_bind obeys_state fun _ => obeys_bind (warrantedRun_ofExcept _) fun _ => ?_
    exact obeys_bind (warrantedRun_mark (by simp)) fun _ =>
      obeys_bind (obeys_changeStore _) fun _ => obeys_pure _
  | .exit pos none, t => obeys_followedBy (obeys_pure _) (obeys_pure _)
  | .exit pos (some value), t => by
    obtain ⟨hpre, hvalue⟩ := warrantedRun_hoist w scope value t
    simp only [hoistStmt, stmtPlaces, Stmt.operands, Option.toList, placesEach, List.append_nil]
    exact warrantedRun_stmt rfl hpre hvalue fun _ => obeys_pure _
  | .branch pos condition yes no, t => by
    obtain ⟨hpre, hcondition⟩ := warrantedRun_hoist w scope condition t
    have hyes := warrantedRun_hoistBody w scope yes (hoist scope condition t).2.2
    have hno := warrantedRun_hoistBody w scope no
      (hoistBody scope yes (hoist scope condition t).2.2).2
    simp only [hoistStmt, stmtPlaces, execAll_append]
    have hC : ∀ p ∈ places condition, p ∈ { pos, role := .branch }
        :: (places condition ++ bodyPlaces yes ++ bodyPlaces no) := by
      intro p hp
      simp [hp]
    refine obeys_followedBy (hpre.mono hC) (obeys_followedBy ?_ (obeys_pure _))
    refine warrantedRun_branch (hcondition.mono hC) (hyes.mono ?_) (hno.mono ?_) (by simp)
    · intro p hp
      simp [hp]
    · intro p hp
      simp [hp]
  | .throw pos message, t => by
    obtain ⟨hpre, hvalue⟩ := warrantedRun_hoist w scope message t
    simp only [hoistStmt, stmtPlaces, Stmt.operands, placesEach, List.append_nil]
    refine warrantedRun_stmt rfl hpre hvalue fun _ => ?_
    exact obeys_bind (warrantedRun_mark (by simp)) fun _ => obeys_pure _
  | .emit pos event args, t => by
    obtain ⟨hpre, hvalue⟩ := warrantedRun_hoistEach w scope args t
    simp only [hoistStmt, stmtPlaces, Stmt.operands]
    refine warrantedRun_stmt rfl hpre hvalue fun _ => ?_
    exact obeys_bind (warrantedRun_mark (by simp)) fun _ =>
      obeys_bind (obeys_changeStore _) fun _ => obeys_pure _
  | .evaluate pos value, t => by
    obtain ⟨hpre, hvalue⟩ := warrantedRun_hoist w scope value t
    simp only [hoistStmt, stmtPlaces, Stmt.operands, placesEach, List.append_nil]
    exact warrantedRun_stmt rfl hpre hvalue fun _ => obeys_pure _
  | .skip pos, t => obeys_followedBy (obeys_pure _) (obeys_pure _)

/-- The same for a body. -/
theorem warrantedRun_hoistBody (w : World) (scope : Scope) : ∀ (body : List Stmt) (t : Temps),
    WarrantedRun (bodyPlaces body) (execAll w (hoistBody scope body t).1)
  | [], t => obeys_pure _
  | s :: rest, t => by
    have hs := warrantedRun_hoistStmt w scope s t
    have hrest := warrantedRun_hoistBody w scope rest (hoistStmt scope s t).2
    simp only [hoistBody, bodyPlaces, execAll_append]
    exact warrantedRun_followedBy hs hrest
end

/-! ## Main statements -/

/-- **The second branch of a conditional does not wait for the condition.** Once the statements that
were taken out of the condition have run, what was taken out of the second branch runs and the
branch is evaluated, whatever the condition is. All else that is done for the conditional is done
behind that. -/
theorem second_branch_evaluated {w : World} {scope : Scope} {pos : Position}
    {condition yes no c y n : Expr} {preC preY preN : List Stmt} {t tC tY tN : Temps} {s : State}
    (hcondition : hoist scope condition t = (preC, c, tC))
    (hyes : hoist scope yes tC = (preY, y, tY)) (hno : hoist scope no tY = (preN, n, tN))
    (hC : ((execAll w preC).run s).outcome = .ok .next)
    (hN : ((execAll w preN).run ((execAll w preC).run s).state).outcome = .ok .next) :
    ((execAll w preC).run s).trace
        ++ ((execAll w preN >>= fun _ => eval w n).run ((execAll w preC).run s).state).trace
      <+: ((execAll w (hoist scope (.conditional pos condition yes no) t).1).run s).trace := by
  simp only [hoist, hcondition, hyes, hno]
  rw [List.append_assoc, execAll_append, execAll_append, trace_followedBy_of_next hC,
    trace_followedBy_of_next hN, run_bind, andThen_of_ok hN]
  refine (List.prefix_append_right_inj _).2 ((List.prefix_append_right_inj _).2 ?_)
  -- the temporary is declared with the second branch
  exact (trace_prefix_declare w pos _ _ n _).trans (trace_prefix_bind _ _ _)

/-- **Only the first branch of a conditional waits for its condition.** In every run of a statement
without its conditionals, a mark belongs to a place of the statement such that the condition of
every conditional in whose first branch the place stands was found not to be zero before. A
condition that is tested is that of a branch, or of a conditional whose second branch was evaluated
before. -/
theorem normalize_selects (w : World) (scope : Scope) (next : Nat) (stmt : Stmt) (s : State)
    {before after : List Mark} {m : Mark}
    (htrace : ((execAll w (normalize scope next stmt).1).run s).trace = before ++ m :: after) :
    ∃ p ∈ stmtPlaces stmt, p.pos = m.pos
      ∧ (∀ c ∈ p.chosen, ∃ v : Word, v ≠ 0 ∧ ⟨c, .tested v⟩ ∈ before)
      ∧ ∀ v, m.deed = .tested v →
        p.role = .branch ∨ ∃ second, p.role = .choice second ∧ ⟨second, .entered⟩ ∈ before := by
  obtain ⟨p, hp, hpos, hchosen, hready⟩ :=
    (warrantedRun_hoistStmt w scope stmt { next } s []).at htrace
  refine ⟨p, hp, hpos, hchosen, fun v hv => ?_⟩
  have hrole := hready v hv
  cases h : p.role with
  | plain => rw [h] at hrole; exact hrole.elim
  | branch => exact Or.inl rfl
  | choice second => rw [h] at hrole; exact Or.inr ⟨second, rfl, hrole⟩

/-! ## A run of a conditional -/

/-- A conditional on the executing contract, with a call in each branch. Every part stands on a line
of its own. -/
def twoCalls : Stmt :=
  .evaluate { line := 1 }
    (.conditional { line := 2 } (.this { line := 3 })
      (.call { line := 4 } "first" (.this { line := 5 }) [])
      (.call { line := 6 } "second" (.this { line := 7 }) []))

/-- What is done before the call in the first branch: the second branch is evaluated, then the
condition is tested. -/
def beforeFirstCall : List Mark :=
  [⟨{ line := 6 }, .entered⟩, ⟨{ line := 7 }, .entered⟩, ⟨{ line := 6 }, .called "second"⟩,
    ⟨{ line := 3 }, .entered⟩, ⟨{ line := 2 }, .tested 1⟩, ⟨{ line := 4 }, .entered⟩,
    ⟨{ line := 5 }, .entered⟩]

theorem normalize_selects_twoCalls :
    ((execAll (quietWorld 1) (normalize {} 0 twoCalls).1).run blankState).trace
        = beforeFirstCall ++ ⟨{ line := 4 }, .called "first"⟩ :: [⟨{ line := 2 }, .entered⟩]
      ∧ ∃ p ∈ stmtPlaces twoCalls, p.pos = { line := 4 }
        ∧ ∀ c ∈ p.chosen, ∃ v : Word, v ≠ 0 ∧ ⟨c, .tested v⟩ ∈ beforeFirstCall := by
  have htrace : ((execAll (quietWorld 1) (normalize {} 0 twoCalls).1).run blankState).trace
      = beforeFirstCall ++ ⟨{ line := 4 }, .called "first"⟩ :: [⟨{ line := 2 }, .entered⟩] := by
    rfl
  obtain ⟨p, hp, hpos, hchosen, -⟩ :=
    normalize_selects (quietWorld 1) {} 0 twoCalls blankState htrace
  exact ⟨htrace, p, hp, hpos, hchosen⟩

/-- **The second branch does not wait.** Where the condition is not zero, the call in the second
branch is made all the same. -/
theorem normalize_runs_second :
    ¬ ∀ (w : World) (scope : Scope) (next : Nat) (stmt : Stmt) (s : State)
        (before after : List Mark) (m : Mark),
      ((execAll w (normalize scope next stmt).1).run s).trace = before ++ m :: after →
        ∃ p ∈ stmtPlaces stmt, p.pos = m.pos
          ∧ (∀ c ∈ p.chosen, ∃ v : Word, v ≠ 0 ∧ ⟨c, .tested v⟩ ∈ before)
          ∧ ∀ c ∈ p.refused, ⟨c, .tested 0⟩ ∈ before := by
  intro h
  obtain ⟨p, hp, hpos, -, hrefused⟩ := h (quietWorld 1) {} 0 twoCalls blankState
    [⟨{ line := 6 }, .entered⟩, ⟨{ line := 7 }, .entered⟩] _ ⟨{ line := 6 }, .called "second"⟩ rfl
  have hplace : ∀ p ∈ stmtPlaces twoCalls, p.pos = { line := 6 } →
      { line := 2 } ∈ p.refused := by
    decide
  have htested := hrefused _ (hplace p hp hpos)
  simp at htested

end Execution

end Covenant
