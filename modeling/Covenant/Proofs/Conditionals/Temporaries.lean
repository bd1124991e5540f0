import Covenant.Proofs.Execution.Run
import Covenant.Resolve.Conditionals

/-!
# Temporaries

The names that are still to be handed out as temporaries, counted from a number on. Two states agree
up to those names if they differ in nothing else; a state grows by temporaries if nothing but
declarations of them is added to it. A run that only reads does the same in states that agree, and
leaves every state as it is.
-/

namespace Covenant

namespace Execution

open Resolve Run

/-! ## Names -/

/-- No two temporaries have one name. -/
theorem nameOf_injective {m n : Nat} (h : Temps.nameOf m = Temps.nameOf n) : m = n :=
  Text.append_toString_injective h

/-- **A name is still to be handed out** as a temporary, counted from a number on. -/
def Later (n : Nat) (name : String) : Prop :=
  ∃ k, n ≤ k ∧ name = Temps.nameOf k

/-- What is still to be handed out later was so before. -/
theorem Later.of_le {m n : Nat} {name : String} (hmn : m ≤ n) (h : Later n name) :
    Later m name := by
  obtain ⟨k, hk, hname⟩ := h
  exact ⟨k, by omega, hname⟩

/-- A temporary that was handed out is not handed out again. -/
theorem not_later_nameOf {k n : Nat} (h : k < n) : ¬ Later n (Temps.nameOf k) := by
  rintro ⟨j, hj, hname⟩
  have := nameOf_injective hname
  omega

/-! ## States that agree -/

/-- **Two states agree** up to the temporaries from a number on. -/
def Agree (n : Nat) (s t : State) : Prop :=
  s.store = t.store ∧ ∀ name, ¬ Later n name → s.locals.get? name = t.locals.get? name

namespace Agree

variable {m n : Nat} {s t u : State}

theorem refl (n : Nat) (s : State) : Agree n s s :=
  ⟨rfl, fun _ _ => rfl⟩

theorem trans (h : Agree n s t) (h' : Agree n t u) : Agree n s u :=
  ⟨h.1.trans h'.1, fun name hname => (h.2 name hname).trans (h'.2 name hname)⟩

/-- States still agree where more names do not count. -/
theorem of_le (hmn : m ≤ n) (h : Agree n s t) : Agree m s t :=
  ⟨h.1, fun name hname => h.2 name fun hlater => hname (hlater.of_le hmn)⟩

/-- Beginning a block changes the meaning of no name. -/
theorem enter (n : Nat) (s : State) : Agree n s { s with locals := s.locals.enter } :=
  ⟨rfl, fun name _ => (s.locals.get?_enter name).symm⟩

end Agree

/-- **A state has grown** by declarations of the temporaries from one number up to another. -/
def Grown (lo hi : Nat) (s t : State) : Prop :=
  ∃ added : Table Value, t = { s with locals := s.locals.declareAll added }
    ∧ ∀ entry ∈ added, ∃ k, lo ≤ k ∧ k < hi ∧ entry.1 = Temps.nameOf k

namespace Grown

variable {lo mid hi : Nat} {s t u : State}

theorem refl (n : Nat) (s : State) : Grown n n s s :=
  ⟨[], rfl, fun _ h => absurd h List.not_mem_nil⟩

theorem widen {lo' hi' : Nat} (h : Grown lo hi s t) (hlo : lo' ≤ lo) (hhi : hi ≤ hi') :
    Grown lo' hi' s t := by
  obtain ⟨added, ht, hnames⟩ := h
  refine ⟨added, ht, fun entry hentry => ?_⟩
  obtain ⟨k, h1, h2, h3⟩ := hnames entry hentry
  exact ⟨k, by omega, by omega, h3⟩

/-- Growth adds up. -/
theorem trans (h : Grown lo hi s t) (h' : Grown lo hi t u) : Grown lo hi s u := by
  obtain ⟨added, rfl, hnames⟩ := h
  obtain ⟨more, rfl, hmore⟩ := h'
  refine ⟨more ++ added, ?_, fun entry hentry => ?_⟩
  · simp only [Locals.declareAll_declareAll]
  · rcases List.mem_append.1 hentry with hentry | hentry
    · exact hmore entry hentry
    · exact hnames entry hentry

/-- One more temporary. -/
theorem declare (n : Nat) (value : Value) (s : State) :
    Grown n (n + 1) s { s with locals := s.locals.declare (Temps.nameOf n) value } := by
  refine ⟨[(Temps.nameOf n, value)], rfl, fun entry hentry => ?_⟩
  rw [List.mem_singleton.1 hentry]
  exact ⟨n, by omega, by omega, rfl⟩

/-- Growth is not seen up to the temporaries it declares. -/
theorem agree (h : Grown lo hi s t) : Agree lo s t := by
  obtain ⟨added, rfl, hnames⟩ := h
  refine ⟨rfl, fun name hname => ?_⟩
  refine (Locals.get?_declareAll_of_not_mem fun entry hentry he => hname ?_).symm
  obtain ⟨k, hk, -, hkname⟩ := hnames entry hentry
  exact ⟨k, hk, by rw [← he, hkname]⟩

end Grown

/-! ## Runs that only read -/

/-- **A run only reads**, and sees nothing of the temporaries from a number on. -/
def Reads {α : Type} (n : Nat) (x : Run α) : Prop :=
  ∀ s, (x.run s).state = s ∧ ∀ t, Agree n s t → (x.run s).outcome = (x.run t).outcome

section Reads

variable {α β : Type} {m n : Nat}

/-- A run that sees none of some temporaries sees none of fewer. -/
theorem Reads.of_le (hmn : m ≤ n) {x : Run α} (h : Reads m x) : Reads n x :=
  fun s => ⟨(h s).1, fun t hst => (h s).2 t (hst.of_le hmn)⟩

theorem Reads.outcome_eq {x : Run α} {s t : State} (h : Reads n x) (hst : Agree n s t) :
    (x.run s).outcome = (x.run t).outcome :=
  (h s).2 t hst

theorem reads_pure (a : α) : Reads n (pure a : Run α) :=
  fun _ => ⟨rfl, fun _ _ => rfl⟩

theorem reads_mark (pos : Position) (deed : Deed) : Reads n (mark pos deed) :=
  fun _ => ⟨rfl, fun _ _ => rfl⟩

theorem reads_ofExcept (pos : Position) (r : Except Panic α) : Reads n (ofExcept pos r) := by
  cases r with
  | ok a => exact reads_pure a
  | error panic => exact fun _ => ⟨rfl, fun _ _ => rfl⟩

/-- **Two runs that only read, one after the other, only read.** -/
theorem reads_bind {x : Run α} {f : α → Run β} (hx : Reads n x) (hf : ∀ a, Reads n (f a)) :
    Reads n (x >>= f) := by
  intro s
  have hstate := (hx s).1
  cases hxs : (x.run s).outcome with
  | error panic =>
    refine ⟨by rw [run_bind, andThen_of_error hxs, hstate], fun t hst => ?_⟩
    have hxt : (x.run t).outcome = .error panic := by rw [← hx.outcome_eq hst, hxs]
    rw [run_bind, run_bind, andThen_of_error hxs, andThen_of_error hxt]
  | ok a =>
    refine ⟨by rw [state_bind hxs, hstate, (hf a s).1], fun t hst => ?_⟩
    have hxt : (x.run t).outcome = .ok a := by rw [← hx.outcome_eq hst, hxs]
    rw [outcome_bind hxs, outcome_bind hxt, hstate, (hx t).1, (hf a).outcome_eq hst]

/-- What follows a run that only reads starts in the same state. -/
theorem Reads.outcome_bind_eq_ok {x : Run α} (hx : Reads n x) {f : α → Run β} {s : State} {b : β} :
    ((x >>= f).run s).outcome = .ok b
      ↔ ∃ a, (x.run s).outcome = .ok a ∧ ((f a).run s).outcome = .ok b := by
  rw [Execution.outcome_bind_eq_ok, (hx s).1]

/-- Behind a run that only reads the next one starts where it did. -/
theorem Reads.state_bind {x : Run α} (hx : Reads n x) {f : α → Run β} {s : State} {a : α}
    (ha : (x.run s).outcome = .ok a) : ((x >>= f).run s).state = ((f a).run s).state := by
  rw [Execution.state_bind ha, (hx s).1]

/-- Looking at the state is reading, if what is done with it depends on what is seen. -/
theorem reads_state {f : State → Run α} (hf : ∀ s, Reads n (f s))
    (hsee : ∀ s t, Agree n s t → f s = f t) : Reads n (state >>= f) :=
  fun s => ⟨(hf s s).1, fun t hst => by
    rw [outcome_bind rfl, outcome_bind rfl, ← hsee s t hst]
    exact (hf s).outcome_eq hst⟩

end Reads

end Execution

end Covenant
