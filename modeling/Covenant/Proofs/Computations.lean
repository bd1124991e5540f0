import Mathlib.Data.List.Forall2

/-!
# Computations that may fail

What a computation that may fail has done if it did not: every step of it succeeded, and what each
step keeps the whole has kept. What it fails with is what one of its steps fails with, so that what
is known of the failures of all steps is known of those of the whole.

Two computations are paired by a relation where either both succeed, with results that are related,
or neither does; why they fail does not count. Pairs go through whatever computations are put
together by: a step after another one, a check, and a step for each item of a list. So what is shown
of the parts of two computations is shown of the two.
-/

namespace Covenant

/-! ## Success -/

section Success

variable {ε α β σ : Type}

/-- Two checked steps succeed if both do. -/
theorem bind_eq_ok {x : Except ε α} {f : α → Except ε β} {b : β} :
    (x >>= f) = .ok b ↔ ∃ a, x = .ok a ∧ f a = .ok b := by
  cases x with
  | ok a => simp [bind, Except.bind]
  | error e => simp [bind, Except.bind]

@[simp] theorem pure_eq_ok {a b : α} : (pure a : Except ε α) = .ok b ↔ a = b := by
  simp [pure, Except.pure]

@[simp] theorem ok_bind {a : α} {f : α → Except ε β} : (Except.ok a >>= f) = f a :=
  rfl

@[simp] theorem map_ok {a : α} {f : α → β} : f <$> (.ok a : Except ε α) = .ok (f a) :=
  rfl

@[simp] theorem throw_ne_ok {e : ε} {a : α} : (throw e : Except ε α) ≠ .ok a := by
  simp [throw, throwThe, MonadExceptOf.throw]

theorem toOption_eq_some {x : Except ε α} {a : α} : x.toOption = some a ↔ x = .ok a := by
  cases x <;> simp [Except.toOption]

theorem mapError_eq_ok {δ : Type} {x : Except ε α} {f : ε → δ} {a : α} :
    x.mapError f = .ok a ↔ x = .ok a := by
  cases x <;> simp [Except.mapError]

/-- A failed check ends the computation. -/
theorem check_eq_ok {p : Prop} [Decidable p] {e : ε} {f : α → Except ε β} {x : Except ε β}
    {b : β} : (if p then throw e >>= f else x) = .ok b ↔ ¬ p ∧ x = .ok b := by
  by_cases hp : p
  · simp [hp, bind, Except.bind, throw, throwThe, MonadExceptOf.throw]
  · simp [hp]

/-- Going through a list succeeds exactly where every item gives its result. -/
theorem mapM_eq_ok {f : α → Except ε β} {as : List α} {bs : List β} :
    as.mapM f = .ok bs ↔ List.Forall₂ (fun a b => f a = .ok b) as bs := by
  induction as generalizing bs with
  | nil => cases bs <;> simp
  | cons a as ih =>
    rw [List.mapM_cons, bind_eq_ok]
    constructor
    · rintro ⟨b, hb, hrest⟩
      obtain ⟨bs', hbs', hpure⟩ := bind_eq_ok.1 hrest
      rw [← pure_eq_ok.1 hpure]
      exact .cons hb (ih.1 hbs')
    · intro h
      cases h with
      | cons hb hbs => exact ⟨_, hb, bind_eq_ok.2 ⟨_, ih.2 hbs, rfl⟩⟩

theorem mapM_some_eq_ok {f : α → Except ε β} {a : α} {r : Option β} :
    (some a).mapM f = .ok r ↔ ∃ b, f a = .ok b ∧ r = some b := by
  have hmap : (some a).mapM f = some <$> f a := rfl
  rw [hmap]
  cases h : f a with
  | ok b => simp [Functor.map, Except.map, eq_comm]
  | error e => simp [Functor.map, Except.map]

/-- Where two lists go together item by item, each item of the first has its partner. -/
theorem exists_of_mem_left {R : α → β → Prop} {as : List α} {bs : List β} {a : α}
    (h : List.Forall₂ R as bs) (ha : a ∈ as) : ∃ b ∈ bs, R a b := by
  induction h with
  | nil => cases ha
  | cons hab _ ih =>
    rcases List.mem_cons.1 ha with rfl | ha
    · exact ⟨_, List.mem_cons_self, hab⟩
    · obtain ⟨b, hb, hR⟩ := ih ha
      exact ⟨b, List.mem_cons_of_mem _ hb, hR⟩

theorem exists_of_mem_right {R : α → β → Prop} {as : List α} {bs : List β} {b : β}
    (h : List.Forall₂ R as bs) (hb : b ∈ bs) : ∃ a ∈ as, R a b :=
  exists_of_mem_left h.flip hb

/-- Where partners have the same under two views, the lists have the same. -/
theorem map_eq_of_forall₂ {γ : Type} {R : α → β → Prop} {f : α → γ} {g : β → γ} {as : List α}
    {bs : List β} (h : List.Forall₂ R as bs) (hR : ∀ a b, R a b → f a = g b) :
    as.map f = bs.map g := by
  induction h with
  | nil => rfl
  | cons hab _ ih => rw [List.map_cons, List.map_cons, ih, hR _ _ hab]

/-- What every step of a fold keeps, together with the items gone through, the fold keeps. -/
theorem foldlM_tracks {step : σ → α → Except ε σ} {as : List α} {s t : σ}
    (tracks : List α → σ → Prop) (done : List α)
    (hstep : ∀ done, ∀ a ∈ as, ∀ s t, tracks done s → step s a = .ok t → tracks (done ++ [a]) t)
    (hs : tracks done s) (h : as.foldlM step s = .ok t) : tracks (done ++ as) t := by
  induction as generalizing done s with
  | nil =>
    cases h
    rwa [List.append_nil]
  | cons a as ih =>
    rw [List.foldlM_cons] at h
    obtain ⟨u, hu, hrest⟩ := bind_eq_ok.1 h
    rw [List.append_cons]
    exact ih _ (fun done b hb => hstep done b (List.mem_cons_of_mem _ hb))
      (hstep done a List.mem_cons_self s u hs hu) hrest

/-- What every step of a fold keeps, the fold keeps. -/
theorem foldlM_keeps {step : σ → α → Except ε σ} {as : List α} {s t : σ} (keeps : σ → Prop)
    (hstep : ∀ a ∈ as, ∀ s t, keeps s → step s a = .ok t → keeps t) (hs : keeps s)
    (h : as.foldlM step s = .ok t) : keeps t :=
  foldlM_tracks (fun _ => keeps) [] (fun _ => hstep) hs h

/-- A fold succeeds where every step succeeds, in any state that the steps keep. -/
theorem exists_foldlM {step : σ → α → Except ε σ} {as : List α} {s : σ} (keeps : σ → Prop)
    (hstep : ∀ a ∈ as, ∀ s, keeps s → ∃ t, step s a = .ok t ∧ keeps t) (hs : keeps s) :
    ∃ t, as.foldlM step s = .ok t ∧ keeps t := by
  induction as generalizing s with
  | nil => exact ⟨s, rfl, hs⟩
  | cons a as ih =>
    obtain ⟨u, hu, hkeeps⟩ := hstep a List.mem_cons_self s hs
    rw [List.foldlM_cons, hu]
    exact ih (fun b hb => hstep b (List.mem_cons_of_mem _ hb)) hkeeps

end Success

/-! ## Failure -/

section Failure

variable {ε α β : Type} {P : ε → Prop}

/-- **A computation fails only in ways that have a property**, if it fails. -/
def FailsWith (P : ε → Prop) (x : Except ε α) : Prop :=
  ∀ e, x = .error e → P e

@[simp] theorem failsWith_ok {a : α} : FailsWith P (.ok a : Except ε α) :=
  fun _ h => nomatch h

@[simp] theorem failsWith_pure {a : α} : FailsWith P (pure a : Except ε α) :=
  failsWith_ok

@[simp] theorem failsWith_error {e : ε} : FailsWith P (.error e : Except ε α) ↔ P e :=
  ⟨fun h => h e rfl, by rintro h _ ⟨⟩; exact h⟩

@[simp] theorem failsWith_throw {e : ε} : FailsWith P (throw e : Except ε α) ↔ P e :=
  failsWith_error

namespace FailsWith

/-- A step after another one. -/
theorem bind {x : Except ε α} {f : α → Except ε β} (h : FailsWith P x)
    (hstep : ∀ a, x = .ok a → FailsWith P (f a)) : FailsWith P (x >>= f) := by
  cases x with
  | ok a => exact hstep a rfl
  | error e => exact failsWith_error.2 (failsWith_error.1 h)

/-- A step for each item of a list. -/
theorem mapM {f : α → Except ε β} {as : List α} (h : ∀ a ∈ as, FailsWith P (f a)) :
    FailsWith P (as.mapM f) := by
  induction as with
  | nil => exact failsWith_ok
  | cons a rest ih =>
    rw [List.forall_mem_cons] at h
    rw [List.mapM_cons]
    exact h.1.bind fun _ _ => (ih h.2).bind fun _ _ => failsWith_pure

/-- A check of each item of a list. -/
theorem forM {f : α → Except ε PUnit} {as : List α} (h : ∀ a ∈ as, FailsWith P (f a)) :
    FailsWith P (as.forM f) := by
  induction as with
  | nil => exact failsWith_ok
  | cons a rest ih =>
    rw [List.forall_mem_cons] at h
    exact h.1.bind fun _ _ => ih h.2

end FailsWith

end Failure

/-! ## Two computations -/

section Pairs

variable {ε α β γ δ : Type}

/-- **Two computations are paired**: both succeed with related results, or neither does. -/
def Paired (R : α → β → Prop) : Except ε α → Except ε β → Prop
  | .ok a, .ok b => R a b
  | .error _, .error _ => True
  | _, _ => False

variable {R : α → β → Prop} {S : γ → δ → Prop} {x : Except ε α} {y : Except ε β}

@[simp] theorem paired_ok {a : α} {b : β} :
    Paired R (.ok a : Except ε α) (.ok b : Except ε β) ↔ R a b :=
  .rfl

@[simp] theorem paired_error {e e' : ε} :
    Paired R (.error e : Except ε α) (.error e' : Except ε β) :=
  trivial

@[simp] theorem paired_throw {e e' : ε} :
    Paired R (throw e : Except ε α) (throw e' : Except ε β) :=
  trivial

@[simp] theorem paired_pure {a : α} {b : β} :
    Paired R (pure a : Except ε α) (pure b : Except ε β) ↔ R a b :=
  .rfl

/-- What is paired succeeds on both sides or on neither. -/
theorem paired_iff :
    Paired R x y ↔ (∀ a, x = .ok a → ∃ b, y = .ok b ∧ R a b) ∧
      ∀ b, y = .ok b → ∃ a, x = .ok a ∧ R a b := by
  cases x <;> cases y <;> simp [Paired]

namespace Paired

theorem exists_right (h : Paired R x y) {a : α} (hx : x = .ok a) : ∃ b, y = .ok b ∧ R a b :=
  (paired_iff.1 h).1 a hx

theorem refl (x : Except ε α) : Paired (· = ·) x x := by
  cases x <;> simp

theorem mono {R' : α → β → Prop} (h : Paired R x y) (hR : ∀ a b, R a b → R' a b) :
    Paired R' x y := by
  cases x <;> cases y <;> first | exact hR _ _ h | exact h.elim | trivial

/-- Two computations that are paired with a third one. -/
theorem join {R' : γ → β → Prop} {z : Except ε γ} (h : Paired R x y) (h' : Paired R' z y) :
    Paired (fun a c => ∃ b, R a b ∧ R' c b) x z := by
  cases x <;> cases y <;> cases z <;>
    first | exact ⟨_, h, h'⟩ | exact h.elim | exact h'.elim | trivial

/-- A step after another one. -/
theorem bind {f : α → Except ε γ} {g : β → Except ε δ} (h : Paired R x y)
    (hstep : ∀ a b, R a b → Paired S (f a) (g b)) : Paired S (x >>= f) (y >>= g) := by
  cases x <;> cases y <;> first | exact hstep _ _ h | exact h.elim | trivial

/-- A step that is the same on both sides. -/
theorem bind_same {x : Except ε α} {f : α → Except ε γ} {g : α → Except ε δ}
    (hstep : ∀ a, Paired S (f a) (g a)) : Paired S (x >>= f) (x >>= g) :=
  (refl x).bind fun a _ h => h ▸ hstep a

/-- A result that is put into another form. -/
theorem map {f : α → γ} {g : β → δ} (h : Paired R x y) (hR : ∀ a b, R a b → S (f a) (g b)) :
    Paired S (x.map f) (y.map g) := by
  cases x <;> cases y <;> first | exact hR _ _ h | exact h.elim | trivial

/-- A choice that goes the same way on both sides. -/
theorem ite {p q : Prop} [Decidable p] [Decidable q] {x' : Except ε α} {y' : Except ε β}
    (hpq : p ↔ q) (h : p → Paired R x y) (h' : ¬ p → Paired R x' y') :
    Paired R (if p then x else x') (if q then y else y') := by
  by_cases hp : p
  · rw [if_pos hp, if_pos (hpq.1 hp)]
    exact h hp
  · rw [if_neg hp, if_neg (mt hpq.2 hp)]
    exact h' hp

/-- A check that goes the same way on both sides. -/
theorem check {p q : Prop} [Decidable p] [Decidable q] {e e' : ε} {f : γ → Except ε α}
    {g : δ → Except ε β} (hpq : p ↔ q) (h : ¬ p → Paired R x y) :
    Paired R (if p then throw e >>= f else x) (if q then throw e' >>= g else y) :=
  ite hpq (fun _ => trivial) h

/-- A step for each item of a list. -/
theorem foldlM {f : α → γ → Except ε α} {g : β → γ → Except ε β} {cs : List γ} {a : α} {b : β}
    (hstep : ∀ c a b, R a b → Paired R (f a c) (g b c)) (hab : R a b) :
    Paired R (cs.foldlM f a) (cs.foldlM g b) := by
  induction cs generalizing a b with
  | nil => exact hab
  | cons c rest ih =>
    rw [List.foldlM_cons, List.foldlM_cons]
    exact (hstep c a b hab).bind fun _ _ => ih

theorem mapM {f : γ → Except ε α} {g : δ → Except ε β} {cs : List γ} {ds : List δ}
    (h : List.Forall₂ (fun c d => Paired R (f c) (g d)) cs ds) :
    Paired (List.Forall₂ R) (cs.mapM f) (ds.mapM g) := by
  induction h with
  | nil => exact .nil
  | cons hcd _ ih =>
    rw [List.mapM_cons, List.mapM_cons]
    exact hcd.bind fun _ _ hab => ih.bind fun _ _ hrest => .cons hab hrest

end Paired

end Pairs

end Covenant
