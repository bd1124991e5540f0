import Covenant.Source.Grammar

/-!
# What a reading has found

`Grammar.Matches` says what a grammar makes of a row of tokens, whatever the order in which parts of
it are tried; `P` says it of the productions. A reading keeps to it: what it finds is a value of the
tokens between the state in which it started and the one in which it ended (`Finds`), also where it
tried other parts before. For each way to put grammars together there is one step; the productions
follow by induction on the depth of the reading.

Main statement: if each production stands for what its grammar matches, then a reading that succeeds
gives a value of all the tokens (`readAll_eq_ok`).
-/

namespace Covenant

namespace Source

/-- Where some tokens start, in front of something that starts at `next`. -/
def startOf (next : Position) : List Token → Position
  | [] => next
  | t :: _ => t.pos

@[simp] theorem startOf_nil (next : Position) : startOf next [] = next :=
  rfl

@[simp] theorem startOf_cons (next : Position) (t : Token) (ts : List Token) :
    startOf next (t :: ts) = t.pos :=
  rfl

/-- Tokens start where the first of them does. -/
theorem startOf_append (next : Position) (us vs : List Token) :
    startOf next (us ++ vs) = startOf (startOf next vs) us := by
  cases us <;> rfl

/-- Values that stand for pieces of a row of tokens, one behind the other. -/
inductive Repeated {α : Type} (R : List Token → Position → α → Prop) :
    List Token → Position → List α → Prop
  | nil {next : Position} : Repeated R [] next []
  | cons {us vs : List Token} {next : Position} {a : α} {as : List α}
      (head : R us (startOf next vs) a) (tail : Repeated R vs next as) :
      Repeated R (us ++ vs) next (a :: as)

section Matches

variable {N : Type → Type} (P : {α : Type} → N α → List Token → Position → α → Prop)

mutual
/-- **What a grammar makes of a row of tokens**, given what its productions do. -/
def Grammar.Matches {α : Type} (g : Grammar N α) (ts : List Token) (next : Position) (a : α) :
    Prop :=
  match g with
  | .token accept => ∃ t, ts = [t] ∧ accept t = some a
  | .seq first second =>
    ∃ us vs, ts = us ++ vs ∧ first.Matches us (startOf next vs) a.1 ∧ second.Matches vs next a.2
  | .opt body => (ts = [] ∧ a = none) ∨ ∃ b, body.Matches ts next b ∧ a = some b
  | .star body => Repeated body.Matches ts next a
  | .choice alternatives => alternatives.Matches ts next a
  | .map f body => ∃ b, body.Matches ts next b ∧ f b = a
  | .node name => P name ts next a

/-- One of several grammars makes a value of a row of tokens. -/
def Alternatives.Matches {α : Type} (alternatives : Alternatives N α) (ts : List Token)
    (next : Position) (a : α) : Prop :=
  match alternatives with
  | .none => False
  | .cons head tail => head.Matches ts next a ∨ tail.Matches ts next a
end

end Matches

section Takes

variable {N : Type → Type} (takes : {α : Type} → N α → Prop)

mutual
/-- **The grammar takes a token at least**, where those productions do of which it is known. -/
def Grammar.Takes {α : Type} (g : Grammar N α) : Prop :=
  match g with
  | .token _ => True
  | .seq first second => first.Takes ∨ second.Takes
  | .opt _ => False
  | .star _ => False
  | .choice alternatives => alternatives.Takes
  | .map _ body => body.Takes
  | .node name => takes name

/-- Each of several grammars takes a token at least. -/
def Alternatives.Takes {α : Type} (alternatives : Alternatives N α) : Prop :=
  match alternatives with
  | .none => True
  | .cons head tail => head.Takes ∧ tail.Takes
end

variable {takes} {P : {α : Type} → N α → List Token → Position → α → Prop}

mutual
/-- **A grammar that takes a token matches one at least.** -/
theorem Grammar.ne_nil_of_matches {α : Type}
    (hP : ∀ {α : Type} (name : N α) (ts : List Token) (next : Position) (a : α),
      takes name → P name ts next a → ts ≠ [])
    (g : Grammar N α) {ts : List Token} {next : Position} {a : α} (htakes : g.Takes takes)
    (h : g.Matches P ts next a) : ts ≠ [] := by
  match g with
  | .token accept =>
    obtain ⟨t, rfl, -⟩ := h
    exact List.cons_ne_nil t []
  | .seq first second =>
    obtain ⟨us, vs, rfl, hfirst, hsecond⟩ := h
    rcases htakes with htakes | htakes
    · exact List.append_ne_nil_of_left_ne_nil (first.ne_nil_of_matches hP htakes hfirst) vs
    · exact List.append_ne_nil_of_right_ne_nil us (second.ne_nil_of_matches hP htakes hsecond)
  | .choice alternatives => exact alternatives.ne_nil_of_matches hP htakes h
  | .map f body =>
    obtain ⟨b, h, -⟩ := h
    exact body.ne_nil_of_matches hP htakes h
  | .node name => exact hP name ts next a htakes h

theorem Alternatives.ne_nil_of_matches {α : Type}
    (hP : ∀ {α : Type} (name : N α) (ts : List Token) (next : Position) (a : α),
      takes name → P name ts next a → ts ≠ [])
    (alternatives : Alternatives N α) {ts : List Token} {next : Position} {a : α}
    (htakes : alternatives.Takes takes) (h : alternatives.Matches P ts next a) : ts ≠ [] := by
  match alternatives with
  | .cons head tail =>
    rcases h with h | h
    · exact head.ne_nil_of_matches hP htakes.1 h
    · exact tail.ne_nil_of_matches hP htakes.2 h
end

end Takes

/-! ## One reading -/

namespace ReadState

@[simp] theorem record_rest (s : ReadState) (e : SyntaxError) : (s.record e).rest = s.rest := by
  unfold record
  split <;> rfl

@[simp] theorem record_finish (s : ReadState) (e : SyntaxError) :
    (s.record e).finish = s.finish := by
  unfold record
  split <;> rfl

@[simp] theorem adopt_rest (s part : ReadState) : (s.adopt part).rest = part.rest := by
  unfold adopt
  split <;> rfl

@[simp] theorem adopt_finish (s part : ReadState) : (s.adopt part).finish = s.finish := by
  unfold adopt
  split <;> rfl

@[simp] theorem learn_rest (s part : ReadState) (e : SyntaxError) :
    (s.learn part e).rest = s.rest := by
  unfold learn
  split
  · rfl
  · split <;> rfl

@[simp] theorem learn_finish (s part : ReadState) (e : SyntaxError) :
    (s.learn part e).finish = s.finish := by
  unfold learn
  split
  · rfl
  · split <;> rfl

/-- A reading stands at the first of the tokens that are left. -/
theorem here_eq (s : ReadState) : s.here = startOf s.finish s.rest := by
  unfold here
  cases s.rest <;> rfl

end ReadState

/-- **What has come of a reading**: nothing was taken, or some tokens of which a value was made. -/
def Finds {α : Type} (R : List Token → Position → α → Prop) (s : ReadState) :
    ReadState × Outcome α → Prop
  | (p, .absent) => p.rest = s.rest ∧ p.finish = s.finish
  | (p, .found a) => ∃ ts, s.rest = ts ++ p.rest ∧ p.finish = s.finish ∧ R ts p.here a
  | (_, .failed _) => True

variable {α β : Type} {s : ReadState}

theorem Finds.mono {R R' : List Token → Position → α → Prop} {r : ReadState × Outcome α}
    (h : Finds R s r) (hR : ∀ ts next a, R ts next a → R' ts next a) : Finds R' s r := by
  obtain ⟨p, _ | a | e⟩ := r
  · exact h
  · obtain ⟨ts, hrest, hfinish, hts⟩ := h
    exact ⟨ts, hrest, hfinish, hR _ _ _ hts⟩
  · trivial

/-- A repetition is never absent: it may be empty. -/
theorem readMany_ne_absent (part : ReadState → ReadState × Outcome α) (limit : Nat)
    (s : ReadState) : (readMany part limit s).2 ≠ .absent := by
  induction limit generalizing s with
  | zero => exact nofun
  | succ limit ih =>
    rw [readMany]
    split
    · exact nofun
    · rename_i p a _
      intro h
      refine ih (s.adopt p) ?_
      cases hmore : (readMany part limit (s.adopt p)).2 with
      | absent => rfl
      | found as => exact absurd ((congrArg (Outcome.map _) hmore).symm.trans h) nofun
      | failed e => exact absurd ((congrArg (Outcome.map _) hmore).symm.trans h) nofun
    · dsimp only
      split <;> exact nofun

/-- Repetition finds values of pieces that stand one behind the other. -/
theorem readMany_finds {R : List Token → Position → α → Prop}
    {part : ReadState → ReadState × Outcome α} (hpart : ∀ s, Finds R s (part s)) (limit : Nat)
    (s : ReadState) : Finds (Repeated R) s (readMany part limit s) := by
  induction limit generalizing s with
  | zero => exact ⟨[], rfl, rfl, .nil⟩
  | succ limit ih =>
    have hs := hpart s
    rw [readMany]
    split
    · rename_i p hp
      rw [hp] at hs
      exact ⟨[], by simp [hs.1], by simp, .nil⟩
    · rename_i p a hp
      rw [hp] at hs
      obtain ⟨us, hrest, hfinish, hus⟩ := hs
      have hmore := ih (s.adopt p)
      have hne := readMany_ne_absent part limit (s.adopt p)
      generalize readMany part limit (s.adopt p) = r at hmore hne
      obtain ⟨q, _ | as | e⟩ := r
      · exact absurd rfl hne
      · obtain ⟨vs, hrest', hfinish', hvs⟩ := hmore
        simp only [ReadState.adopt_rest, ReadState.adopt_finish] at hrest' hfinish'
        refine ⟨us ++ vs, by rw [hrest, hrest', List.append_assoc], hfinish', ?_⟩
        -- what was read first ends where the rest starts
        have hhere : p.here = startOf q.here vs := by
          rw [ReadState.here_eq, ReadState.here_eq, hrest', hfinish, hfinish', startOf_append]
        exact .cons (hhere ▸ hus) hvs
      · trivial
    · dsimp only
      split
      · trivial
      · exact ⟨[], by simp, by simp, .nil⟩

/-- What an optional part finds: nothing, or what the part does. -/
theorem readOptional_finds {R : List Token → Position → α → Prop}
    {part : ReadState → ReadState × Outcome α} (hpart : ∀ s, Finds R s (part s)) (s : ReadState) :
    Finds (fun ts next a => (ts = [] ∧ a = none) ∨ ∃ b, R ts next b ∧ a = some b) s
      (readOptional part s) := by
  have hs := hpart s
  rw [readOptional]
  split
  · rename_i p hp
    rw [hp] at hs
    exact ⟨[], by simp [hs.1], by simp, .inl ⟨rfl, rfl⟩⟩
  · rename_i p a hp
    rw [hp] at hs
    obtain ⟨ts, hrest, hfinish, hts⟩ := hs
    refine ⟨ts, by simpa using hrest, by simp, .inr ⟨a, ?_, rfl⟩⟩
    have hhere : (s.adopt p).here = p.here := by
      rw [ReadState.here_eq, ReadState.here_eq, ReadState.adopt_rest, ReadState.adopt_finish,
        hfinish]
    rwa [hhere]
  · dsimp only
    split
    · trivial
    · exact ⟨[], by simp, by simp, .inl ⟨rfl, rfl⟩⟩

section Run

variable {N : Type → Type} {P : {α : Type} → N α → List Token → Position → α → Prop}
  {production : {α : Type} → N α → ReadState → ReadState × Outcome α}

/-- A sequence finds what its first part does, and behind it what the second does. -/
theorem Grammar.run_seq_finds {R : List Token → Position → α → Prop}
    {R' : List Token → Position → β → Prop} {first : Grammar N α} {second : Grammar N β}
    (hfirst : Finds R s (first.run production s))
    (hsecond : ∀ p a, first.run production s = (p, .found a) →
      Finds R' p (second.run production p)) :
    Finds (fun ts next p => ∃ us vs, ts = us ++ vs ∧ R us (startOf next vs) p.1 ∧ R' vs next p.2) s
      ((Grammar.seq first second).run production s) := by
  rw [Grammar.run]
  generalize first.run production s = r at hfirst hsecond
  obtain ⟨p, _ | a | e⟩ := r
  · exact hfirst
  · obtain ⟨us, hrest, hfinish, hus⟩ := hfirst
    have hsecond := hsecond p a rfl
    dsimp only
    generalize second.run production p = r at hsecond
    obtain ⟨q, _ | b | e⟩ := r
    · trivial
    · obtain ⟨vs, hrest', hfinish', hvs⟩ := hsecond
      refine ⟨us ++ vs, by rw [hrest, hrest', List.append_assoc], hfinish'.trans hfinish, ?_⟩
      have hhere : p.here = startOf q.here vs := by
        rw [ReadState.here_eq, ReadState.here_eq, hrest', hfinish', startOf_append]
      exact ⟨us, vs, rfl, hhere ▸ hus, hvs⟩
    · trivial
  · trivial

/-- A grammar whose result is changed finds what its body does, changed. -/
theorem Grammar.run_map_finds {R : List Token → Position → α → Prop} {f : α → β}
    {body : Grammar N α} (hbody : Finds R s (body.run production s)) :
    Finds (fun ts next b => ∃ a, R ts next a ∧ f a = b) s
      ((Grammar.map f body).run production s) := by
  rw [Grammar.run]
  generalize body.run production s = r at hbody
  obtain ⟨p, _ | a | e⟩ := r
  · exact hbody
  · obtain ⟨ts, hrest, hfinish, hts⟩ := hbody
    exact ⟨ts, hrest, hfinish, a, hts, rfl⟩
  · trivial

/-- A choice finds what the first alternative does, or what one of the others does. -/
theorem Alternatives.run_cons_finds {R R' : List Token → Position → α → Prop}
    {head : Grammar N α} {tail : Alternatives N α} (hhead : Finds R s (head.run production s))
    (htail : ∀ best s, Finds R' s (tail.run production best s))
    (best : Option (SyntaxError × Nat)) :
    Finds (fun ts next a => R ts next a ∨ R' ts next a) s
      ((Alternatives.cons head tail).run production best s) := by
  rw [Alternatives.run]
  generalize head.run production s = r at hhead
  obtain ⟨p, _ | a | e⟩ := r
  · exact (htail best s).mono fun ts next a h => .inr h
  · obtain ⟨ts, hrest, hfinish, hts⟩ := hhead
    refine ⟨ts, by simpa using hrest, by simp, .inl ?_⟩
    have hhere : (s.adopt p).here = p.here := by
      rw [ReadState.here_eq, ReadState.here_eq, ReadState.adopt_rest, ReadState.adopt_finish,
        hfinish]
    rwa [hhere]
  · dsimp only
    split
    · trivial
    · have htail := htail
        (if (best.map Prod.snd).getD 0 ≤ p.depth then some (e, p.depth) else best) (s.learn p e)
      generalize tail.run production _ (s.learn p e) = r at htail ⊢
      obtain ⟨q, _ | a | e⟩ := r
      · simpa [Finds] using htail
      · obtain ⟨ts, hrest, hfinish, hts⟩ := htail
        exact ⟨ts, by simpa using hrest, by simpa using hfinish, .inr hts⟩
      · trivial

mutual
/-- **Whatever a grammar finds, it matches**: the tokens that it took are those of its value. -/
theorem Grammar.run_finds {α : Type}
    (hproduction : ∀ {α : Type} (name : N α) (s : ReadState), Finds (P name) s (production name s))
    (g : Grammar N α) (s : ReadState) :
    Finds (g.Matches P) s (g.run production s) := by
  match g with
  | .token accept =>
    rw [Grammar.run]
    split
    · rename_i t rest hrest
      split
      · rename_i a ha
        exact ⟨[t], hrest, rfl, t, rfl, ha⟩
      · exact ⟨rfl, rfl⟩
    · exact ⟨rfl, rfl⟩
  | .seq first second =>
    exact Grammar.run_seq_finds (first.run_finds hproduction s)
      fun p _ _ => second.run_finds hproduction p
  | .opt body => exact readOptional_finds (body.run_finds hproduction) s
  | .star body => exact readMany_finds (body.run_finds hproduction) _ s
  | .choice alternatives => exact alternatives.run_finds hproduction none s
  | .map f body => exact Grammar.run_map_finds (body.run_finds hproduction s)
  | .node name => exact hproduction name s

theorem Alternatives.run_finds {α : Type}
    (hproduction : ∀ {α : Type} (name : N α) (s : ReadState), Finds (P name) s (production name s))
    (alternatives : Alternatives N α) (best : Option (SyntaxError × Nat)) (s : ReadState) :
    Finds (alternatives.Matches P) s (alternatives.run production best s) := by
  match alternatives with
  | .none =>
    cases best with
    | none => exact ⟨rfl, rfl⟩
    | some found => trivial
  | .cons head tail =>
    exact Alternatives.run_cons_finds (head.run_finds hproduction s)
      (tail.run_finds hproduction) best
end

variable {rule : {α : Type} → N α → Grammar N (Position → α)}

/-- Whatever a production finds, it stands for, if it stands for what its grammar finds where the
productions in it find what they stand for. -/
theorem readNode_finds_of_run
    (hrun : ∀ {production : {α : Type} → N α → ReadState → ReadState × Outcome α},
      (∀ {α : Type} (name : N α) (s : ReadState), Finds (P name) s (production name s)) →
      ∀ {α : Type} (name : N α) (s : ReadState),
        Finds (fun ts next build => P name ts next (build (startOf next ts))) s
          ((rule name).run production s))
    (fuel : Nat) {α : Type} (name : N α) (s : ReadState) :
    Finds (P name) s (readNode rule fuel name s) := by
  induction fuel generalizing α s with
  | zero => trivial
  | succ fuel ih =>
    have hfinds := hrun ih name s
    rw [readNode]
    generalize (rule name).run (readNode rule fuel) s = r at hfinds
    obtain ⟨p, _ | build | e⟩ := r
    · exact hfinds
    · obtain ⟨ts, hrest, hfinish, hts⟩ := hfinds
      have hhere : s.here = startOf p.here ts := by
        rw [ReadState.here_eq, ReadState.here_eq, hrest, hfinish, startOf_append]
      exact ⟨ts, hrest, hfinish, hhere ▸ hts⟩
    · trivial

/-- A reading that succeeds has used every token. -/
theorem readAll_eq_ok_of_finds {width : Nat} {α : Type} {start : N α} {stream : TokenStream} {a : α}
    (hfinds : ∀ fuel s, Finds (P start) s (readNode rule fuel start s))
    (h : readAll rule width start stream = .ok a) : P start stream.tokens stream.finish a := by
  have hfinds := hfinds (width * (stream.tokens.length + 1)) (.ofStream stream)
  unfold readAll at h
  dsimp only at h
  split at h
  · rename_i p found hfound
    rw [hfound] at hfinds
    obtain ⟨ts, hrest, hfinish, hts⟩ := hfinds
    split at h
    · rename_i hempty
      cases h
      have hnil : p.rest = [] := List.isEmpty_iff.1 hempty
      have htokens : stream.tokens = ts := by simpa [ReadState.ofStream, hnil] using hrest
      have hhere : p.here = stream.finish := by
        rw [ReadState.here_eq, hnil, hfinish]
        rfl
      rwa [htokens, ← hhere]
    · split at h <;> cases h
  · cases h
  · cases h

/-- **Whatever a production finds, it stands for**, if it stands for what its grammar matches. -/
theorem readNode_finds
    (hrule : ∀ {α : Type} (name : N α) (ts : List Token) (next : Position) (build : Position → α),
      (rule name).Matches P ts next build → P name ts next (build (startOf next ts)))
    (fuel : Nat) {α : Type} (name : N α) (s : ReadState) :
    Finds (P name) s (readNode rule fuel name s) :=
  readNode_finds_of_run
    (fun hproduction _ name s => ((rule name).run_finds hproduction s).mono (hrule name))
    fuel name s

/-- **A reading that succeeds gives a value of all the tokens.** -/
theorem readAll_eq_ok
    (hrule : ∀ {α : Type} (name : N α) (ts : List Token) (next : Position) (build : Position → α),
      (rule name).Matches P ts next build → P name ts next (build (startOf next ts)))
    {width : Nat} {α : Type} {start : N α} {stream : TokenStream} {a : α}
    (h : readAll rule width start stream = .ok a) : P start stream.tokens stream.finish a :=
  readAll_eq_ok_of_finds (fun fuel s => readNode_finds hrule fuel start s) h

end Run

end Source

end Covenant
