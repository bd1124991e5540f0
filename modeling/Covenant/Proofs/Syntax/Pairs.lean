import Covenant.Source.Productions
import Mathlib.Data.List.Forall2

/-!
# Two readings side by side

Two rows of tokens that agree token by token, in a relation `T`, are read alike: as long as no
token of a grammar tells the two sides apart, both readings take the same way, and what they find
agrees too. `Steady` says this of a grammar, with the relation that its values are in; it passes
from the parts of a grammar to the whole (`seq`, `opt`, `star`, `choice`, `map`), so that nothing is
to be checked of a production but its single tokens and the function that builds its node.

Main statement: two whole readings of a steady language fail both or succeed both, with values that
agree (`readAll_agrees`).
-/

namespace Covenant

namespace Source

variable {α β : Type} {T : Token → Token → Prop}

/-! ## States and results that agree -/

/-- Two states are side by side: what is left agrees token by token, and both readings got equally
far. The failures met on the way may differ. -/
structure ReadState.Beside (T : Token → Token → Prop) (s s' : ReadState) : Prop where
  rest : List.Forall₂ T s.rest s'.rest
  depth : s.depth = s'.depth
  deepestDepth : s.deepestDepth = s'.deepestDepth

/-- Two readings ended in the same way. -/
inductive Agree (T : Token → Token → Prop) (R : α → α → Prop) :
    ReadState × Outcome α → ReadState × Outcome α → Prop
  | absent {p p' : ReadState} (state : p.Beside T p') : Agree T R (p, .absent) (p', .absent)
  | found {p p' : ReadState} {a a' : α} (state : p.Beside T p') (value : R a a') :
      Agree T R (p, .found a) (p', .found a')
  | failed {p p' : ReadState} {e e' : SyntaxError} (state : p.Beside T p') :
      Agree T R (p, .failed e) (p', .failed e')

namespace ReadState.Beside

variable {s s' p p' : ReadState}

/-- A failure that is met moves the mark of the deepest one, which depends on the depths only. -/
theorem record (h : s.Beside T s') (e e' : SyntaxError) : (s.record e).Beside T (s'.record e') := by
  unfold ReadState.record
  rw [h.depth, h.deepestDepth]
  split
  · exact ⟨h.rest, rfl, rfl⟩
  · exact h

/-- Going on from where a part ended keeps two readings side by side. -/
theorem adopt (h : s.Beside T s') (hp : p.Beside T p') : (s.adopt p).Beside T (s'.adopt p') := by
  unfold ReadState.adopt
  rw [h.deepestDepth, hp.deepestDepth]
  split
  · exact ⟨hp.rest, hp.depth, rfl⟩
  · exact ⟨hp.rest, hp.depth, rfl⟩

/-- Two readings that gave a part up learn from failures at one depth. -/
theorem learn (h : s.Beside T s') (hp : p.Beside T p') (e e' : SyntaxError) :
    (s.learn p e).Beside T (s'.learn p' e') := by
  unfold ReadState.learn
  rw [h.deepestDepth, hp.deepestDepth, hp.depth]
  split
  · exact ⟨h.rest, h.depth, rfl⟩
  · split
    · exact ⟨h.rest, h.depth, rfl⟩
    · exact h

/-- Whether a part is given up or its failure stands is a matter of the depths, which are the same.
-/
theorem committed_eq (h : s.Beside T s') (hp : p.Beside T p') :
    s.committed p = s'.committed p' := by
  rw [ReadState.committed, ReadState.committed, h.depth, hp.depth]

end ReadState.Beside

/-! ## Parts that are tried -/

section Tried

variable {R : α → α → Prop} {part : ReadState → ReadState × Outcome α}

/-- **A part that is repeated is read equally often on both sides**, by induction on how often it
may still be. -/
theorem readMany_agrees (hpart : ∀ s s', s.Beside T s' → Agree T R (part s) (part s'))
    (limit : Nat) {s s' : ReadState} (hs : s.Beside T s') :
    Agree T (List.Forall₂ R) (readMany part limit s) (readMany part limit s') := by
  induction limit generalizing s s' with
  | zero => exact .found hs .nil
  | succ limit ih =>
    rw [readMany, readMany]
    generalize part s = r, part s' = r', hpart s s' hs = h
    cases h with
    | absent hp => exact .found (hs.adopt hp) .nil
    | @found p p' _ _ hp ha =>
      dsimp only
      generalize readMany part limit (s.adopt p) = q, readMany part limit (s'.adopt p') = q',
        ih (hs.adopt hp) = hmore
      cases hmore with
      | absent hq => exact .absent hq
      | found hq has => exact .found hq (.cons ha has)
      | failed hq => exact .failed hq
    | @failed p p' e e' hp =>
      have hrecord := hs.record e e'
      have hlearn := hrecord.learn hp e e'
      dsimp only
      rw [hrecord.committed_eq hp]
      split
      · exact .failed (hlearn.adopt hp)
      · exact .found hlearn .nil

/-- An optional part is there on both sides or on neither. -/
theorem readOptional_agrees (hpart : ∀ s s', s.Beside T s' → Agree T R (part s) (part s'))
    {s s' : ReadState} (hs : s.Beside T s') :
    Agree T (Option.Rel R) (readOptional part s) (readOptional part s') := by
  rw [readOptional, readOptional]
  generalize part s = r, part s' = r', hpart s s' hs = h
  cases h with
  | absent hp => exact .found (hs.adopt hp) .none
  | found hp ha => exact .found (hs.adopt hp) (.some ha)
  | @failed p p' e e' hp =>
    have hrecord := hs.record e e'
    have hlearn := hrecord.learn hp e e'
    dsimp only
    rw [hrecord.committed_eq hp]
    split
    · exact .failed (hlearn.adopt hp)
    · exact .found hlearn .none

end Tried

/-! ## Grammars -/

section Grammars

variable {N : Type → Type} {P : {α : Type} → N α → α → α → Prop}

/-- **A grammar that does not tell the two sides apart**: on states that are side by side it is read
alike, and its values are in the relation `R`, wherever the productions it names are so, with values
in the relation `P` of each. -/
def Grammar.Steady (T : Token → Token → Prop) (P : {α : Type} → N α → α → α → Prop)
    (g : Grammar N α) (R : α → α → Prop) : Prop :=
  ∀ production : {α : Type} → N α → ReadState → ReadState × Outcome α,
    (∀ {α : Type} (name : N α) (s s' : ReadState), s.Beside T s' →
      Agree T (P name) (production name s) (production name s')) →
    ∀ s s', s.Beside T s' → Agree T R (g.run production s) (g.run production s')

/-- None of several grammars tells the two sides apart. -/
def Alternatives.Steady (T : Token → Token → Prop) (P : {α : Type} → N α → α → α → Prop)
    (alternatives : Alternatives N α) (R : α → α → Prop) : Prop :=
  ∀ production : {α : Type} → N α → ReadState → ReadState × Outcome α,
    (∀ {α : Type} (name : N α) (s s' : ReadState), s.Beside T s' →
      Agree T (P name) (production name s) (production name s')) →
    ∀ best best' : Option (SyntaxError × Nat), best.map Prod.snd = best'.map Prod.snd →
    ∀ s s', s.Beside T s' →
      Agree T R (alternatives.run production best s) (alternatives.run production best' s')

variable {R : α → α → Prop} {Q : β → β → Prop}

/-- A test of one token that related tokens pass together. -/
theorem token_steady {accept : Token → Option α}
    (h : ∀ t t', T t t' → Option.Rel R (accept t) (accept t')) :
    (Grammar.token (N := N) accept).Steady T P R := by
  intro production _ s s' hs
  rw [Grammar.run, Grammar.run]
  obtain ⟨rest, finish, depth, deepest, deepestDepth⟩ := s
  obtain ⟨rest', finish', depth', deepest', deepestDepth'⟩ := s'
  obtain ⟨hrest, rfl, rfl⟩ := hs
  cases hrest with
  | nil => exact .absent ⟨.nil, rfl, rfl⟩
  | @cons t t' ts ts' ht hts =>
    dsimp only
    generalize accept t = o, accept t' = o', h t t' ht = ho
    cases ho with
    | none => exact .absent ⟨.cons ht hts, rfl, rfl⟩
    | some hvalue => exact .found ⟨hts, rfl, rfl⟩ hvalue

/-- Two grammars in a row; a second one that is absent fails on both sides. -/
theorem seq_steady {g : Grammar N α} {g' : Grammar N β} (hg : g.Steady T P R)
    (hg' : g'.Steady T P Q) : (Grammar.seq g g').Steady T P (Prod.RProd R Q) := by
  intro production hproduction s s' hs
  rw [Grammar.run, Grammar.run]
  generalize g.run production s = r, g.run production s' = r', hg production hproduction s s' hs = h
  cases h with
  | absent hp => exact .absent hp
  | @found p p' _ _ hp ha =>
    dsimp only
    generalize g'.run production p = q, g'.run production p' = q',
      hg' production hproduction p p' hp = h
    cases h with
    | absent hq => exact .failed hq
    | found hq hb => exact .found hq ⟨ha, hb⟩
    | failed hq => exact .failed hq
  | failed hp => exact .failed hp

theorem opt_steady {g : Grammar N α} (hg : g.Steady T P R) :
    (Grammar.opt g).Steady T P (Option.Rel R) :=
  fun production hproduction _ _ hs => readOptional_agrees (hg production hproduction) hs

/-- A repetition: the rows are of one length, which bounds how often it is tried. -/
theorem star_steady {g : Grammar N α} (hg : g.Steady T P R) :
    (Grammar.star g).Steady T P (List.Forall₂ R) := by
  intro production hproduction s s' hs
  rw [Grammar.run, Grammar.run, hs.rest.length_eq]
  exact readMany_agrees (hg production hproduction) _ hs

/-- What is built from related values is related. -/
theorem map_steady {g : Grammar N α} {f : α → β} (hg : g.Steady T P R)
    (hf : ∀ a a', R a a' → Q (f a) (f a')) : (Grammar.map f g).Steady T P Q := by
  intro production hproduction s s' hs
  rw [Grammar.run, Grammar.run]
  generalize g.run production s = r, g.run production s' = r', hg production hproduction s s' hs = h
  cases h with
  | absent hp => exact .absent hp
  | found hp ha => exact .found hp (hf _ _ ha)
  | failed hp => exact .failed hp

/-- The relation of the values may be weakened. -/
theorem Grammar.Steady.mono {g : Grammar N α} {Q : α → α → Prop} (hg : g.Steady T P R)
    (h : ∀ a a', R a a' → Q a a') : g.Steady T P Q := by
  intro production hproduction s s' hs
  have hrun := hg production hproduction s s' hs
  generalize g.run production s = r, g.run production s' = r' at hrun
  cases hrun with
  | absent hp => exact .absent hp
  | found hp ha => exact .found hp (h _ _ ha)
  | failed hp => exact .failed hp

theorem node_steady {name : N α} : (Grammar.node name).Steady T P (P name) :=
  fun _ hproduction s s' hs => hproduction name s s' hs

/-- Without a further alternative, both sides end in their best failure or are absent. -/
theorem none_steady : (Alternatives.none (N := N)).Steady T P R := by
  intro production _ best best' hbest s s' hs
  match best, best', hbest with
  | none, none, _ => exact .absent hs
  | some (e, _), some (e', _), _ => exact .failed (hs.record e e')

/-- One more alternative is taken, passed over or fails for good on both sides: of the failures so
far only their depth counts, and that is the same. -/
theorem cons_steady {head : Grammar N α} {tail : Alternatives N α} (hhead : head.Steady T P R)
    (htail : tail.Steady T P R) : (Alternatives.cons head tail).Steady T P R := by
  intro production hproduction best best' hbest s s' hs
  rw [Alternatives.run, Alternatives.run]
  generalize head.run production s = r, head.run production s' = r',
    hhead production hproduction s s' hs = h
  cases h with
  | absent hp => exact htail production hproduction best best' hbest s s' hs
  | found hp ha => exact .found (hs.adopt hp) ha
  | @failed p p' e e' hp =>
    have hlearn := hs.learn hp e e'
    dsimp only
    rw [hs.committed_eq hp, hbest, hp.depth]
    split
    · exact .failed (hlearn.adopt hp)
    · refine htail production hproduction _ _ ?_ _ _ hlearn
      split
      · rfl
      · exact hbest

theorem choice_steady {alternatives : Alternatives N α} (h : alternatives.Steady T P R) :
    (Grammar.choice alternatives).Steady T P R :=
  fun production hproduction => h production hproduction none none rfl

variable {rule : {α : Type} → N α → Grammar N (Position → α)}

/-- **Productions are read alike**, if none of their grammars tells the two sides apart. -/
theorem readNode_agrees
    (hrule : ∀ {α : Type} (name : N α), (rule name).Steady T P fun build build' =>
      ∀ p p', P name (build p) (build' p'))
    (fuel : Nat) {α : Type} (name : N α) (s s' : ReadState) (hs : s.Beside T s') :
    Agree T (P name) (readNode rule fuel name s) (readNode rule fuel name s') := by
  induction fuel generalizing α s s' with
  | zero => exact .failed hs
  | succ fuel ih =>
    rw [readNode, readNode]
    generalize (rule name).run (readNode rule fuel) s = r,
      (rule name).run (readNode rule fuel) s' = r', hrule name _ ih s s' hs = h
    cases h with
    | absent hp => exact .absent hp
    | found hp hbuild => exact .found hp (hbuild _ _)
    | failed hp => exact .failed (hp.record _ _)

/-- **Whole rows of tokens are read alike**: both readings fail, or both succeed. -/
theorem readAll_agrees
    (hrule : ∀ {α : Type} (name : N α), (rule name).Steady T P fun build build' =>
      ∀ p p', P name (build p) (build' p'))
    {width : Nat} {start : N α} {stream stream' : TokenStream}
    (htokens : List.Forall₂ T stream.tokens stream'.tokens) :
    (∃ e e', readAll rule width start stream = .error e ∧
      readAll rule width start stream' = .error e') ∨
    ∃ a a', readAll rule width start stream = .ok a ∧ readAll rule width start stream' = .ok a' ∧
      P start a a' := by
  have h := readNode_agrees hrule (width * (stream.tokens.length + 1)) start (.ofStream stream)
    (.ofStream stream') ⟨htokens, rfl, rfl⟩
  rw [readAll, readAll, ← htokens.length_eq]
  generalize readNode rule _ start (.ofStream stream) = r,
    readNode rule _ start (.ofStream stream') = r' at h
  cases h with
  | absent hp => exact .inl ⟨_, _, rfl, rfl⟩
  | @found p p' a a' hp ha =>
    have hempty : p.rest.isEmpty = p'.rest.isEmpty := by
      generalize p.rest = ts, p'.rest = ts', hp.rest = h
      cases h <;> rfl
    dsimp only
    rw [hempty, hp.depth, hp.deepestDepth]
    split
    · exact .inr ⟨a, a', rfl, rfl, ha⟩
    · left
      split <;> exact ⟨_, _, rfl, rfl⟩
  | failed hp => exact .inl ⟨_, _, rfl, rfl⟩

end Grammars

end Source

end Covenant
