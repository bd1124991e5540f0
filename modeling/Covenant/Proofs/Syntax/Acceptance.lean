import Covenant.Proofs.Syntax.Reading
import Covenant.Proofs.Syntax.Spelling
import Covenant.Source.Productions
import Mathlib.Data.List.Forall2

/-!
# What a grammar accepts

Whether a grammar is found depends on the tokens in front of the reading, not on where they stand.
`Accepts` says that a reader takes some lexemes in front of others and makes a value with a property
of them; `Misses` says that it is not found in front of some lexemes, and gives up within a number
of tokens. A part that gives up within the lookahead is abandoned, so that an option or repetition
ends there and a choice goes on. There is one lemma for each way to put grammars together.
-/

namespace Covenant

namespace Source

/-- The lexemes in front of a reading. -/
def ReadState.lexemes (s : ReadState) : List Lexeme :=
  s.rest.map Token.lexeme

theorem ReadState.lexemes_eq {s s' : ReadState} (h : s.rest = s'.rest) : s.lexemes = s'.lexemes :=
  congrArg (List.map Token.lexeme) h

namespace ReadState

/-- A failure that is recorded does not move the reading. -/
@[simp] theorem record_depth (s : ReadState) (e : SyntaxError) : (s.record e).depth = s.depth := by
  unfold record
  split <;> rfl

@[simp] theorem adopt_depth (s part : ReadState) : (s.adopt part).depth = part.depth := by
  unfold adopt
  split <;> rfl

@[simp] theorem learn_depth (s part : ReadState) (e : SyntaxError) :
    (s.learn part e).depth = s.depth := by
  unfold learn
  split
  · rfl
  · split <;> rfl

end ReadState

section Readers

variable {α β : Type} {r : ReadState → ReadState × Outcome α} {ls ms after : List Lexeme}
  {Q Q' : α → Prop} {k : Nat}

/-- **A reader takes some lexemes in front of others**, and makes a value with a property of
them. -/
def Accepts (r : ReadState → ReadState × Outcome α) (ls after : List Lexeme) (Q : α → Prop) :
    Prop :=
  ∀ s : ReadState, s.lexemes = ls ++ after → ∃ p a, r s = (p, .found a) ∧ p.lexemes = after ∧
    p.depth = s.depth + ls.length ∧ Q a

/-- **A reader is not found in front of some lexemes**: it leaves them, or gives up within a number
of tokens. -/
def Misses (r : ReadState → ReadState × Outcome α) (k : Nat) (ls : List Lexeme) : Prop :=
  ∀ s : ReadState, s.lexemes = ls →
    (∃ p, r s = (p, .absent) ∧ p.lexemes = ls ∧ p.depth = s.depth) ∨
    ∃ p e, r s = (p, .failed e) ∧ p.depth ≤ s.depth + k

/-- What is known of a value may be weakened. -/
theorem Accepts.mono (h : Accepts r ls after Q) (hQ : ∀ a, Q a → Q' a) :
    Accepts r ls after Q' := by
  intro s hs
  obtain ⟨p, a, hr, hp, hdepth, ha⟩ := h s hs
  exact ⟨p, a, hr, hp, hdepth, hQ a ha⟩

/-- A reader that gives up early gives up within any greater number of tokens. -/
theorem Misses.mono {k' : Nat} (h : Misses r k ls) (hk : k ≤ k') : Misses r k' ls := by
  intro s hs
  obtain h | ⟨p, e, hr, hdepth⟩ := h s hs
  · exact .inl h
  · exact .inr ⟨p, e, hr, by omega⟩

/-- A part that gives up early is abandoned. -/
theorem not_committed {s p : ReadState} (e : SyntaxError) (h : p.depth ≤ s.depth + k)
    (hk : k ≤ lookahead) : (s.record e).committed p = false := by
  simp only [ReadState.committed, ReadState.record_depth, decide_eq_false_iff_not]
  omega

/-- An optional part is taken where the part is. -/
theorem readOptional_accepts (h : Accepts r ls after Q) :
    Accepts (readOptional r) ls after fun o => ∃ a, o = some a ∧ Q a := by
  intro s hs
  obtain ⟨p, a, hr, hp, hdepth, ha⟩ := h s hs
  refine ⟨s.adopt p, some a, by rw [readOptional, hr], ?_, by simpa using hdepth, a, rfl, ha⟩
  rwa [ReadState.lexemes_eq (ReadState.adopt_rest s p)]

/-- An optional part is passed over, if the part gives up within the lookahead. -/
theorem readOptional_misses (h : Misses r k after) (hk : k ≤ lookahead) :
    Accepts (readOptional r) [] after (· = none) := by
  intro s hs
  obtain ⟨p, hr, hp, hdepth⟩ | ⟨p, e, hr, hdepth⟩ := h s hs
  · refine ⟨s.adopt p, none, by rw [readOptional, hr], ?_, by simpa using hdepth, rfl⟩
    rwa [ReadState.lexemes_eq (ReadState.adopt_rest s p)]
  · refine ⟨(s.record e).learn p e, none, ?_, ?_, by simp, rfl⟩
    · rw [readOptional, hr]
      simp [not_committed e hdepth hk]
    · exact (ReadState.lexemes_eq (by simp)).trans hs

/-- A repetition ends where one more item gives up within the lookahead. -/
theorem readMany_misses (h : Misses r k after) (hk : k ≤ lookahead) (limit : Nat) :
    Accepts (readMany r limit) [] after (· = []) := by
  intro s hs
  cases limit with
  | zero => exact ⟨s, [], rfl, hs, rfl, rfl⟩
  | succ limit =>
    obtain ⟨p, hr, hp, hdepth⟩ | ⟨p, e, hr, hdepth⟩ := h s hs
    · refine ⟨s.adopt p, [], by rw [readMany, hr], ?_, by simpa using hdepth, rfl⟩
      rwa [ReadState.lexemes_eq (ReadState.adopt_rest s p)]
    · refine ⟨(s.record e).learn p e, [], ?_, ?_, by simp, rfl⟩
      · rw [readMany, hr]
        simp [not_committed e hdepth hk]
      · exact (ReadState.lexemes_eq (by simp)).trans hs

/-- A piece and more of them. -/
theorem readMany_cons {Q' : List α → Prop} {limit : Nat} (h : Accepts r ls (ms ++ after) Q)
    (hmore : Accepts (readMany r limit) ms after Q') :
    Accepts (readMany r (limit + 1)) (ls ++ ms) after fun as =>
      ∃ a as', as = a :: as' ∧ Q a ∧ Q' as' := by
  intro s hs
  rw [List.append_assoc] at hs
  obtain ⟨p, a, hr, hp, hdepth, ha⟩ := h s hs
  obtain ⟨q, as, hrs, hq, hdepth', has⟩ := hmore (s.adopt p)
    (by rw [← hp]; exact ReadState.lexemes_eq (by simp))
  refine ⟨q, a :: as, ?_, hq, ?_, a, as, rfl, ha, has⟩
  · rw [readMany, hr]
    simp only [hrs]
    rfl
  · rw [hdepth', ReadState.adopt_depth, hdepth, List.length_append, Nat.add_assoc]

/-- **A repetition takes pieces**, each in front of what follows it: the next piece, or what comes
behind all of them. -/
theorem readMany_accepts {β : Type} {lexemes : β → List Lexeme} {Before : β → List Lexeme → Prop}
    {Q : β → α → Prop} {bs : List β}
    (hread : ∀ b ∈ bs, ∀ after, Before b after → Accepts r (lexemes b) after (Q b))
    (hnext : ∀ b ∈ bs, ∀ c ∈ bs, ∀ after, Before b (lexemes c ++ after))
    (hlast : ∀ b ∈ bs.getLast?, Before b after) (hend : Misses r k after) (hk : k ≤ lookahead)
    {limit : Nat} (hlimit : bs.length < limit) :
    Accepts (readMany r limit) (bs.flatMap lexemes) after (List.Forall₂ Q bs) := by
  induction bs generalizing limit with
  | nil => exact (readMany_misses hend hk limit).mono fun _ h => h ▸ .nil
  | cons b bs ih =>
    cases limit with
    | zero => cases hlimit
    | succ limit =>
      rw [List.flatMap_cons]
      refine (readMany_cons (hread b List.mem_cons_self _ ?_) (ih ?_ ?_ ?_ ?_)).mono ?_
      · cases bs with
        | nil => exact hlast b rfl
        | cons c bs =>
          rw [List.flatMap_cons, List.append_assoc]
          exact hnext b List.mem_cons_self c (List.mem_cons_of_mem _ List.mem_cons_self) _
      · exact fun c hc => hread c (List.mem_cons_of_mem _ hc)
      · exact fun c hc d hd => hnext c (List.mem_cons_of_mem _ hc) d (List.mem_cons_of_mem _ hd)
      · intro c hc
        refine hlast c ?_
        cases bs with
        | nil => cases hc
        | cons d bs => rwa [List.getLast?_cons_cons]
      · exact Nat.lt_of_succ_lt_succ hlimit
      · rintro _ ⟨a, as, rfl, ha, has⟩
        exact .cons ha has

end Readers

/-! ## Grammars -/

/-- How a grammar of the language is read, where productions nest at most `fuel` deep. -/
abbrev reader {α : Type} (fuel : Nat) (g : Rule α) : ReadState → ReadState × Outcome α :=
  g.run (readNode rule fuel)

section Grammars

variable {α β : Type} {fuel k : Nat} {g : Rule α} {g' : Rule β} {l : Lexeme}
  {ls ms after : List Lexeme} {Q : α → Prop} {Q' : β → Prop}

/-! ### Single tokens -/

/-- A test of one token takes a lexeme that passes it, wherever it stands. -/
theorem accepts_token {accept : Token → Option α} {a : α}
    (h : ∀ t : Token, t.lexeme = l → accept t = some a) :
    Accepts (reader fuel (.token accept)) [l] after (· = a) := by
  intro s hs
  obtain ⟨rest, finish, depth, deepest, deepestDepth⟩ := s
  cases rest with
  | nil => cases hs
  | cons t rest =>
    obtain ⟨ht, hrest⟩ := List.cons.inj hs
    exact ⟨{ rest, finish, depth := depth + 1, deepest, deepestDepth }, a,
      by simp [reader, Grammar.run, h t ht], hrest, rfl, rfl⟩

/-- A test of one token leaves what does not pass it. -/
theorem misses_token {accept : Token → Option α}
    (h : ∀ t : Token, ls.head? = some t.lexeme → accept t = none) :
    Misses (reader fuel (.token accept)) 0 ls := by
  intro s hs
  refine .inl ⟨s, ?_, hs, rfl⟩
  obtain ⟨rest, finish, depth, deepest, deepestDepth⟩ := s
  cases rest with
  | nil => rfl
  | cons t rest => simp [reader, Grammar.run, h t (by rw [← hs]; rfl)]

theorem forall_head {p : Lexeme → Prop} (h : p l) : ∀ l' ∈ (l :: ls).head?, p l' := by
  rintro _ ⟨⟩
  exact h

theorem forall_head_nil {p : Lexeme → Prop} : ∀ l ∈ ([] : List Lexeme).head?, p l := by
  rintro _ ⟨⟩

theorem accepts_word {v : String} (h : l.value = v) :
    Accepts (reader fuel (word v)) [l] after fun _ => True := by
  have hword : Accepts (reader fuel (word v)) [l] after (· = ()) :=
    accepts_token fun t ht => if_pos (by rw [← h, ← ht]; rfl)
  exact hword.mono fun _ _ => trivial

theorem accepts_oneOf {table : List (String × α)} {a : α} (h : table.lookup l.value = some a) :
    Accepts (reader fuel (oneOf table)) [l] after (· = a) := by
  refine accepts_token fun t ht => ?_
  rw [← h, ← ht]
  rfl

theorem accepts_anyOf {kind : TokenKind} (h : l.kind = kind) :
    Accepts (reader fuel (anyOf kind)) [l] after (· = l.value) := by
  refine accepts_token fun t ht => ?_
  subst ht
  exact if_pos h

theorem misses_word {v : String} (h : ∀ l ∈ ls.head?, l.value ≠ v) :
    Misses (reader fuel (word v)) 0 ls :=
  misses_token fun _ ht => if_neg (h _ ht)

theorem misses_oneOf {table : List (String × α)}
    (h : ∀ l ∈ ls.head?, table.lookup l.value = none) :
    Misses (reader fuel (oneOf table)) 0 ls :=
  misses_token fun _ ht => h _ ht

theorem misses_anyOf {kind : TokenKind} (h : ∀ l ∈ ls.head?, l.kind ≠ kind) :
    Misses (reader fuel (anyOf kind)) 0 ls :=
  misses_token fun _ ht => if_neg (h _ ht)

/-- A token of another class. -/
theorem misses_class {kind : TokenKind} (h : decide (l.kind = kind) = false) :
    Misses (reader fuel (anyOf kind)) 0 (l :: ls) :=
  misses_anyOf (forall_head (of_decide_eq_false h))

/-! ### Sequences -/

/-- Two grammars in a row take their lexemes in turn; the first stops where those of the second
start. -/
theorem accepts_seq (h : Accepts (reader fuel g) ls (ms ++ after) Q)
    (h' : Accepts (reader fuel g') ms after Q') :
    Accepts (reader fuel (.seq g g')) (ls ++ ms) after fun p => Q p.1 ∧ Q' p.2 := by
  intro s hs
  rw [List.append_assoc] at hs
  obtain ⟨p, a, hg, hp, hdepth, ha⟩ := h s hs
  obtain ⟨q, b, hg', hq, hdepth', hb⟩ := h' p hp
  refine ⟨q, (a, b), by simp only [reader, Grammar.run, hg, hg'], hq, ?_, ha, hb⟩
  rw [hdepth', hdepth, List.length_append, Nat.add_assoc]

/-- A row gives up where its first grammar does. -/
theorem misses_seq (h : Misses (reader fuel g) k ls) :
    Misses (reader fuel (.seq g g')) k ls := by
  intro s hs
  obtain ⟨p, hg, hp, hdepth⟩ | ⟨p, e, hg, hdepth⟩ := h s hs
  · exact .inl ⟨p, by simp only [reader, Grammar.run, hg], hp, hdepth⟩
  · exact .inr ⟨p, e, by simp only [reader, Grammar.run, hg], hdepth⟩

/-- **A row that gives up in its second grammar** has read the first one before, which counts for
the lookahead. -/
theorem misses_seq_second (h : Accepts (reader fuel g) ls after Q)
    (h' : Misses (reader fuel g') k after) :
    Misses (reader fuel (.seq g g')) (ls.length + k) (ls ++ after) := by
  intro s hs
  obtain ⟨p, a, hg, hp, hdepth, -⟩ := h s hs
  obtain ⟨q, hg', -, hdepth'⟩ | ⟨q, e, hg', hdepth'⟩ := h' p hp
  · exact .inr ⟨q, q.unexpected, by simp only [reader, Grammar.run, hg, hg'], by omega⟩
  · exact .inr ⟨q, e, by simp only [reader, Grammar.run, hg, hg'], by omega⟩

/-- What a grammar builds has the property that the building gives it. -/
theorem accepts_map {f : α → β} (h : Accepts (reader fuel g) ls after Q)
    (hf : ∀ a, Q a → Q' (f a)) : Accepts (reader fuel (.map f g)) ls after Q' := by
  intro s hs
  obtain ⟨p, a, hg, hp, hdepth, ha⟩ := h s hs
  exact ⟨p, f a, by simp only [reader, Grammar.run, hg]; rfl, hp, hdepth, hf a ha⟩

theorem misses_map {f : α → β} (h : Misses (reader fuel g) k ls) :
    Misses (reader fuel (.map f g)) k ls := by
  intro s hs
  obtain ⟨p, hg, hp, hdepth⟩ | ⟨p, e, hg, hdepth⟩ := h s hs
  · exact .inl ⟨p, by simp only [reader, Grammar.run, hg]; rfl, hp, hdepth⟩
  · exact .inr ⟨p, e, by simp only [reader, Grammar.run, hg]; rfl, hdepth⟩

theorem accepts_after (h : Accepts (reader fuel g) ls (ms ++ after) Q)
    (h' : Accepts (reader fuel g') ms after Q') :
    Accepts (reader fuel (Source.after g g')) (ls ++ ms) after Q' :=
  accepts_map (accepts_seq h h') fun _ h => h.2

theorem accepts_before (h : Accepts (reader fuel g) ls (ms ++ after) Q)
    (h' : Accepts (reader fuel g') ms after Q') :
    Accepts (reader fuel (before g g')) (ls ++ ms) after Q :=
  accepts_map (accepts_seq h h') fun _ h => h.1

/-- A grammar behind a word. -/
theorem accepts_behind {v : String} (hl : l.value = v) (h : Accepts (reader fuel g) ls after Q) :
    Accepts (reader fuel (Source.after (word v) g)) (l :: ls) after Q :=
  accepts_after (accepts_word hl) h

/-- A grammar in front of a word. -/
theorem accepts_closed {v : String} (hl : l.value = v)
    (h : Accepts (reader fuel g) ls (l :: after) Q) :
    Accepts (reader fuel (before g (word v))) (ls ++ [l]) after Q :=
  accepts_before h (accepts_word hl)

/-- A grammar in front of an optional one that is not there. -/
theorem accepts_bare (h : Accepts (reader fuel g) ls after Q)
    (h' : Misses (reader fuel g') k after) (hk : k ≤ lookahead) :
    Accepts (reader fuel (before g (.opt g'))) ls after Q := by
  have hboth : Accepts (reader fuel (before g (.opt g'))) (ls ++ []) after Q :=
    accepts_before h (readOptional_misses h' hk)
  rwa [List.append_nil] at hboth

theorem misses_behind {v : String} (h : ∀ l ∈ ls.head?, l.value ≠ v) :
    Misses (reader fuel (Source.after (word v) g)) 0 ls :=
  misses_map (misses_seq (misses_word h))

/-! ### Options, repetitions and choices -/

/-- **A repetition takes a row of items**: each stops in front of the next, and what follows the
last one is not taken for another. -/
theorem accepts_star {γ : Type} {lexemes : γ → List Lexeme} {Before : γ → List Lexeme → Prop}
    {R : γ → α → Prop} {cs : List γ}
    (hread : ∀ c ∈ cs, ∀ after, Before c after → Accepts (reader fuel g) (lexemes c) after (R c))
    (hne : ∀ c ∈ cs, lexemes c ≠ [])
    (hnext : ∀ c ∈ cs, ∀ d ∈ cs, ∀ after, Before c (lexemes d ++ after))
    (hlast : ∀ c ∈ cs.getLast?, Before c after) (hend : Misses (reader fuel g) k after)
    (hk : k ≤ lookahead) :
    Accepts (reader fuel (.star g)) (cs.flatMap lexemes) after (List.Forall₂ R cs) := by
  have hcount : cs.length ≤ (cs.flatMap lexemes).length := by
    clear hread hnext hlast
    induction cs with
    | nil => exact Nat.le_refl _
    | cons c cs ih =>
      rw [List.forall_mem_cons] at hne
      have := List.length_pos_iff.2 hne.1
      have := ih hne.2
      rw [List.flatMap_cons, List.length_append, List.length_cons]
      omega
  intro s hs
  have hlength : s.rest.length = (cs.flatMap lexemes).length + after.length := by
    rw [← List.length_append, ← hs, ReadState.lexemes, List.length_map]
  exact readMany_accepts hread hnext hlast hend hk (by omega) s hs

/-- A repetition of one piece. -/
theorem accepts_once (h : Accepts (reader fuel g) ls after Q)
    (hend : Misses (reader fuel g) k after) (hk : k ≤ lookahead) :
    Accepts (reader fuel (.star g)) ls after fun as => ∃ a, as = [a] ∧ Q a := by
  intro s hs
  have hmany : Accepts (readMany (reader fuel g) (s.rest.length + 1)) (ls ++ []) after _ :=
    readMany_cons h (readMany_misses hend hk _)
  rw [List.append_nil] at hmany
  refine hmany.mono ?_ s hs
  rintro _ ⟨a, _, rfl, ha, rfl⟩
  exact ⟨a, rfl, ha⟩

/-- A choice from a list, whatever failed before. -/
def Chooses (fuel : Nat) (gs : List (Rule α)) (ls after : List Lexeme) (Q : α → Prop) : Prop :=
  ∀ best, Accepts ((gs.foldr Alternatives.cons .none).run (readNode rule fuel) best) ls after Q

/-- The first alternative that takes the lexemes is chosen. -/
theorem chooses_head {gs : List (Rule α)} (h : Accepts (reader fuel g) ls after Q) :
    Chooses fuel (g :: gs) ls after Q := by
  intro best s hs
  obtain ⟨p, a, hg, hp, hdepth, ha⟩ := h s hs
  refine ⟨s.adopt p, a, by simp only [List.foldr_cons, Alternatives.run, hg], ?_,
    by simpa using hdepth, ha⟩
  rwa [ReadState.lexemes_eq (ReadState.adopt_rest s p)]

/-- An alternative that gives up within the lookahead leaves the choice to those behind it. -/
theorem chooses_tail {gs : List (Rule α)} (h : Misses (reader fuel g) k (ls ++ after))
    (hk : k ≤ lookahead) (htail : Chooses fuel gs ls after Q) :
    Chooses fuel (g :: gs) ls after Q := by
  intro best s hs
  obtain ⟨p, hg, hp, hdepth⟩ | ⟨p, e, hg, hdepth⟩ := h s hs
  · simp only [List.foldr_cons, Alternatives.run, hg]
    exact htail best s hs
  · have hcommitted : s.committed p = false := by
      simp only [ReadState.committed, decide_eq_false_iff_not]
      omega
    obtain ⟨q, a, hq, hafter, hdepth', ha⟩ := htail
      (if (best.map Prod.snd).getD 0 ≤ p.depth then some (e, p.depth) else best) (s.learn p e)
      ((ReadState.lexemes_eq (by simp)).trans hs)
    refine ⟨q, a, ?_, hafter, by simpa using hdepth', ha⟩
    simp only [List.foldr_cons, Alternatives.run, hg, hcommitted]
    exact hq

theorem accepts_firstOf {gs : List (Rule α)} (h : Chooses fuel gs ls after Q) :
    Accepts (reader fuel (firstOf gs)) ls after Q :=
  h none

/-- A choice of which every part gives up early. -/
theorem misses_firstOf {gs : List (Rule α)} (h : ∀ g ∈ gs, Misses (reader fuel g) k ls)
    (hk : k ≤ lookahead) : Misses (reader fuel (firstOf gs)) 0 ls := by
  have hrun : ∀ best, Misses
      ((gs.foldr Alternatives.cons .none).run (readNode rule fuel) best) 0 ls := by
    induction gs with
    | nil =>
      intro best s hs
      cases best with
      | none => exact .inl ⟨s, rfl, hs, rfl⟩
      | some found => exact .inr ⟨s.record found.1, found.1, rfl, by simp⟩
    | cons g gs ih =>
      rw [List.forall_mem_cons] at h
      intro best s hs
      obtain ⟨p, hg, hp, hdepth⟩ | ⟨p, e, hg, hdepth⟩ := h.1 s hs
      · simp only [List.foldr_cons, Alternatives.run, hg]
        exact ih h.2 best s hs
      · have hcommitted : s.committed p = false := by
          simp only [ReadState.committed, decide_eq_false_iff_not]
          omega
        have hmore := ih h.2
          (if (best.map Prod.snd).getD 0 ≤ p.depth then some (e, p.depth) else best) (s.learn p e)
          ((ReadState.lexemes_eq (by simp)).trans hs)
        simp only [List.foldr_cons, Alternatives.run, hg, hcommitted]
        simpa using hmore
  exact hrun none

/-! ### Lists -/

/-- **A list with commas** takes its items, if no item goes on with a comma and none follows. -/
theorem accepts_commaList {γ : Type} {lexemes : γ → List Lexeme}
    {Before : γ → List Lexeme → Prop} {R : γ → α → Prop} {c : γ} {cs : List γ}
    (hread : ∀ d ∈ c :: cs, ∀ after, Before d after →
      Accepts (reader fuel g) (lexemes d) after (R d))
    (hcomma : ∀ d ∈ c :: cs, ∀ after, Before d (.mark "," :: after))
    (hlast : ∀ d ∈ (c :: cs).getLast?, Before d after) (hend : ∀ l ∈ after.head?, l.value ≠ ",") :
    Accepts (reader fuel (commaList g)) (Lexeme.separated ((c :: cs).map lexemes)) after
      (List.Forall₂ R (c :: cs)) := by
  rw [List.map_cons, Lexeme.separated_cons, List.flatMap_map]
  refine accepts_map (accepts_seq (hread c List.mem_cons_self _ ?_)
    (accepts_star (fun d hd after (hafter : Before d after) =>
      accepts_behind rfl (hread d (List.mem_cons_of_mem _ hd) after hafter)) ?_ ?_ ?_
      (misses_behind hend) (Nat.zero_le _))) ?_
  · cases cs with
    | nil => exact hlast c rfl
    | cons d ds => exact hcomma c List.mem_cons_self _
  · exact fun _ _ => List.cons_ne_nil _ _
  · exact fun d hd e _ after => hcomma d (List.mem_cons_of_mem _ hd) _
  · intro d hd
    refine hlast d ?_
    cases cs with
    | nil => cases hd
    | cons e es => rwa [List.getLast?_cons_cons]
  · rintro ⟨a, as⟩ ⟨ha, has⟩
    exact .cons ha has

/-- A list of which not even the first item is there. -/
theorem accepts_emptyList (hnone : Misses (reader fuel g) 0 after) :
    Accepts (reader fuel (looseList g)) [] after (· = []) := by
  refine accepts_map (readOptional_misses (misses_map (misses_seq (misses_map
    (misses_seq hnone)))) (Nat.zero_le _)) ?_
  rintro _ rfl
  rfl

/-- A list that may be empty takes its items, be there any or none. -/
theorem accepts_looseList {γ : Type} {lexemes : γ → List Lexeme}
    {Before : γ → List Lexeme → Prop} {R : γ → α → Prop} {cs : List γ}
    (hread : ∀ c ∈ cs, ∀ after, Before c after → Accepts (reader fuel g) (lexemes c) after (R c))
    (hcomma : ∀ c ∈ cs, ∀ after, Before c (.mark "," :: after))
    (hlast : ∀ c ∈ cs.getLast?, Before c after) (hend : ∀ l ∈ after.head?, l.value ≠ ",")
    (hnone : Misses (reader fuel g) 0 after) :
    Accepts (reader fuel (looseList g)) (Lexeme.separated (cs.map lexemes)) after
      (List.Forall₂ R cs) := by
  cases cs with
  | nil => exact (accepts_emptyList hnone).mono fun _ h => h ▸ .nil
  | cons c cs =>
    refine accepts_map (readOptional_accepts (accepts_bare
      (accepts_commaList hread hcomma hlast hend) (misses_word hend) (Nat.zero_le _))) ?_
    rintro _ ⟨as, rfl, has⟩
    exact has

/-! ### Productions -/

/-- A production takes what its grammar takes, with one more step of fuel. -/
theorem accepts_node {name : Nonterminal α}
    (h : Accepts (reader fuel (rule name)) ls after fun build => ∀ pos, Q (build pos)) :
    Accepts (reader (fuel + 1) (.node name)) ls after Q := by
  intro s hs
  obtain ⟨p, build, hrule, hp, hdepth, hbuild⟩ := h s hs
  exact ⟨p, build s.here, by simp only [reader, Grammar.run, readNode, hrule], hp, hdepth,
    hbuild _⟩

/-- A production gives up where its grammar does. -/
theorem misses_node {name : Nonterminal α} (h : ∀ fuel, Misses (reader fuel (rule name)) k ls) :
    Misses (reader fuel (.node name)) k ls := by
  intro s hs
  cases fuel with
  | zero => exact .inr ⟨s, s.unexpected, by simp only [reader, Grammar.run, readNode], by omega⟩
  | succ fuel =>
    obtain ⟨p, hrule, hp, hdepth⟩ | ⟨p, e, hrule, hdepth⟩ := h fuel s hs
    · exact .inl ⟨p, by simp only [reader, Grammar.run, readNode, hrule], hp, hdepth⟩
    · exact .inr ⟨p.record e, e, by simp only [reader, Grammar.run, readNode, hrule],
        by simpa using hdepth⟩

end Grammars

end Source

end Covenant
