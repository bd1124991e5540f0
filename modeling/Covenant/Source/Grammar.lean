import Covenant.Source.Token

/-!
# Grammars and their reading

A grammar over tokens is a value: it is built from single tokens, sequences, options, repetitions,
ordered choices and references to named productions, and carries the function that builds the
result. `Grammar.run` reads a token list by it with bounded lookahead.

A reading ends in one of three ways: the grammar is absent at this place, it is found, or it
started and failed. The first component of a sequence decides between absent and failed. A
repetition or choice tries its parts on a copy of the state; a part that failed is abandoned and
leaves behind only how far it got, unless it got farther than the lookahead, in which case its
failure is final. The failure reported for a text is the one at the deepest place reached.
-/

namespace Covenant

namespace Source

/-- How many tokens a part may read and still be abandoned. -/
def lookahead : Nat := 64

/-! ## The state of a reading -/

/-- **The state of a reading**: what is left of the tokens, how many were read, and the failure at
the deepest place reached so far. -/
structure ReadState where
  rest : List Token
  finish : Position
  depth : Nat := 0
  deepest : Option SyntaxError := none
  deepestDepth : Nat := 0
deriving DecidableEq, Repr, Inhabited

/-- How the reading of a grammar ends. -/
inductive Outcome (α : Type) where
  | absent
  | found (value : α)
  | failed (error : SyntaxError)
deriving Repr

namespace Outcome

/-- Changes what was found. -/
def map {α β : Type} (f : α → β) : Outcome α → Outcome β
  | absent => absent
  | found value => found (f value)
  | failed error => failed error

end Outcome

namespace ReadState

/-- The start of a reading. -/
def ofStream (stream : TokenStream) : ReadState :=
  { rest := stream.tokens, finish := stream.finish }

/-- The place of the next token, or of the end of the text. -/
def here (s : ReadState) : Position :=
  match s.rest with
  | token :: _ => token.pos
  | [] => s.finish

/-- The failure at the next token. -/
def unexpected (s : ReadState) : SyntaxError :=
  { cause := .unexpected (s.rest.head?.map Token.value), pos := s.here }

/-- Records a failure as the deepest one, unless a later place was reached before. -/
def record (s : ReadState) (e : SyntaxError) : ReadState :=
  if s.deepestDepth ≤ s.depth then
    { s with deepest := some e, deepestDepth := s.depth }
  else s

/-- Goes on from where a part stopped, with the deeper of the two failures. -/
def adopt (s part : ReadState) : ReadState :=
  if s.deepestDepth ≤ part.deepestDepth then
    { s with
      rest := part.rest
      depth := part.depth
      deepest := part.deepest
      deepestDepth := part.deepestDepth }
  else { s with rest := part.rest, depth := part.depth }

/-- Keeps of a failed part only how deep it got. -/
def learn (s part : ReadState) (e : SyntaxError) : ReadState :=
  if s.deepestDepth < part.deepestDepth then
    { s with deepest := part.deepest, deepestDepth := part.deepestDepth }
  else if s.deepestDepth ≤ part.depth then
    { s with deepest := some e, deepestDepth := max part.depth part.deepestDepth }
  else s

/-- Whether a failed part read more than the lookahead, so that its failure is final. -/
def committed (s part : ReadState) : Bool :=
  s.depth + lookahead < part.depth

end ReadState

/-! ## Grammars -/

mutual
/-- **A grammar with results in `α`**, over the named productions `N`. -/
inductive Grammar (N : Type → Type) : Type → Type 1 where
  /-- One token that is accepted. -/
  | token {α : Type} (accept : Token → Option α) : Grammar N α
  /-- One grammar after another. -/
  | seq {α β : Type} (first : Grammar N α) (second : Grammar N β) : Grammar N (α × β)
  /-- A grammar or nothing. -/
  | opt {α : Type} (body : Grammar N α) : Grammar N (Option α)
  /-- A grammar any number of times. -/
  | star {α : Type} (body : Grammar N α) : Grammar N (List α)
  /-- The first of several grammars that is found. -/
  | choice {α : Type} (alternatives : Alternatives N α) : Grammar N α
  /-- A grammar whose result is changed. -/
  | map {α β : Type} (f : α → β) (body : Grammar N α) : Grammar N β
  /-- A named production. -/
  | node {α : Type} (name : N α) : Grammar N α

/-- The alternatives of a choice, in order. -/
inductive Alternatives (N : Type → Type) : Type → Type 1 where
  | none {α : Type} : Alternatives N α
  | cons {α : Type} (head : Grammar N α) (tail : Alternatives N α) : Alternatives N α
end

/-! ## Reading -/

/-- Reads a part as often as it is found, at most `limit` times. -/
def readMany {α : Type} (part : ReadState → ReadState × Outcome α) :
    Nat → ReadState → ReadState × Outcome (List α)
  | 0, s => (s, .found [])
  | limit + 1, s =>
    match part s with
    | (p, .absent) => (s.adopt p, .found [])
    | (p, .found value) =>
      let (s, more) := readMany part limit (s.adopt p)
      (s, more.map (value :: ·))
    | (p, .failed e) =>
      let s := s.record e
      if s.committed p then ((s.learn p e).adopt p, .failed e) else (s.learn p e, .found [])

/-- Reads a part once, or nothing. -/
def readOptional {α : Type} (part : ReadState → ReadState × Outcome α) (s : ReadState) :
    ReadState × Outcome (Option α) :=
  match part s with
  | (p, .absent) => (s.adopt p, .found none)
  | (p, .found value) => (s.adopt p, .found (some value))
  | (p, .failed e) =>
    let s := s.record e
    if s.committed p then ((s.learn p e).adopt p, .failed e) else (s.learn p e, .found none)

section Run

variable {N : Type → Type} (production : {α : Type} → N α → ReadState → ReadState × Outcome α)

mutual
/-- **Reads a grammar**, given how the named productions are read. -/
def Grammar.run {α : Type} (g : Grammar N α) (s : ReadState) : ReadState × Outcome α :=
  match g with
  | .token accept =>
    match s.rest with
    | t :: rest =>
      match accept t with
      | some value => ({ s with rest, depth := s.depth + 1 }, .found value)
      | none => (s, .absent)
    | [] => (s, .absent)
  | .seq first second =>
    match first.run s with
    | (s, .absent) => (s, .absent)
    | (s, .failed e) => (s, .failed e)
    | (s, .found a) =>
      match second.run s with
      | (s, .absent) => (s, .failed s.unexpected)
      | (s, .failed e) => (s, .failed e)
      | (s, .found b) => (s, .found (a, b))
  | .opt body => readOptional body.run s
  | .star body => readMany body.run (s.rest.length + 1) s
  | .choice alternatives => alternatives.run none s
  | .map f body =>
    let (s, outcome) := body.run s
    (s, outcome.map f)
  | .node name => production name s

/-- Reads the alternatives in order, keeping the failure of the one that got farthest. -/
def Alternatives.run {α : Type} (alternatives : Alternatives N α)
    (best : Option (SyntaxError × Nat)) (s : ReadState) : ReadState × Outcome α :=
  match alternatives with
  | .none =>
    match best with
    | some (e, _) => (s.record e, .failed e)
    | none => (s, .absent)
  | .cons head tail =>
    match head.run s with
    | (_, .absent) => tail.run best s
    | (p, .found value) => (s.adopt p, .found value)
    | (p, .failed e) =>
      if s.committed p then ((s.learn p e).adopt p, .failed e)
      else
        let farthest := (best.map Prod.snd).getD 0
        tail.run (if farthest ≤ p.depth then some (e, p.depth) else best) (s.learn p e)
end

end Run

/-- Reads a named production. Its result is given the place where it starts, and its failure is
recorded. Productions nest at most `fuel` deep. -/
def readNode {N : Type → Type} (rule : {α : Type} → N α → Grammar N (Position → α)) :
    Nat → {α : Type} → N α → ReadState → ReadState × Outcome α
  | 0, _, _, s => (s, .failed s.unexpected)
  | fuel + 1, _, name, s =>
    match (rule name).run (readNode rule fuel) s with
    | (p, .absent) => (p, .absent)
    | (p, .found build) => (p, .found (build s.here))
    | (p, .failed e) => (p.record e, .failed e)

/-- **Reads a whole token stream as one production.** Where tokens are left over, the failure
reported is the deepest one, or the first token left over if no part got farther. The bound on the
nesting allows for `width` productions that start at the same token. -/
def readAll {N : Type → Type} (rule : {α : Type} → N α → Grammar N (Position → α)) (width : Nat)
    {α : Type} (start : N α) (stream : TokenStream) : Except SyntaxError α :=
  let s := ReadState.ofStream stream
  match readNode rule (width * (stream.tokens.length + 1)) start s with
  | (p, .found value) =>
    if p.rest.isEmpty then .ok value
    else if p.deepestDepth ≤ p.depth then .error p.unexpected
    else .error (p.deepest.getD p.unexpected)
  | (_, .failed e) => .error e
  | (p, .absent) => .error p.unexpected

end Source

end Covenant
