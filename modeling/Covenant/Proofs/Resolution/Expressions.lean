import Covenant.Proofs.Computations
import Covenant.Resolve.Statements

/-!
# What expressions denote

The rules by which an expression of the source denotes one of the contract, in each scope. A bare
name denotes a constant wherever there is one of the name, and else a local; every other rule goes
by the shape of what is written. Resolving an expression succeeds exactly where a rule applies and
gives what the rule says (`expression_eq_ok`), so that what is to be shown of resolved expressions
is shown rule by rule.
-/

namespace Covenant

namespace Resolve

open Source (Expression Chain Link Operand Postfix Suffix)

/-! ## The rules -/

/-- The only negation is that of truth values: a minus next to the value asks for one, and signs
further out find one. -/
def SignsFit (scope : Scope) (signs : List Source.Sign) (value : Expr) : Prop :=
  signs.getLast? = some .minus → typeOf scope value = .boolean

/-- A value behind signs, each of which is a negation. -/
def negated (pos : Position) (signs : List Source.Sign) (value : Expr) : Expr :=
  signs.foldr (fun _ e => .not pos e) value

theorem negated_cons (pos : Position) (sign : Source.Sign) (signs : List Source.Sign)
    (value : Expr) : negated pos (sign :: signs) value = .not pos (negated pos signs value) :=
  rfl

/-- A property can have a length as far as its type is known. -/
def Measurable (scope : Scope) (property : String) : Prop :=
  ∀ type, scope.properties.get? property = some type → ∃ item, type = .array item

mutual
/-- **An expression denotes** one of the contract. -/
inductive Denotes (scope : Scope) : Expression → Expr → Prop
  | chain {pos c v} (h : DenotesChain scope c v) : Denotes scope (.chain pos c) v
  | choice {pos c yes no vc vy vn} (hcondition : DenotesChain scope c vc)
      (hyes : Denotes scope yes vy) (hno : Denotes scope no vn) :
      Denotes scope (.choice pos c yes no) (.conditional pos vc vy vn)

/-- The operands of a chain become the leaves of its tree. -/
inductive DenotesChain (scope : Scope) : Chain → Expr → Prop
  | tree {pos first links v vs} (hfirst : DenotesOperand scope first v)
      (hlinks : DenotesLinks scope links vs) :
      DenotesChain scope (.mk pos first links) (operatorTree v vs)

/-- Operators keep their places. -/
inductive DenotesLinks (scope : Scope) : List Link → List OperatorLink → Prop
  | nil : DenotesLinks scope [] []
  | cons {pos operator value v links vs} (h : DenotesOperand scope value v)
      (hrest : DenotesLinks scope links vs) :
      DenotesLinks scope (.mk pos operator value :: links) ({ pos, operator, operand := v } :: vs)

/-- Every sign is a negation. -/
inductive DenotesOperand (scope : Scope) : Operand → Expr → Prop
  | signed {pos signs value v} (h : DenotesPostfix scope value v)
      (hsigns : SignsFit scope signs v) :
      DenotesOperand scope (.mk pos signs value) (negated pos signs v)

/-- What a primary with the steps behind it denotes, by its shape. -/
inductive DenotesPostfix (scope : Scope) : Postfix → Expr → Prop
  | this {pos p} : DenotesPostfix scope (.mk pos (.this p) []) (.this pos)
  | property {pos p memberPos x} :
      DenotesPostfix scope (.mk pos (.this p) [.member memberPos x]) (.storage memberPos x)
  | ownCall {pos p memberPos callPos argumentsPos method es vs} (h : DenotesEach scope es vs) :
      DenotesPostfix scope
        (.mk pos (.this p) [.member memberPos method, .call callPos (.mk argumentsPos es)])
        (.call pos method (.this pos) vs)
  | length {pos p memberPos lengthPos x} (h : Measurable scope x) :
      DenotesPostfix scope (.mk pos (.this p) [.member memberPos x, .member lengthPos "length"])
        (.length pos x)
  | propertyCall {pos p memberPos methodPos callPos argumentsPos x method es vs}
      (h : DenotesEach scope es vs) :
      DenotesPostfix scope
        (.mk pos (.this p) [.member memberPos x, .member methodPos method,
          .call callPos (.mk argumentsPos es)])
        (.call pos method (.storage memberPos x) vs)
  | entry {pos p memberPos x suffix suffixes es vs}
      (hindices : indexSuffixes? (suffix :: suffixes) = some es) (h : DenotesEach scope es vs)
      (hcount : checkIndices scope pos x vs.length = .ok ()) :
      DenotesPostfix scope (.mk pos (.this p) (.member memberPos x :: suffix :: suffixes))
        (.entry pos x vs)
  | constant {pos p x v} (h : scope.constants.get? x = some v) :
      DenotesPostfix scope (.mk pos (.name p x) []) v
  | variable {pos p x} (hconstant : scope.constants.get? x = none) (h : scope.locals.has x) :
      DenotesPostfix scope (.mk pos (.name p x) []) (.var pos x)
  | environment {pos p memberPos space x} (hlocal : scope.locals.has space = false)
      (hspace : Environment.isSpace space) (h : (Environment.member? space x).isSome) :
      DenotesPostfix scope (.mk pos (.name p space) [.member memberPos x])
        (.environment pos space x)
  | hash {pos p callPos argumentsPos es vs} (hlocal : scope.locals.has "keccak256" = false)
      (hinputs : es ≠ []) (h : DenotesEach scope es vs) :
      DenotesPostfix scope
        (.mk pos (.name p "keccak256") [.call callPos (.mk argumentsPos es)]) (.hash pos vs)
  | external {pos p memberPos callPos argumentsPos x e v} (hlocal : scope.locals.has x = false)
      (hspace : Environment.isSpace x = false) (hcontract : x ∈ scope.contracts)
      (h : Denotes scope e v) :
      DenotesPostfix scope
        (.mk pos (.name p x) [.member memberPos "at", .call callPos (.mk argumentsPos [e])])
        (.external pos x v)
  | externalCall {pos p memberPos callPos argumentsPos methodPos callPos' argumentsPos' x method}
      {e v es vs} (hlocal : scope.locals.has x = false) (hspace : Environment.isSpace x = false)
      (hcontract : x ∈ scope.contracts) (h : Denotes scope e v) (hargs : DenotesEach scope es vs) :
      DenotesPostfix scope
        (.mk pos (.name p x) [.member memberPos "at", .call callPos (.mk argumentsPos [e]),
          .member methodPos method, .call callPos' (.mk argumentsPos' es)])
        (.call pos method (.external pos x v) vs)
  | creation {pos p argumentsPos x es vs} (hcontract : x ∈ scope.contracts)
      (h : DenotesEach scope es vs) :
      DenotesPostfix scope (.mk pos (.creation p x (.mk argumentsPos es)) []) (.deploy p x vs)
  | number {pos p literal v} (h : number p literal = .ok v) :
      DenotesPostfix scope (.mk pos (.number p literal) []) v
  | text {pos p value v} (h : text p value = .ok v) :
      DenotesPostfix scope (.mk pos (.text p value) []) v
  | truth {pos p value} : DenotesPostfix scope (.mk pos (.truth p value) []) (truth p value)
  | parens {pos p e v} (h : Denotes scope e v) : DenotesPostfix scope (.mk pos (.parens p e) []) v

/-- Expressions denote values one by one. -/
inductive DenotesEach (scope : Scope) : List Expression → List Expr → Prop
  | nil : DenotesEach scope [] []
  | cons {e v es vs} (h : Denotes scope e v) (hrest : DenotesEach scope es vs) :
      DenotesEach scope (e :: es) (v :: vs)
end

variable {scope : Scope}

theorem denotesEach_iff {es : List Expression} {vs : List Expr} :
    DenotesEach scope es vs ↔ List.Forall₂ (Denotes scope) es vs := by
  constructor
  · intro h
    induction es generalizing vs with
    | nil =>
      cases h
      exact .nil
    | cons e es ih =>
      cases h with
      | cons h hrest => exact .cons h (ih hrest)
  · intro h
    induction h with
    | nil => exact .nil
    | cons h _ ih => exact .cons h ih

/-! ## Signs -/

/-- Signs succeed exactly where they fit. -/
theorem foldrM_applySign_eq_ok {pos : Position} {source : String} {signs : List Source.Sign}
    {value result : Expr} :
    signs.foldrM (applySign scope pos source) value = .ok result ↔
      SignsFit scope signs value ∧ result = negated pos signs value := by
  induction signs generalizing result with
  | nil =>
    rw [List.foldrM_nil, pure_eq_ok]
    simp [SignsFit, negated, eq_comm]
  | cons sign rest ih =>
    rw [List.foldrM_cons, bind_eq_ok]
    cases rest with
    | nil =>
      simp only [List.foldrM_nil, pure_eq_ok, exists_eq_left']
      cases sign with
      | not => simp [SignsFit, negated, applySign, eq_comm]
      | minus =>
        rw [applySign.eq_def]
        split <;> simp_all [SignsFit, negated, eq_comm]
    | cons next more =>
      -- what stands behind the sign is a negation already, and so a truth value
      have hsign : applySign scope pos source sign (negated pos (next :: more) value) =
          .ok (negated pos (sign :: next :: more) value) := by
        cases sign <;> simp [applySign, negated, typeOf]
      constructor
      · rintro ⟨inner, hinner, h⟩
        obtain ⟨hfit, rfl⟩ := ih.1 hinner
        rw [hsign] at h
        exact ⟨by simpa [SignsFit] using hfit, (Except.ok.inj h).symm⟩
      · rintro ⟨hfit, rfl⟩
        exact ⟨_, ih.2 ⟨by simpa [SignsFit] using hfit, rfl⟩, hsign⟩

/-! ## Resolving follows the rules -/

/-- A name is a constant, or else a local. -/
theorem name_eq_ok {pos : Position} {x : String} {v : Expr} :
    name scope pos x = .ok v ↔ scope.constants.get? x = some v ∨
      scope.constants.get? x = none ∧ scope.locals.has x ∧ v = .var pos x := by
  rw [name]
  cases scope.constants.get? x with
  | some w => simp
  | none =>
    cases scope.locals.has x with
    | true => simp [eq_comm]
    | false => simp

/-- Only what can be measured has a length. -/
theorem lengthOf_eq_ok {pos lengthPos : Position} {source x : String} {v : Expr} :
    lengthOf scope pos lengthPos source x = .ok v ↔ Measurable scope x ∧ v = .length pos x := by
  cases htype : scope.properties.get? x with
  | none => simp [lengthOf, Measurable, htype, eq_comm]
  | some type => cases type <;> simp [lengthOf, Measurable, htype, eq_comm]

/-- A number has a value that fits a word. -/
theorem number_eq_ok {pos : Position} {literal : String} {v : Expr} :
    number pos literal = .ok v ↔ ∃ n, literalValue? literal.toList = some n ∧ n < wordBound ∧
      v = .literal pos .number (toString n) := by
  rw [number]
  cases literalValue? literal.toList with
  | none => simp
  | some n =>
    by_cases h : n < wordBound
    · simp [h, eq_comm]
    · simp [h]

/-- A text is an address, or else one that fits a word. -/
theorem text_eq_ok {pos : Position} {value : String} {v : Expr} :
    text pos value = .ok v ↔
      isAddressLiteral value ∧ v = .literal pos (.address none) value ∨
      isAddressLiteral value = false ∧ value.utf8ByteSize ≤ maxTextBytes ∧
        v = .literal pos .text value := by
  rw [text]
  cases isAddressLiteral value with
  | true => simp [eq_comm]
  | false =>
    by_cases h : maxTextBytes < value.utf8ByteSize
    · simp [h, Nat.not_le.2 h]
    · simp [h, Nat.not_lt.1 h, eq_comm]

/-- A primary that no step may follow. -/
theorem unfollowed_eq_ok {suffixes : List Suffix} {r : Except Fault Expr} {fault : Fault}
    {v : Expr} : (if suffixes.isEmpty then r else .error fault) = .ok v ↔
      suffixes = [] ∧ r = .ok v := by
  cases suffixes <;> simp

/-- Only a contract of the build can be created. -/
theorem creation_eq_ok {pos : Position} {x : String} {r : Except Fault (List Expr)} {v : Expr} :
    creation scope pos x r = .ok v ↔
      x ∈ scope.contracts ∧ ∃ vs, r = .ok vs ∧ v = .deploy pos x vs := by
  rw [creation]
  by_cases hcontract : x ∈ scope.contracts
  · simp only [List.contains_eq_mem, hcontract, decide_true, if_true, bind_eq_ok, pure_eq_ok,
      true_and]
    simp only [eq_comm]
  · simp only [List.contains_eq_mem, hcontract, decide_false, Bool.false_eq_true, if_false,
      false_and, iff_false]
    split <;> exact throw_ne_ok

/-- A list of results is one result exactly where each of them is one. -/
theorem sequence_eq_ok {α : Type} {rs : List (Except Fault α)} {vs : List α} :
    sequence rs = .ok vs ↔ rs = vs.map .ok := by
  induction rs generalizing vs with
  | nil => cases vs <;> simp [sequence]
  | cons r rs ih =>
    rw [sequence, bind_eq_ok]
    constructor
    · rintro ⟨v, rfl, h⟩
      obtain ⟨vs', hvs', hpure⟩ := bind_eq_ok.1 h
      rw [← pure_eq_ok.1 hpure, ih.1 hvs', List.map_cons]
    · intro h
      cases vs with
      | nil => cases h
      | cons v vs =>
        obtain ⟨rfl, hrest⟩ := List.cons.inj h
        exact ⟨v, rfl, bind_eq_ok.2 ⟨vs, ih.2 hrest, rfl⟩⟩

/-- A step stands for a suffix: what its parts come to is what they denote. -/
inductive DenotesStep (scope : Scope) : Suffix → Step → Prop
  | member {pos x} : DenotesStep scope (.member pos x) (.member pos x)
  | index {pos e r} (h : ∀ v, r = .ok v → Denotes scope e v) :
      DenotesStep scope (.index pos e) (.index r)
  | call {pos argumentsPos es r} (h : ∀ vs, r = .ok vs → DenotesEach scope es vs) :
      DenotesStep scope (.call pos (.mk argumentsPos es)) (.call r es.length)

/-- Steps stand for suffixes one by one. -/
abbrev DenotesSteps (scope : Scope) : List Suffix → List Step → Prop :=
  List.Forall₂ (DenotesStep scope)

namespace DenotesSteps

variable {suffixes : List Suffix} {steps : List Step}

theorem of_nil (h : DenotesSteps scope suffixes []) : suffixes = [] := by
  cases h
  rfl

theorem of_member {pos : Position} {x : String}
    (h : DenotesSteps scope suffixes (.member pos x :: steps)) :
    ∃ rest, suffixes = .member pos x :: rest ∧ DenotesSteps scope rest steps := by
  cases h with
  | cons hstep hrest =>
    cases hstep
    exact ⟨_, rfl, hrest⟩

/-- A call in front of other steps takes its arguments as they resolve. -/
theorem of_call {r : Except Fault (List Expr)} {count : Nat}
    (h : DenotesSteps scope suffixes (.call r count :: steps)) :
    ∃ pos argumentsPos es rest, suffixes = .call pos (.mk argumentsPos es) :: rest ∧
      count = es.length ∧ (∀ vs, r = .ok vs → DenotesEach scope es vs) ∧
      DenotesSteps scope rest steps := by
  cases h with
  | cons hstep hrest =>
    cases hstep with
    | call h => exact ⟨_, _, _, _, rfl, rfl, h, hrest⟩

/-- Indices that all come to a value denote those values. -/
theorem of_indices {vs : List Expr} (hsteps : DenotesSteps scope suffixes steps)
    (h : Step.indices? steps = some (vs.map .ok)) :
    ∃ es, indexSuffixes? suffixes = some es ∧ DenotesEach scope es vs := by
  induction hsteps generalizing vs with
  | nil =>
    obtain rfl : vs = [] := by simpa [Step.indices?] using h
    exact ⟨[], rfl, .nil⟩
  | cons hstep _ ih =>
    cases hstep with
    | member => cases h
    | call => cases h
    | index hindex =>
      obtain ⟨rest, hrest, hcons⟩ := Option.map_eq_some_iff.1 h
      cases vs with
      | nil => cases hcons
      | cons v vs =>
        obtain ⟨rfl, rfl⟩ := List.cons.inj hcons
        obtain ⟨es, hes, heach⟩ := ih hrest
        exact ⟨_, by rw [indexSuffixes?, hes]; rfl, .cons (hindex v rfl) heach⟩

/-- A chain behind `this` that is accepted has one of the shapes there are rules for. -/
theorem of_thisChain {pos p : Position} {source : String} {v : Expr}
    (hsteps : DenotesSteps scope suffixes steps) (h : thisChain scope pos source steps = .ok v) :
    DenotesPostfix scope (.mk pos (.this p) suffixes) v := by
  unfold thisChain at h
  split at h
  -- `this` by itself
  case h_1 =>
    obtain rfl := hsteps.of_nil
    cases h
    exact .this
  -- a property
  case h_2 =>
    obtain ⟨_, rfl, hrest⟩ := hsteps.of_member
    obtain rfl := hrest.of_nil
    cases h
    exact .property
  -- a call on the contract itself
  case h_3 =>
    obtain ⟨_, rfl, hcall⟩ := hsteps.of_member
    obtain ⟨_, _, es, _, rfl, -, hargs, hend⟩ := hcall.of_call
    obtain rfl := hend.of_nil
    obtain ⟨vs, hvs, hv⟩ := bind_eq_ok.1 h
    rw [← pure_eq_ok.1 hv]
    exact .ownCall (hargs vs hvs)
  -- the length of an array
  case h_4 =>
    obtain ⟨_, rfl, hlength⟩ := hsteps.of_member
    obtain ⟨_, rfl, hend⟩ := hlength.of_member
    obtain rfl := hend.of_nil
    obtain ⟨hmeasurable, rfl⟩ := lengthOf_eq_ok.1 h
    exact .length hmeasurable
  -- a call on what a property holds
  case h_5 =>
    obtain ⟨_, rfl, hmethod⟩ := hsteps.of_member
    obtain ⟨_, rfl, hcall⟩ := hmethod.of_member
    obtain ⟨_, _, es, _, rfl, -, hargs, hend⟩ := hcall.of_call
    obtain rfl := hend.of_nil
    obtain ⟨vs, hvs, hv⟩ := bind_eq_ok.1 h
    rw [← pure_eq_ok.1 hv]
    exact .propertyCall (hargs vs hvs)
  -- an entry, with one index at least
  case h_6 hsingle _ _ _ =>
    obtain ⟨rest, rfl, hrest⟩ := hsteps.of_member
    split at h
    · rename_i results hresults
      obtain ⟨vs, hvs, h⟩ := bind_eq_ok.1 h
      obtain ⟨⟨⟩, hcount, h⟩ := bind_eq_ok.1 h
      rw [← pure_eq_ok.1 h]
      rw [sequence_eq_ok.1 hvs] at hresults
      obtain ⟨es, hes, heach⟩ := hrest.of_indices hresults
      cases hrest with
      | nil => exact (hsingle rfl).elim
      | cons _ _ => exact .entry hes heach hcount
    · cases h
  -- any other steps are refused
  case h_7 => cases h

/-- A deployed contract is given by one address, and at most one call follows. -/
theorem of_externalChain {pos p memberPos callPos argumentsPos : Position} {source x : String}
    {r : Except Fault (List Expr)} {es : List Expression} {v : Expr}
    (hlocal : scope.locals.has x = false) (hspace : Environment.isSpace x = false)
    (hcontract : x ∈ scope.contracts) (hargs : ∀ vs, r = .ok vs → DenotesEach scope es vs)
    (hsteps : DenotesSteps scope suffixes steps)
    (h : externalChain pos source x r es.length steps = .ok v) :
    DenotesPostfix scope
      (.mk pos (.name p x) (.member memberPos "at" :: .call callPos (.mk argumentsPos es) ::
        suffixes)) v := by
  rw [externalChain, check_eq_ok] at h
  obtain ⟨-, h⟩ := h
  obtain ⟨vs, hvs, h⟩ := bind_eq_ok.1 h
  have heach := hargs vs hvs
  split at h
  · obtain _ | ⟨haddress, _ | _⟩ := heach
    split at h
    · obtain rfl := hsteps.of_nil
      cases h
      exact .external hlocal hspace hcontract haddress
    · obtain ⟨_, rfl, hcall⟩ := hsteps.of_member
      obtain ⟨_, _, es, _, rfl, -, hmethodArgs, hend⟩ := hcall.of_call
      obtain rfl := hend.of_nil
      obtain ⟨ws, hws, hv⟩ := bind_eq_ok.1 h
      rw [← pure_eq_ok.1 hv]
      exact .externalCall hlocal hspace hcontract haddress (hmethodArgs ws hws)
    · cases h
  · cases h

/-- A chain behind a name that is accepted has one of the shapes there are rules for. -/
theorem of_nameChain {pos p : Position} {source x : String} {v : Expr}
    (hsteps : DenotesSteps scope suffixes steps)
    (h : nameChain scope pos source x steps = .ok v) :
    DenotesPostfix scope (.mk pos (.name p x) suffixes) v := by
  unfold nameChain at h
  split at h
  · -- the name by itself: a constant of the name comes before a local
    rename_i hempty
    rw [List.isEmpty_iff.1 hempty] at hsteps
    obtain rfl := hsteps.of_nil
    rcases name_eq_ok.1 h with hconstant | ⟨hconstant, hlocal, rfl⟩
    · exact .constant hconstant
    · exact .variable hconstant hlocal
  split at h
  · cases h
  -- a local with steps behind it is refused, so the name is none
  rename_i hlocal
  have hlocal := Bool.eq_false_iff.2 hlocal
  split at h
  · rename_i hspace
    unfold environmentChain at h
    split at h
    · obtain ⟨_, rfl, hend⟩ := hsteps.of_member
      obtain rfl := hend.of_nil
      split at h
      · rename_i hmember
        cases h
        exact .environment hlocal hspace (by rw [hmember]; rfl)
      · cases h
    · cases h
  rename_i hspace
  have hspace := Bool.eq_false_iff.2 hspace
  split at h
  · -- a hash, of one input at least
    obtain ⟨_, _, es, _, rfl, -, hargs, hend⟩ := hsteps.of_call
    obtain rfl := hend.of_nil
    obtain ⟨vs, hvs, h⟩ := bind_eq_ok.1 h
    obtain ⟨hinputs, hv⟩ := check_eq_ok.1 h
    rw [← pure_eq_ok.1 hv]
    have heach := hargs vs hvs
    refine .hash hlocal ?_ heach
    rintro rfl
    cases heach
    exact hinputs rfl
  · split at h
    · -- a contract that is named, and a call of it
      rename_i hcontract
      obtain ⟨_, rfl, hcall⟩ := hsteps.of_member
      obtain ⟨_, _, es, _, rfl, rfl, hargs, hrest⟩ := hcall.of_call
      exact hrest.of_externalChain hlocal hspace (by simpa using hcontract) hargs h
    · cases h
  · cases h

end DenotesSteps

mutual
/-- An expression that is accepted denotes its result. -/
theorem denotes_of_expression : ∀ {e : Expression} {v : Expr},
    expression scope e = .ok v → Denotes scope e v
  | .chain _ _, _, h => .chain (denotes_of_chain h)
  | .choice _ _ _ _, v, h => by
    rw [expression] at h
    obtain ⟨_, hcondition, h⟩ := bind_eq_ok.1 h
    obtain ⟨_, hyes, h⟩ := bind_eq_ok.1 h
    obtain ⟨_, hno, h⟩ := bind_eq_ok.1 h
    rw [← pure_eq_ok.1 h]
    exact .choice (denotes_of_chain hcondition) (denotes_of_expression hyes)
      (denotes_of_expression hno)

theorem denotes_of_chain : ∀ {c : Chain} {v : Expr}, chain scope c = .ok v → DenotesChain scope c v
  | .mk _ _ _, v, h => by
    rw [chain] at h
    obtain ⟨_, hfirst, h⟩ := bind_eq_ok.1 h
    obtain ⟨_, hlinks, h⟩ := bind_eq_ok.1 h
    rw [← pure_eq_ok.1 h]
    exact .tree (denotes_of_operand hfirst) (denotes_of_links hlinks)

theorem denotes_of_links : ∀ {ls : List Link} {vs : List OperatorLink},
    links scope ls = .ok vs → DenotesLinks scope ls vs
  | [], _, h => by
    cases h
    exact .nil
  | .mk _ _ _ :: _, vs, h => by
    rw [links] at h
    obtain ⟨_, hoperand, h⟩ := bind_eq_ok.1 h
    obtain ⟨_, hrest, h⟩ := bind_eq_ok.1 h
    rw [← pure_eq_ok.1 h]
    exact .cons (denotes_of_operand hoperand) (denotes_of_links hrest)

theorem denotes_of_operand : ∀ {o : Operand} {v : Expr},
    operand scope o = .ok v → DenotesOperand scope o v
  | .mk _ _ _, v, h => by
    rw [operand] at h
    obtain ⟨_, hvalue, h⟩ := bind_eq_ok.1 h
    obtain ⟨hsigns, rfl⟩ := foldrM_applySign_eq_ok.1 h
    exact .signed (denotes_of_postfixed hvalue) hsigns

/-- **Names and steps follow the rules where they resolve.** -/
theorem denotes_of_postfixed : ∀ {p : Postfix} {v : Expr},
    postfixed scope p = .ok v → DenotesPostfix scope p v
  | .mk _ (.this _) suffixes, _, h => (denotesSteps suffixes).of_thisChain h
  | .mk _ (.name _ _) suffixes, _, h => (denotesSteps suffixes).of_nameChain h
  | .mk _ (.creation _ _ (.mk _ _)) _, _, h => by
    obtain ⟨rfl, h⟩ := unfollowed_eq_ok.1 h
    obtain ⟨hcontract, vs, hvs, rfl⟩ := creation_eq_ok.1 h
    exact .creation hcontract (denotes_of_arguments hvs)
  | .mk _ (.number _ _) _, _, h => by
    obtain ⟨rfl, h⟩ := unfollowed_eq_ok.1 h
    exact .number h
  | .mk _ (.text _ _) _, _, h => by
    obtain ⟨rfl, h⟩ := unfollowed_eq_ok.1 h
    exact .text h
  | .mk _ (.truth _ _) _, _, h => by
    obtain ⟨rfl, h⟩ := unfollowed_eq_ok.1 h
    cases h
    exact .truth
  | .mk _ (.parens _ _) _, _, h => by
    obtain ⟨rfl, h⟩ := unfollowed_eq_ok.1 h
    exact .parens (denotes_of_expression h)
  | .mk _ (.object _ _) _, _, h => by
    obtain ⟨-, h⟩ := unfollowed_eq_ok.1 h
    cases h

theorem denotesSteps : ∀ suffixes : List Suffix,
    DenotesSteps scope suffixes (steps scope suffixes)
  | [] => .nil
  | .member _ _ :: rest => .cons .member (denotesSteps rest)
  | .index _ _ :: rest => .cons (.index fun _ => denotes_of_expression) (denotesSteps rest)
  | .call _ (.mk _ _) :: rest => .cons (.call fun _ => denotes_of_arguments) (denotesSteps rest)

theorem denotes_of_arguments : ∀ {es : List Expression} {vs : List Expr},
    arguments scope es = .ok vs → DenotesEach scope es vs
  | [], _, h => by
    cases h
    exact .nil
  | _ :: _, vs, h => by
    rw [arguments] at h
    obtain ⟨_, hvalue, h⟩ := bind_eq_ok.1 h
    obtain ⟨_, hrest, h⟩ := bind_eq_ok.1 h
    rw [← pure_eq_ok.1 h]
    exact .cons (denotes_of_expression hvalue) (denotes_of_arguments hrest)
end

/-! ## The rules are followed by resolving -/

/-- Steps that are all indices resolve to indices. -/
theorem indices?_steps {suffixes : List Suffix} {es : List Expression} {vs : List Expr}
    (hindices : indexSuffixes? suffixes = some es) (h : arguments scope es = .ok vs) :
    Step.indices? (steps scope suffixes) = some (vs.map .ok) := by
  induction suffixes generalizing es vs with
  | nil =>
    cases hindices
    cases h
    rfl
  | cons suffix suffixes ih =>
    cases suffix with
    | member => cases hindices
    | call => cases hindices
    | index pos e =>
      obtain ⟨rest, hrest, rfl⟩ := Option.map_eq_some_iff.1 hindices
      rw [arguments] at h
      obtain ⟨v, hv, h⟩ := bind_eq_ok.1 h
      obtain ⟨ws, hws, h⟩ := bind_eq_ok.1 h
      rw [← pure_eq_ok.1 h, steps, Step.indices?, ih hrest hws, hv]
      rfl

/-- An entry is resolved by its indices. -/
theorem thisChain_entry {pos memberPos : Position} {source x : String} {suffix : Suffix}
    {suffixes : List Suffix} {es : List Expression} {vs : List Expr}
    (hindices : indexSuffixes? (suffix :: suffixes) = some es)
    (h : arguments scope es = .ok vs) (hcount : checkIndices scope pos x vs.length = .ok ()) :
    thisChain scope pos source (steps scope (.member memberPos x :: suffix :: suffixes)) =
      .ok (.entry pos x vs) := by
  have hsteps := indices?_steps hindices h
  cases suffix with
  | member => cases hindices
  | call => cases hindices
  | index indexPos e =>
    rw [steps] at hsteps
    simp only [steps, thisChain, hsteps]
    refine bind_eq_ok.2 ⟨vs, sequence_eq_ok.2 rfl, ?_⟩
    rw [hcount]
    rfl

theorem nameChain_external {pos memberPos : Position} {source x : String}
    {r : Except Fault (List Expr)} {count : Nat} {rest : List Step}
    (hlocal : scope.locals.has x = false) (hspace : Environment.isSpace x = false)
    (hcontract : x ∈ scope.contracts) :
    nameChain scope pos source x (.member memberPos "at" :: .call r count :: rest) =
      externalChain pos source x r count rest := by
  simp [nameChain, hlocal, hspace, hcontract]

theorem nameChain_hash {pos callPos argumentsPos : Position} {source : String}
    {es : List Expression} {vs : List Expr} (hlocal : scope.locals.has "keccak256" = false)
    (hinputs : es ≠ []) (h : arguments scope es = .ok vs) :
    nameChain scope pos source "keccak256"
      (steps scope [.call callPos (.mk argumentsPos es)]) = .ok (.hash pos vs) := by
  have hvalues : vs ≠ [] := by
    rintro rfl
    cases denotes_of_arguments h
    exact hinputs rfl
  have hspace : Environment.isSpace "keccak256" = false := by decide
  simp only [steps, nameChain, List.isEmpty_cons, hlocal, hspace, h]
  exact bind_eq_ok.2 ⟨vs, rfl, check_eq_ok.2 ⟨by simpa using hvalues, rfl⟩⟩

mutual
/-- What an expression denotes is its result. -/
theorem Denotes.eq_ok : ∀ {e : Expression} {v : Expr}, Denotes scope e v →
    expression scope e = .ok v
  | _, _, .chain h => h.eq_ok
  | _, _, .choice hcondition hyes hno => by
    rw [expression, hcondition.eq_ok, hyes.eq_ok, hno.eq_ok]
    rfl

theorem DenotesChain.eq_ok : ∀ {c : Chain} {v : Expr}, DenotesChain scope c v →
    chain scope c = .ok v
  | _, _, .tree hfirst hlinks => by
    rw [chain, hfirst.eq_ok, hlinks.eq_ok]
    rfl

theorem DenotesLinks.eq_ok : ∀ {ls : List Link} {vs : List OperatorLink},
    DenotesLinks scope ls vs → links scope ls = .ok vs
  | _, _, .nil => rfl
  | _, _, .cons h hrest => by
    rw [links, h.eq_ok, hrest.eq_ok]
    rfl

theorem DenotesOperand.eq_ok : ∀ {o : Operand} {v : Expr}, DenotesOperand scope o v →
    operand scope o = .ok v
  | _, _, .signed h hsigns => by
    rw [operand, h.eq_ok]
    exact foldrM_applySign_eq_ok.2 ⟨hsigns, rfl⟩

/-- **Names and steps resolve where the rules hold**, rule by rule. -/
theorem DenotesPostfix.eq_ok : ∀ {p : Postfix} {v : Expr}, DenotesPostfix scope p v →
    postfixed scope p = .ok v
  | _, _, .this => rfl
  | _, _, .property => rfl
  | _, _, .ownCall h => by
    simp only [postfixed, steps, thisChain, h.eq_ok]
    rfl
  | _, _, .length h => lengthOf_eq_ok.2 ⟨h, rfl⟩
  | _, _, .propertyCall h => by
    simp only [postfixed, steps, thisChain, h.eq_ok]
    rfl
  | _, _, .entry hindices h hcount => thisChain_entry hindices h.eq_ok hcount
  | _, _, .constant h => name_eq_ok.2 (.inl h)
  | _, _, .variable hconstant h => name_eq_ok.2 (.inr ⟨hconstant, h, rfl⟩)
  | _, _, .environment hlocal hspace h => by
    obtain ⟨found, hfound⟩ := Option.isSome_iff_exists.1 h
    simp [postfixed, steps, nameChain, hlocal, hspace, environmentChain, hfound]
  | _, _, .hash hlocal hinputs h => nameChain_hash hlocal hinputs h.eq_ok
  | _, _, .external hlocal hspace hcontract h => by
    rw [postfixed, steps, steps, nameChain_external hlocal hspace hcontract, arguments, h.eq_ok]
    rfl
  | _, _, .externalCall hlocal hspace hcontract h hargs => by
    rw [postfixed, steps, steps, nameChain_external hlocal hspace hcontract, arguments, h.eq_ok,
      steps, steps, hargs.eq_ok]
    rfl
  | _, _, .creation hcontract h => creation_eq_ok.2 ⟨hcontract, _, h.eq_ok, rfl⟩
  | _, _, .number h => h
  | _, _, .text h => h
  | _, _, .truth => rfl
  | _, _, .parens h => h.eq_ok

theorem DenotesEach.eq_ok : ∀ {es : List Expression} {vs : List Expr}, DenotesEach scope es vs →
    arguments scope es = .ok vs
  | _, _, .nil => rfl
  | _, _, .cons h hrest => by
    rw [arguments, h.eq_ok, hrest.eq_ok]
    rfl
end

/-- **Resolving an expression gives exactly what it denotes.** -/
theorem expression_eq_ok {e : Expression} {v : Expr} :
    expression scope e = .ok v ↔ Denotes scope e v :=
  ⟨denotes_of_expression, Denotes.eq_ok⟩

/-- What an expression without operators denotes is what its one operand denotes. -/
theorem denotes_of_soleOperand {e : Expression} {p : Postfix} {v : Expr}
    (hsole : soleOperand? e = some p) : Denotes scope e v ↔ DenotesPostfix scope p v := by
  unfold soleOperand? at hsole
  split at hsole
  · cases hsole
    constructor
    · rintro ⟨⟨⟨h, -⟩, ⟨⟩⟩⟩
      rw [operatorTree, climb]
      exact h
    · intro h
      have htree : operatorTree v [] = v := by rw [operatorTree, climb]
      rw [← htree]
      refine .chain (.tree (.signed h ?_) .nil)
      intro hlast
      cases hlast
  · cases hsole

end Resolve

end Covenant
