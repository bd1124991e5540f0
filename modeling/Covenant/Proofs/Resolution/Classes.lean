import Covenant.Proofs.Resolution.Statements
import Covenant.Resolve.Classes
import Mathlib.Data.List.Nodup

/-!
# Where the members of a contract come from

Every body of a contract is that of a member of its class, resolved in the scope of the class to
which only its parameters were added, and every initial value is what an expression denotes there.
No name is taken by two members (`contract_nodup`).
-/

namespace Covenant

/-- **The bodies of a contract**, that of its constructor and those of its methods, each behind its
parameters. -/
def Contract.bodies (c : Contract) : List (List Parameter × List Stmt) :=
  c.construction.toList.map (fun own => (own.params, own.body)) ++
    c.methods.map fun m => (m.params, m.body)

namespace Resolve

open Source (Statement)

variable {scope : Scope}

/-! ## Parameters -/

/-- A parameter resolves if its name is free and its type resolves, in front of the others. -/
theorem parameters_cons_eq_ok {p : Source.Param} {rest : List Source.Param}
    {params : List Parameter} {inner : Scope} :
    parameters (p :: rest) scope = .ok (params, inner) ↔ scope.locals.has p.name = false ∧
      ∃ type, resolveType scope "" p.type = .ok type ∧ type.isWord ∧
        ∃ others, parameters rest (scope.withLocal p.name type) = .ok (others, inner) ∧
          params = ⟨p.name, type⟩ :: others := by
  rw [parameters, check_eq_ok, Bool.not_eq_true, bind_eq_ok]
  refine and_congr_right fun _ => exists_congr fun type => and_congr_right fun _ => ?_
  -- a record is no word, so that the check for records adds nothing
  cases type with
  | boolean | number | address | bytes | text =>
    refine bind_eq_ok.trans ⟨?_, ?_⟩
    · rintro ⟨⟨others, last⟩, hothers, h⟩
      cases pure_eq_ok.1 h
      exact ⟨rfl, others, hothers, rfl⟩
    · rintro ⟨-, others, hothers, rfl⟩
      exact ⟨_, hothers, rfl⟩
  | _ =>
    constructor
    · intro h
      cases h
    · rintro ⟨h, -⟩
      cases h

/-- Parameters only add locals. -/
theorem parameters_withoutLocals {ps : List Source.Param} {params : List Parameter}
    {inner : Scope} (h : parameters ps scope = .ok (params, inner)) :
    inner.withoutLocals = scope.withoutLocals := by
  induction ps generalizing scope params with
  | nil =>
    cases h
    rfl
  | cons p rest ih =>
    obtain ⟨-, type, -, -, others, hothers, -⟩ := parameters_cons_eq_ok.1 h
    exact (ih hothers :)

/-! ## Members -/

/-- The name of a member; a constructor has none. -/
def memberName? (m : Source.ClassMember) : Option String :=
  match m.body with
  | .constructor _ => none
  | .method method => some method.name
  | .property property => some property.name

/-- **A member has a body.** An expression in place of one is a body of one statement. -/
inductive HasBody : Source.MemberBody → List Statement → Prop
  | constructor {c} : HasBody (.constructor c) c.body.statements
  | method {m} : HasBody (.method m) m.body.statements
  | arrow {p a block} (h : p.initializer = some (.arrow a)) (hbody : a.body = .block block) :
      HasBody (.property p) block.statements
  | evaluated {p a e} (h : p.initializer = some (.arrow a)) (hbody : a.body = .value e) :
      HasBody (.property p) [.evaluate e.pos e]
  | returned {p a e} (h : p.initializer = some (.arrow a)) (hbody : a.body = .value e) :
      HasBody (.property p) [.returns e.pos (some e)]

/-- **A body is resolved in a scope**, to which only locals were added. -/
def ResolvedIn (scope : Scope) (ss : List Statement) (body : List Stmt) : Prop :=
  ∃ returns inner next r, inner.withoutLocals = scope.withoutLocals ∧
    Resolves returns ss inner next r ∧ r.body = body

/-- A body is that of a member of a class, resolved in a scope. -/
def MemberOf (scope : Scope) (c : Source.ClassDecl) (name : Option String) (body : List Stmt) :
    Prop :=
  ∃ m ∈ c.members, memberName? m = name ∧ ∃ ss, HasBody m.body ss ∧ ResolvedIn scope ss body

/-- **A contract is built from a class in a scope**: each of its bodies is that of a member, and
each initial value is that of an expression. -/
structure BuiltIn (scope : Scope) (c : Source.ClassDecl) (k : Contract) : Prop where
  construction : ∀ own ∈ k.construction, MemberOf scope c none own.body
  methods : ∀ m ∈ k.methods, MemberOf scope c (some m.name) m.body
  initials : ∀ v ∈ k.stateVars, ∀ e ∈ v.initial,
    ∃ source w, Denotes scope source w ∧ e = retag v.type w

/-- The parameters of a member. -/
def memberParams : Source.MemberBody → List Source.Param
  | .constructor c => c.params
  | .method m => m.params
  | .property p =>
    match p.initializer with
    | some (.arrow a) => a.params
    | _ => []

/-- **A body is written by a member**, behind its parameters: it is resolved in the scope of the
class with the parameters as its locals, and brings in the temporaries from one number up to
another. -/
def WrittenBy (scope : Scope) (m : Source.MemberBody) (ss : List Statement) (lo hi : Nat)
    (params : List Parameter) (body : List Stmt) : Prop :=
  HasBody m ss ∧ ∃ returns inner r,
    parameters (memberParams m) scope.withoutLocals = .ok (params, inner) ∧
      Resolves returns ss inner lo r ∧ r.body = body ∧ r.next = hi

theorem WrittenBy.resolvedIn {m : Source.MemberBody} {ss : List Statement} {lo hi : Nat}
    {params : List Parameter} {body : List Stmt} (h : WrittenBy scope m ss lo hi params body) :
    ResolvedIn scope ss body := by
  obtain ⟨-, returns, inner, r, hparams, hresolves, hbody, -⟩ := h
  exact ⟨returns, inner, lo, r, (parameters_withoutLocals hparams :), hresolves, hbody⟩

theorem construction_writtenBy {next next' : Nat} {c : Source.Constructor} {k : Construction}
    (h : construction scope next c = .ok (k, next')) :
    WrittenBy scope (.constructor c) c.body.statements next next' k.params k.body := by
  obtain ⟨⟨params, inner⟩, hparams, h⟩ := bind_eq_ok.1 h
  obtain ⟨r, hr, h⟩ := bind_eq_ok.1 h
  cases pure_eq_ok.1 h
  exact ⟨.constructor, _, inner, r, hparams, body_eq_ok.1 hr, rfl, rfl⟩

theorem routine_writtenBy {next next' : Nat} {visibility : Visibility} {m : Source.Method}
    {k : Routine} (h : routine scope next visibility m = .ok (k, next')) :
    k.name = m.name ∧
      WrittenBy scope (.method m) m.body.statements next next' k.params k.body := by
  obtain ⟨⟨params, inner⟩, hparams, h⟩ := bind_eq_ok.1 h
  obtain ⟨returns, -, h⟩ := bind_eq_ok.1 h
  obtain ⟨r, hr, h⟩ := bind_eq_ok.1 h
  cases pure_eq_ok.1 h
  exact ⟨rfl, .method, returns, inner, r, hparams, body_eq_ok.1 hr, rfl, rfl⟩

theorem arrowRoutine_writtenBy {next next' : Nat} {visibility : Visibility}
    {property : Source.Property} {arrow : Source.Arrow} {k : Routine}
    (harrow : property.initializer = some (.arrow arrow))
    (h : arrowRoutine scope next visibility property arrow = .ok (k, next')) :
    k.name = property.name ∧
      ∃ ss, WrittenBy scope (.property property) ss next next' k.params k.body := by
  have hps : memberParams (.property property) = arrow.params := by rw [memberParams, harrow]
  obtain ⟨⟨params, inner⟩, hparams, h⟩ := bind_eq_ok.1 h
  rw [← hps] at hparams
  dsimp only at h
  split at h
  · obtain ⟨returns, -, h⟩ := bind_eq_ok.1 h
    obtain ⟨r, hr, h⟩ := bind_eq_ok.1 h
    cases h
    exact ⟨rfl, _, .arrow harrow ‹_›, returns, inner, r, hparams, body_eq_ok.1 hr, rfl, rfl⟩
  · -- an arrow with an expression for its body: it returns the value, or drops it where nothing is
    -- returned
    rename_i value hvalue
    have hbody {returns : Ty} {r : Resolved}
        (hr : statement returns (if returns.isVoid then .evaluate value.pos value
          else .returns value.pos (some value)) inner next = .ok r) :
        ∃ ss, WrittenBy scope (.property property) ss next r.next params r.body := by
      rw [← body_singleton] at hr
      refine ⟨_, ?_, returns, inner, r, hparams, body_eq_ok.1 hr, rfl, rfl⟩
      split
      · exact .evaluated harrow hvalue
      · exact .returned harrow hvalue
    split at h
    · obtain ⟨returns, -, h⟩ := bind_eq_ok.1 h
      obtain ⟨r, hr, h⟩ := bind_eq_ok.1 h
      cases h
      exact ⟨rfl, hbody hr⟩
    · obtain ⟨v, -, h⟩ := bind_eq_ok.1 h
      obtain ⟨returns, -, h⟩ := bind_eq_ok.1 h
      obtain ⟨r, hr, h⟩ := bind_eq_ok.1 h
      cases h
      exact ⟨rfl, hbody hr⟩

theorem stateVar_initial {modifiers : List Source.Modifier} {property : Source.Property}
    {v : StateVar} (h : stateVar scope modifiers property = .ok v) {e : Expr}
    (he : e ∈ v.initial) : ∃ source w, Denotes scope source w ∧ e = retag v.type w := by
  rw [stateVar, check_eq_ok] at h
  obtain ⟨-, h⟩ := h
  split at h
  · rw [check_eq_ok] at h
    obtain ⟨w, hw, h⟩ := bind_eq_ok.1 h.2
    rw [check_eq_ok] at h
    cases pure_eq_ok.1 h.2
    cases he
    exact ⟨_, w, denotes_of_expression hw, rfl⟩
  · cases pure_eq_ok.1 h
    cases he

variable {p q : PartialClass} {m : Source.ClassMember}

/-- A name is claimed once. -/
theorem claim_eq_ok {pos : Position} {name : String} :
    p.claim pos name = .ok q ↔ name ∉ p.names ∧ q = { p with names := name :: p.names } := by
  rw [PartialClass.claim]
  by_cases h : name ∈ p.names
  · simp [h]
  · simp [h, eq_comm]

/-- **A member is resolved**: the constructor and each method as a body, an event not again, and
every other property as a method or as a variable. -/
inductive MemberResolved (scope : Scope) (p : PartialClass) (m : Source.ClassMember) :
    PartialClass → Prop
  | construction {c own next} (hbody : m.body = .constructor c)
      (hown : construction scope p.next c = .ok (own, next)) :
      MemberResolved scope p m { p with contract := { p.contract with construction := some own }, next }
  | method {written claimed own} (hbody : m.body = .method written)
      (hclaim : p.claim m.pos written.name = .ok claimed)
      (hown : routine scope claimed.next (visibilityOf m.modifiers) written = .ok own) :
      MemberResolved scope p m (claimed.addMethod own)
  | event {property} (hbody : m.body = .property property) (hevent : isEventType property.type) :
      MemberResolved scope p m p
  | arrow {property a claimed own} (hbody : m.body = .property property)
      (hevent : isEventType property.type = false)
      (hclaim : p.claim m.pos property.name = .ok claimed)
      (harrow : property.initializer = some (.arrow a))
      (hown : arrowRoutine scope claimed.next (visibilityOf m.modifiers) property a = .ok own) :
      MemberResolved scope p m (claimed.addMethod own)
  | data {property claimed v} (hbody : m.body = .property property)
      (hevent : isEventType property.type = false)
      (hclaim : p.claim m.pos property.name = .ok claimed) (harrow : isArrow property = false)
      (hv : stateVar scope m.modifiers property = .ok v) :
      MemberResolved scope p m (claimed.addVariable v)

/-- **A member that is added is of one of the kinds there are**, and resolved as such. -/
theorem addMember_eq_ok (h : addMember scope p m = .ok q) : MemberResolved scope p m q := by
  rw [addMember, check_eq_ok] at h
  obtain ⟨-, h⟩ := h
  split at h
  · rw [check_eq_ok] at h
    obtain ⟨⟨own, next⟩, hown, h⟩ := bind_eq_ok.1 h.2
    cases pure_eq_ok.1 h
    exact .construction ‹_› hown
  · obtain ⟨claimed, hclaimed, h⟩ := bind_eq_ok.1 h
    obtain ⟨own, hown, h⟩ := bind_eq_ok.1 h
    cases pure_eq_ok.1 h
    exact .method ‹_› hclaimed hown
  · -- a property is an event, a method written as an arrow, or data
    rename_i property hbody
    split at h
    · cases pure_eq_ok.1 h
      exact .event hbody ‹_›
    · rename_i hevent
      have hevent := Bool.eq_false_iff.2 hevent
      obtain ⟨claimed, hclaimed, h⟩ := bind_eq_ok.1 h
      split at h
      · obtain ⟨own, hown, h⟩ := bind_eq_ok.1 h
        cases pure_eq_ok.1 h
        exact .arrow hbody hevent hclaimed ‹_› hown
      · rename_i harrow
        obtain ⟨v, hv, h⟩ := bind_eq_ok.1 h
        cases pure_eq_ok.1 h
        refine .data hbody hevent hclaimed ?_ hv
        rw [isArrow]
        split
        · exact absurd ‹_› (harrow _)
        · rfl

/-! ## Names -/

/-- The name that a member takes; a constructor takes none, and an event is none of the members. -/
def takenName? (m : Source.ClassMember) : Option String :=
  match m.body with
  | .constructor _ => none
  | .method method => some method.name
  | .property property => if isEventType property.type then none else some property.name

/-- **The names that are taken** are those of some members, each once, and those of the variables
and methods that they became. -/
structure Taken (members : List Source.ClassMember) (p : PartialClass) : Prop where
  names : p.names = (members.filterMap takenName?).reverse
  nodup : p.names.Nodup
  perm : p.names.Perm (p.contract.variableNames ++ p.contract.methodNames)

theorem stateVar_name {modifiers : List Source.Modifier} {property : Source.Property}
    {v : StateVar} (h : stateVar scope modifiers property = .ok v) : v.name = property.name := by
  rw [stateVar, check_eq_ok] at h
  obtain ⟨-, h⟩ := h
  split at h
  · rw [check_eq_ok] at h
    obtain ⟨w, -, h⟩ := bind_eq_ok.1 h.2
    rw [check_eq_ok] at h
    cases pure_eq_ok.1 h.2
    rfl
  · cases pure_eq_ok.1 h
    rfl

theorem Taken.nodup_members {members : List Source.ClassMember} (h : Taken members p) :
    (members.filterMap takenName?).Nodup :=
  List.nodup_reverse.1 (h.names ▸ h.nodup)

theorem MemberResolved.taken {done : List Source.ClassMember}
    (h : MemberResolved scope p m q) (hp : Taken done p) : Taken (done ++ [m]) q := by
  obtain ⟨hnames, hnodup, hperm⟩ := hp
  have hkeeps (hname : takenName? m = none) :
      p.names = ((done ++ [m]).filterMap takenName?).reverse := by
    simp [List.filterMap_append, hname, hnames]
  have hclaims {name : String} (hname : takenName? m = some name) :
      name :: p.names = ((done ++ [m]).filterMap takenName?).reverse := by
    simp [List.filterMap_append, hname, hnames]
  have hmethod {own : Routine} {name : String} (hown : own.name = name) :
      (name :: p.names).Perm
        (p.contract.variableNames ++ (p.contract.methods ++ [own]).map Routine.name) := by
    rw [List.map_append, ← List.append_assoc, List.map_singleton, hown]
    exact (hperm.cons name).trans (List.perm_append_singleton _ _).symm
  cases h with
  | construction hbody => exact ⟨hkeeps (by simp [takenName?, hbody]), hnodup, hperm⟩
  | event hbody hevent => exact ⟨hkeeps (by simp [takenName?, hbody, hevent]), hnodup, hperm⟩
  | method hbody hclaim hown =>
    obtain ⟨hnew, rfl⟩ := claim_eq_ok.1 hclaim
    exact ⟨hclaims (by simp [takenName?, hbody]), List.nodup_cons.2 ⟨hnew, hnodup⟩,
      hmethod (routine_writtenBy hown).1⟩
  | arrow hbody hevent hclaim harrow hown =>
    obtain ⟨hnew, rfl⟩ := claim_eq_ok.1 hclaim
    exact ⟨hclaims (by simp [takenName?, hbody, hevent]), List.nodup_cons.2 ⟨hnew, hnodup⟩,
      hmethod (arrowRoutine_writtenBy harrow hown).1⟩
  | data hbody hevent hclaim _ hv =>
    obtain ⟨hnew, rfl⟩ := claim_eq_ok.1 hclaim
    refine ⟨hclaims (by simp [takenName?, hbody, hevent]), List.nodup_cons.2 ⟨hnew, hnodup⟩, ?_⟩
    rw [PartialClass.addVariable, Contract.variableNames, List.map_append, List.map_singleton,
      stateVar_name hv, List.append_assoc, List.singleton_append]
    exact (hperm.cons _).trans List.perm_middle.symm

/-- **No two members of a class take one name.** -/
theorem taken_of_foldlM {start finished : PartialClass} {members : List Source.ClassMember}
    (h : members.foldlM (addMember scope) start = .ok finished) (hstart : Taken [] start) :
    Taken members finished :=
  foldlM_tracks Taken [] (fun _ _ _ _ _ hp hq => (addMember_eq_ok hq).taken hp) hstart h

/-- The events have different names, if none is reported as repeated. -/
theorem repeatedEvent?_eq_none {seen : List String} {events : List Event}
    (h : repeatedEvent? seen events = none) :
    (∀ e ∈ events, e.name ∉ seen) ∧ (events.map Event.name).Nodup := by
  induction events generalizing seen with
  | nil => exact ⟨fun _ h => (nomatch h), .nil⟩
  | cons e rest ih =>
    rw [repeatedEvent?] at h
    split at h
    · cases h
    · rename_i hnew
      obtain ⟨hrest, hnodup⟩ := ih h
      have hfirst : e.name ∉ seen := by simpa using hnew
      refine ⟨List.forall_mem_cons.2 ⟨hfirst, fun other hother hmem => ?_⟩, ?_⟩
      · exact hrest other hother (List.mem_cons_of_mem _ hmem)
      · rw [List.map_cons, List.nodup_cons, List.mem_map]
        refine ⟨?_, hnodup⟩
        rintro ⟨other, hother, heq⟩
        exact hrest other hother (heq ▸ List.mem_cons_self)

/-! ## Contributions -/

/-- **What a member adds to a contract**: nothing, the constructor, a method or a variable. -/
inductive Adds (scope : Scope) (m : Source.ClassMember) (k : Contract) : Contract → Prop
  | nothing : Adds scope m k k
  | construction {own ss lo hi} (hname : memberName? m = none)
      (h : WrittenBy scope m.body ss lo hi own.params own.body) :
      Adds scope m k { k with construction := some own }
  | method {own ss lo hi} (hname : memberName? m = some own.name)
      (h : WrittenBy scope m.body ss lo hi own.params own.body) :
      Adds scope m k { k with methods := k.methods ++ [own] }
  | property {v} (h : ∀ e ∈ v.initial, ∃ source w, Denotes scope source w ∧ e = retag v.type w) :
      Adds scope m k { k with stateVars := k.stateVars ++ [v] }

/-- **Every member is resolved in the scope of the class.** -/
theorem addMember_adds (h : addMember scope p m = .ok q) :
    Adds scope m p.contract q.contract := by
  cases addMember_eq_ok h with
  | construction hbody hown =>
    exact .construction (by simp [memberName?, hbody]) (hbody ▸ construction_writtenBy hown)
  | method hbody hclaim hown =>
    obtain ⟨hname, hwritten⟩ := routine_writtenBy hown
    obtain ⟨-, rfl⟩ := claim_eq_ok.1 hclaim
    exact .method (by simp [memberName?, hbody, hname]) (hbody ▸ hwritten)
  | event => exact .nothing
  | arrow hbody _ hclaim harrow hown =>
    obtain ⟨hname, ss, hwritten⟩ := arrowRoutine_writtenBy harrow hown
    obtain ⟨-, rfl⟩ := claim_eq_ok.1 hclaim
    exact .method (by simp [memberName?, hbody, hname]) (hbody ▸ hwritten)
  | data _ _ hclaim _ hv =>
    obtain ⟨-, rfl⟩ := claim_eq_ok.1 hclaim
    exact .property fun e => stateVar_initial hv

/-- A member adds no body but the one it writes. -/
theorem Adds.mem_bodies {k k' : Contract} (h : Adds scope m k k')
    {b : List Parameter × List Stmt} (hb : b ∈ k'.bodies) :
    b ∈ k.bodies ∨ ∃ ss lo hi, WrittenBy scope m.body ss lo hi b.1 b.2 := by
  rw [Contract.bodies, List.mem_append] at hb ⊢
  cases h with
  | nothing | property => exact .inl hb
  | construction _ hbody =>
    rcases hb with hb | hb
    · cases List.mem_singleton.1 hb
      exact .inr ⟨_, _, _, hbody⟩
    · exact .inl (.inr hb)
  | method _ hbody =>
    rw [List.map_append, List.mem_append] at hb
    rcases hb with hb | hb | hb
    · exact .inl (.inl hb)
    · exact .inl (.inr hb)
    · cases List.mem_singleton.1 hb
      exact .inr ⟨_, _, _, hbody⟩

/-- What is kept while the members of a class are added. -/
structure Growing (scope : Scope) (c : Source.ClassDecl) (events : List Event)
    (p : PartialClass) : Prop where
  built : BuiltIn scope c p.contract
  name : p.contract.name = c.name
  bases : p.contract.bases = c.bases
  events : p.contract.events = events

variable {c : Source.ClassDecl} {events : List Event}

theorem BuiltIn.adds {k k' : Contract} (h : BuiltIn scope c k) (hm : m ∈ c.members)
    (hadds : Adds scope m k k') : BuiltIn scope c k' := by
  cases hadds with
  | nothing => exact h
  | construction hname hbody =>
    refine ⟨fun own hown => ?_, h.methods, h.initials⟩
    cases hown
    exact ⟨m, hm, hname, _, hbody.1, hbody.resolvedIn⟩
  | method hname hbody =>
    refine ⟨h.construction, List.forall_mem_append.2 ⟨h.methods, ?_⟩, h.initials⟩
    exact List.forall_mem_singleton.2 ⟨m, hm, hname, _, hbody.1, hbody.resolvedIn⟩
  | property hv =>
    exact ⟨h.construction, h.methods,
      List.forall_mem_append.2 ⟨h.initials, List.forall_mem_singleton.2 hv⟩⟩

theorem Adds.header {k k' : Contract} (h : Adds scope m k k') :
    k'.name = k.name ∧ k'.bases = k.bases ∧ k'.events = k.events := by
  cases h <;> exact ⟨rfl, rfl, rfl⟩

/-- A class grows by one member at a time. -/
theorem Growing.addMember (h : Growing scope c events p) (hm : m ∈ c.members)
    (hq : addMember scope p m = .ok q) : Growing scope c events q := by
  have hadds := addMember_adds hq
  obtain ⟨hname, hbases, hevents⟩ := hadds.header
  exact ⟨h.built.adds hm hadds, hname.trans h.name, hbases.trans h.bases, hevents.trans h.events⟩

/-! ## Classes -/

/-- The scope of the members of a class: its own events hide those it inherits. -/
def classScope (scope : Scope) (events : List Event) (properties : Table Ty) : Scope :=
  { scope with events := scope.events.putAll (events.map fun e => (e.name, e)), properties }

/-- **A contract is built in the scope of its class**, and declares the events of the class. -/
theorem contract_builtIn {next next' : Nat} {file : String} {k : Contract}
    (h : contract scope next file c = .ok (k, next')) :
    ∃ properties, ownEvents scope c = .ok k.events ∧
      BuiltIn (classScope scope k.events properties) c k ∧ k.name = c.name ∧ k.bases = c.bases := by
  obtain ⟨events, hevents, h⟩ := bind_eq_ok.1 h
  dsimp only at h
  split at h
  · cases h
  obtain ⟨properties, hproperties, h⟩ := bind_eq_ok.1 h
  obtain ⟨finished, hfinished, h⟩ := bind_eq_ok.1 h
  cases pure_eq_ok.1 h
  have hstart : Growing (classScope scope events properties) c events
      { contract := { pos := c.pos, name := c.name, file, bases := c.bases, events }, next } :=
    ⟨⟨fun _ h => (nomatch h), fun _ h => (nomatch h), fun _ h => (nomatch h)⟩, rfl, rfl, rfl⟩
  have hgrown := foldlM_keeps (Growing (classScope scope events properties) c events)
    (fun m hm p q hp hq => hp.addMember hm hq) hstart hfinished
  rw [hgrown.events]
  exact ⟨properties, hevents, hgrown.built, hgrown.name, hgrown.bases⟩

/-- **A contract gives every name once**: to one variable or method, and to one event. -/
theorem contract_nodup {next next' : Nat} {file : String} {k : Contract}
    (h : contract scope next file c = .ok (k, next')) :
    (k.variableNames ++ k.methodNames).Nodup ∧ k.eventNames.Nodup := by
  obtain ⟨-, hown, -⟩ := contract_builtIn h
  obtain ⟨events, hevents, h⟩ := bind_eq_ok.1 h
  obtain rfl := Except.ok.inj (hown.symm.trans hevents)
  dsimp only at h
  split at h
  · cases h
  rename_i hrepeated
  obtain ⟨properties, -, h⟩ := bind_eq_ok.1 h
  obtain ⟨finished, hfinished, h⟩ := bind_eq_ok.1 h
  cases pure_eq_ok.1 h
  have htaken := taken_of_foldlM hfinished ⟨rfl, .nil, .refl _⟩
  exact ⟨htaken.perm.nodup_iff.1 htaken.nodup,
    (repeatedEvent?_eq_none (Option.eq_none_iff_forall_ne_some.2 hrepeated)).2⟩

/-- **Every body of a contract is written by a member of its class.** -/
theorem contract_bodies {next next' : Nat} {file : String} {k : Contract}
    (h : contract scope next file c = .ok (k, next')) :
    ∃ events properties, ∀ b ∈ k.bodies, ∃ m ∈ c.members, ∃ ss lo hi,
      WrittenBy (classScope scope events properties) m.body ss lo hi b.1 b.2 := by
  obtain ⟨events, -, h⟩ := bind_eq_ok.1 h
  dsimp only at h
  split at h
  · cases h
  obtain ⟨properties, -, h⟩ := bind_eq_ok.1 h
  obtain ⟨finished, hfinished, h⟩ := bind_eq_ok.1 h
  cases pure_eq_ok.1 h
  refine ⟨events, properties, foldlM_keeps (fun p => ∀ b ∈ p.contract.bodies,
    ∃ m ∈ c.members, ∃ ss lo hi,
      WrittenBy (classScope scope events properties) m.body ss lo hi b.1 b.2)
    (fun m hm p q hp hq b hb => ?_) (fun _ h => absurd h List.not_mem_nil) hfinished⟩
  rcases (addMember_adds hq).mem_bodies hb with hb | ⟨ss, lo, hi, hb⟩
  · exact hp b hb
  · exact ⟨m, hm, ss, lo, hi, hb⟩

end Resolve

end Covenant
