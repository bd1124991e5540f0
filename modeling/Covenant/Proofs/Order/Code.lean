import Covenant.Emit.Code
import Covenant.Proofs.Order.Members
import Covenant.Storage.Layout

/-!
# Code of contracts that differ in the names of locals

Where the variables of a contract live follows from their types and, for readonly ones, from what is
assigned to them. The names of locals have no part in it (`plan_nameless`): they only stand in the
values that are kept until a contract is created.

Whether code can be generated for a contract does not depend on the names of locals, nor on the
order in which other contracts are known; nor does the choice of the contracts whose objects the
code needs (`Context.Nameless.creationPiece`, `Context.Nameless.runtimePiece`). The code itself
does: it declares the locals under their names.
-/

namespace Covenant

/-! ## Layouts -/

namespace Storage

/-- A location without the names of locals in the value it is set to. -/
def Location.nameless : Location → Location
  | .inlined source word => .inlined source.nameless word
  | .staged source index => .staged source.nameless index
  | location => location

/-- A cell without the names of locals. -/
def Cell.nameless (c : Cell) : Cell :=
  { owner := c.owner.nameless, location := c.location.nameless }

/-- **A layout without the names of locals.** -/
def Layout.nameless (l : Layout) : Layout :=
  { l with cells := l.cells.map Cell.nameless }

variable {c : Contract}

/-- A property is assigned the same values, but for the names of locals. -/
theorem assignments_nameless (name : String) (body : List Stmt) :
    assignments name (body.map Stmt.nameless) = (assignments name body).map Expr.nameless := by
  rw [assignments, assignments, Stmt.substatementsAll_nameless, List.filterMap_map,
    List.map_filterMap]
  refine List.filterMap_congr fun s _ => ?_
  cases s with
  | setProperty _ property value =>
    change (if property = name then _ else _) = Option.map _ (if property = name then _ else _)
    split <;> rfl
  | _ => rfl

/-- Where the value of a readonly variable comes from: its initial value and what the constructor
assigns to it. -/
theorem sources_nameless (c : Contract) (v : StateVar) :
    sources c.nameless v.nameless = (sources c v).map Expr.nameless := by
  rw [sources, sources, c.constructorBody_nameless, List.map_append]
  refine congrArg₂ _ ?_ (assignments_nameless _ _)
  rw [StateVar.nameless]
  cases v.initial <;> rfl

theorem firstWriter?_nameless (c : Contract) (name : String) :
    firstWriter? c.nameless name =
      (firstWriter? c name).map fun found => (found.1.nameless, found.2.nameless) := by
  rw [firstWriter?, firstWriter?, Contract.nameless]
  induction c.methods with
  | nil => rfl
  | cons m rest ih =>
    have hfirst : (assignments name m.nameless.body).head? =
        (assignments name m.body).head?.map Expr.nameless := by
      rw [Routine.nameless, assignments_nameless, List.head?_map]
    rw [List.map_cons, List.findSome?_cons, List.findSome?_cons, hfirst, ih]
    cases (assignments name m.body).head? <;> rfl

/-- As many values are kept until the contract is created. -/
theorem stagedCount_nameless (cells : List Cell) :
    stagedCount (cells.map Cell.nameless) = stagedCount cells := by
  rw [stagedCount, stagedCount, List.countP_map]
  refine List.countP_congr fun cell _ => ?_
  obtain ⟨owner, location⟩ := cell
  cases location <;> rfl

theorem bucketCount_nameless (cells : List Cell) (arity : Nat) :
    bucketCount (cells.map Cell.nameless) arity = bucketCount cells arity := by
  rw [bucketCount, bucketCount, List.countP_map]
  refine List.countP_congr fun cell _ => ?_
  obtain ⟨owner, location⟩ := cell
  cases location <;> rfl

/-- **A readonly variable lives at the same place** whatever the names of locals. -/
theorem placeImmutable_nameless (c : Contract) (earlier : List Cell) (v : StateVar) :
    Paired (fun l l' => l' = l.nameless) (placeImmutable c earlier v)
      (placeImmutable c.nameless (earlier.map Cell.nameless) v.nameless) := by
  have hwriter : firstWriter? c.nameless v.nameless.name = _ := firstWriter?_nameless c v.name
  rw [placeImmutable, placeImmutable, hwriter, sources_nameless]
  cases firstWriter? c v.name with
  | some found =>
    obtain ⟨m, value⟩ := found
    change Paired _ (if value.isMissing then _ else _) (if value.nameless.isMissing then _ else _)
    exact .ite (by rw [Expr.isMissing_nameless]) (fun _ => trivial) fun _ => trivial
  | none =>
    match sources c v with
    | [] => exact trivial
    | first :: _ :: _ => cases first <;> exact trivial
    | [source] =>
      have hplaced : Location.staged source.nameless (stagedCount (earlier.map Cell.nameless)) =
          (Location.staged source (stagedCount earlier)).nameless := by
        rw [stagedCount_nameless]
        rfl
      cases source with
      | literal pos type text => exact .bind_same fun word => rfl
      | _ => exact hplaced

/-- A slot is taken or free, whatever the locals are called. -/
theorem claim_nameless (earlier : List Cell) (v : StateVar) (slot : Word) :
    Paired (fun _ _ => True) (claim earlier v slot)
      (claim (earlier.map Cell.nameless) v.nameless slot) := by
  have hclaims (l : Location) : l.nameless.claims = l.claims := by
    cases l <;> rfl
  have hfind : (earlier.map Cell.nameless).find? (·.location.claims.contains slot) =
      (earlier.find? (·.location.claims.contains slot)).map Cell.nameless := by
    rw [List.find?_map]
    simp only [Function.comp_def, Cell.nameless, hclaims]
  rw [claim, claim, hfind]
  cases earlier.find? (·.location.claims.contains slot) <;> exact trivial

/-- **One variable is placed alike**: the kind of its location follows from its type and from the
form of its sources. -/
theorem place_nameless (c : Contract) (earlier : List Cell) (cursor : Word) (v : StateVar) :
    Paired (fun r r' => r' = (r.1.nameless, r.2)) (place c earlier cursor v)
      (place c.nameless (earlier.map Cell.nameless) cursor v.nameless) := by
  -- all types but mappings and arrays are placed in one way
  have hscalar : Paired (fun r r' => r' = (r.1.nameless, r.2))
      (if v.immutable then do
        let location ← placeImmutable c earlier v
        return (location, cursor)
      else do
        claim earlier v cursor
        return (.scalar cursor, cursor + 1))
      (if v.nameless.immutable then do
        let location ← placeImmutable c.nameless (earlier.map Cell.nameless) v.nameless
        return (location, cursor)
      else do
        claim (earlier.map Cell.nameless) v.nameless cursor
        return (.scalar cursor, cursor + 1)) := by
    refine .ite .rfl (fun _ => ?_) fun _ => ?_
    · refine (placeImmutable_nameless c earlier v).bind ?_
      rintro location _ rfl
      exact rfl
    · exact (claim_nameless earlier v cursor).bind fun _ _ _ => rfl
  have htype : v.nameless.type = v.type := rfl
  rw [place, place, htype]
  cases v.type with
  | mapping keys value =>
    refine (?_ : (_, _) = (_, _))
    rw [bucketCount_nameless]
    rfl
  | array item =>
    exact (claim_nameless earlier v _).bind fun _ _ _ =>
      (claim_nameless earlier v _).bind fun _ _ _ => rfl
  | _ => exact hscalar

/-- All variables are placed alike, by induction on them. -/
theorem placeAll_nameless (c : Contract) (earlier : List Cell) (cursor : Word)
    (vars : List StateVar) :
    Paired (fun l l' => l' = l.nameless) (placeAll c earlier cursor vars)
      (placeAll c.nameless (earlier.map Cell.nameless) cursor (vars.map StateVar.nameless)) := by
  induction vars generalizing earlier cursor with
  | nil => exact rfl
  | cons v rest ih =>
    rw [List.map_cons, placeAll, placeAll]
    refine (place_nameless c earlier cursor v).bind ?_
    rintro ⟨location, cursor⟩ _ rfl
    have hrest := ih (earlier ++ [{ owner := v, location }]) cursor
    rwa [List.map_append] at hrest

/-- **A contract has the same layout** whatever the names of locals. -/
theorem plan_nameless (c : Contract) :
    Paired (fun l l' => l' = l.nameless) (plan c) (plan c.nameless) :=
  placeAll_nameless c [] 0 c.stateVars

end Storage

/-! ## Code -/

/-- The exposed methods are the same. -/
theorem Abi.exposedMethods_nameless (c : Contract) :
    exposedMethods c.nameless = (exposedMethods c).map Routine.nameless := by
  rw [exposedMethods, exposedMethods, Contract.nameless, List.filter_map]
  rfl

namespace Emit

/-- Two computations both succeed, or neither does. -/
abbrev Both {ε α β : Type} (x : Except ε α) (y : Except ε β) : Prop :=
  Paired (fun _ _ => True) x y

/-- **Code is generated for a contract without the names of locals**, beside others without them. -/
structure Context.Nameless (x y : Context) : Prop where
  contract : y.contract = x.contract.nameless
  layout : y.layout = x.layout.nameless
  creation : y.creation = x.creation
  lookup : ∀ name, y.lookup name = (x.lookup name).map Contract.nameless

variable {x y : Context}

/-- The value of a readonly variable can be kept as a source, or cannot, in either contract. -/
theorem sourceOf_nameless (e : Expr) : Both (sourceOf e) (sourceOf e.nameless) := by
  rw [sourceOf, sourceOf, Expr.render?, Expr.render?, Expr.isPrintable_nameless]
  cases e.isPrintable <;> exact trivial

/-- An expression is named in a message, and nothing comes of it. -/
theorem refuse_nameless {α β : Type} (e : Expr) {f g : String → Failure} :
    Both (do throw (f (← sourceOf e)) : Except Failure α)
      (do throw (g (← sourceOf e.nameless)) : Except Failure β) :=
  (sourceOf_nameless e).bind fun _ _ _ => trivial

namespace Context.Nameless

/-! ## Properties -/

/-- The location of a property is found in both contexts or in neither. -/
theorem location (h : x.Nameless y) (pos : Position) (name : String) :
    Paired (fun l l' => l' = l.nameless) (x.location pos name) (y.location pos name) := by
  have hfind : y.layout.location? name =
      (x.layout.location? name).map Storage.Location.nameless := by
    rw [h.layout, Storage.Layout.location?, Storage.Layout.nameless, ← List.map_reverse,
      List.find?_map, Option.map_map, Storage.Layout.location?, Option.map_map]
    rfl
  rw [Context.location, Context.location, hfind]
  cases x.layout.location? name with
  | none => exact trivial
  | some location => exact rfl

/-- As many indices fit a property. -/
theorem checkIndexed (h : x.Nameless y) (pos : Position) (name : String) (given : Nat) :
    Both (x.checkIndexed pos name given) (y.checkIndexed pos name given) := by
  refine (h.location pos name).bind ?_
  rintro location _ rfl
  cases location <;> exact (Paired.refl _).mono fun _ _ _ => trivial

theorem readProperty (h : x.Nameless y) (pos : Position) (name : String) :
    Both (x.readProperty pos name) (y.readProperty pos name) := by
  refine (h.location pos name).bind ?_
  rintro location _ rfl
  cases location <;> exact trivial

theorem readLength (h : x.Nameless y) (pos : Position) (name : String) :
    Both (x.readLength pos name) (y.readLength pos name) := by
  refine (h.location pos name).bind ?_
  rintro location _ rfl
  cases location <;> exact trivial

/-! ## Other contracts -/

/-- A call of an own method depends on its name and the number of its arguments. -/
theorem internalCall (h : x.Nameless y) (e : Expr) (target : String) (args : Nat) :
    Both (x.internalCall e target args) (y.internalCall e.nameless target args) := by
  rw [Context.internalCall, Context.internalCall, h.contract, Contract.method?_nameless]
  cases x.contract.method? target with
  | none => exact trivial
  | some m =>
    exact .ite .rfl (fun _ => trivial) fun _ => .ite .rfl (fun _ => refuse_nameless e) fun _ =>
      trivial

/-- A call of another contract depends on what that contract offers. -/
theorem externalCall (h : x.Nameless y) (e : Expr) (contract target : String) (args : Nat) :
    Both (x.externalCall e contract target args)
      (y.externalCall e.nameless contract target args) := by
  rw [Context.externalCall, Context.externalCall, h.lookup]
  cases x.lookup contract with
  | none => exact trivial
  | some other =>
    have hmethod : (other.nameless.method? target).filter (·.visibility.isExposed) =
        ((other.method? target).filter (·.visibility.isExposed)).map Routine.nameless := by
      rw [Contract.method?_nameless, Option.filter_map]
      rfl
    dsimp only [Option.map_some]
    rw [hmethod]
    cases (other.method? target).filter (·.visibility.isExposed) with
    | none => exact trivial
    | some m =>
      exact .ite .rfl (fun _ => trivial) fun _ => .ite .rfl (fun _ => refuse_nameless e) fun _ =>
        .ite .rfl (fun _ => trivial) fun _ => trivial

/-- Whether a contract can be deployed depends on its constructor. -/
theorem checkDeploy (h : x.Nameless y) (pos : Position) (contract : String) (args : Nat) :
    Both (x.checkDeploy pos contract args) (y.checkDeploy pos contract args) := by
  rw [Context.checkDeploy, Context.checkDeploy, h.lookup]
  cases x.lookup contract with
  | none => exact trivial
  | some other =>
    dsimp only [Option.map_some]
    rw [other.constructorParams_nameless]
    exact .ite .rfl (fun _ => trivial) fun _ => trivial

/-- The receiver that is kept in a variable belongs to one contract. -/
theorem storedReceiver (h : x.Nameless y) (e : Expr) (pos : Position) (name : String) :
    Paired (fun r r' => r'.1 = r.1) (x.storedReceiver e pos name)
      (y.storedReceiver e.nameless pos name) := by
  rw [Context.storedReceiver, Context.storedReceiver, h.contract, Contract.stateVar?_nameless]
  cases x.contract.stateVar? name with
  | none => exact trivial
  | some v =>
    have htype : v.nameless.type = v.type := rfl
    dsimp only [Option.map_some]
    rw [htype]
    split
    · exact (h.readProperty pos name).bind fun _ _ _ => rfl
    · exact (sourceOf_nameless e).bind fun _ _ _ => trivial

/-! ## Expressions -/

theorem length_namelessEach (es : List Expr) : (Expr.namelessEach es).length = es.length := by
  rw [Expr.namelessEach_eq_map, List.length_map]

mutual
/-- **An expression has code** with the names of its locals if it has code without them. -/
theorem expr (h : x.Nameless y) : ∀ e : Expr, Both (x.expr e) (y.expr e.nameless)
  | .literal _ _ _ => .bind_same fun _ => trivial
  | .var _ _ | .this _ => trivial
  | .storage pos name => h.readProperty pos name
  | .entry pos property indices => by
    rw [Expr.nameless, Context.expr, Context.expr, length_namelessEach]
    exact (h.checkIndexed pos property _).bind fun _ _ _ =>
      (h.exprs indices).bind fun _ _ _ => trivial
  | .length pos property => h.readLength pos property
  | .binary _ _ left right =>
    (h.expr left).bind fun _ _ _ => (h.expr right).bind fun _ _ _ => trivial
  | .not _ value => (h.expr value).bind fun _ _ _ => trivial
  | .external _ _ address => by
    rw [Expr.nameless, Context.expr, Context.expr]
    exact h.expr address
  | .environment _ _ _ => (Paired.refl _).mono fun _ _ _ => trivial
  | .hash _ inputs => (h.exprs inputs).bind fun _ _ _ => trivial
  | .call pos target (.this p) args => by
    -- The receiver decides how a call is generated, so it is put into the form the generator
    -- matches on before the generator is unfolded.
    change Both _ (y.expr (.call pos target (.this p) (Expr.namelessEach args)))
    rw [Context.expr, Context.expr, length_namelessEach]
    exact (h.exprs args).bind fun _ _ _ =>
      (h.internalCall (.call pos target (.this p) args) target _).bind fun _ _ _ => trivial
  | .call pos target (.external p contract address) args => by
    change Both _
      (y.expr (.call pos target (.external p contract address.nameless) (Expr.namelessEach args)))
    rw [Context.expr, Context.expr, length_namelessEach]
    exact (h.exprs args).bind fun _ _ _ => (h.expr address).bind fun _ _ _ =>
      (h.externalCall (.call pos target (.external p contract address) args) contract target
        _).bind fun _ _ _ => trivial
  | .call pos target (.storage p name) args => by
    change Both _ (y.expr (.call pos target (.storage p name) (Expr.namelessEach args)))
    rw [Context.expr, Context.expr, length_namelessEach]
    refine (h.exprs args).bind fun _ _ _ =>
      (h.storedReceiver (.call pos target (.storage p name) args) p name).bind ?_
    rintro ⟨_, _⟩ ⟨contract, _⟩ rfl
    exact (h.externalCall (.call pos target (.storage p name) args) contract target
      _).bind fun _ _ _ => trivial
  | .deploy pos contract args => by
    rw [Expr.nameless, Context.expr, Context.expr, length_namelessEach]
    exact (h.checkDeploy pos contract _).bind fun _ _ _ =>
      (h.exprs args).bind fun _ _ _ => trivial
  | .conditional pos condition yes no => refuse_nameless (.conditional pos condition yes no)
  | .record pos shape fields => refuse_nameless (.record pos shape fields)
  | .call _ _ (.literal _ _ _) args | .call _ _ (.var _ _) args | .call _ _ (.entry _ _ _) args
  | .call _ _ (.length _ _) args | .call _ _ (.binary _ _ _ _) args | .call _ _ (.not _ _) args
  | .call _ _ (.environment _ _ _) args | .call _ _ (.hash _ _) args
  | .call _ _ (.call _ _ _ _) args | .call _ _ (.deploy _ _ _) args
  | .call _ _ (.conditional _ _ _ _) args | .call _ _ (.record _ _ _) args
  | .call _ _ .missing args =>
    (h.exprs args).bind fun _ _ _ => refuse_nameless (.call _ _ _ args)
  | .missing => trivial

/-- Expressions have code in both contexts or in neither, one by one. -/
theorem exprs (h : x.Nameless y) : ∀ es : List Expr,
    Both (x.exprs es) (y.exprs (Expr.namelessEach es))
  | [] => trivial
  | e :: es => (h.expr e).bind fun _ _ _ => (h.exprs es).bind fun _ _ _ => trivial
end

/-! ## Statements -/

/-- A property may be assigned to in both contexts or in neither. -/
theorem checkAssignable (h : x.Nameless y) (pos : Position) (name : String) :
    Both (x.checkAssignable pos name) (y.checkAssignable pos name) := by
  refine (h.location pos name).bind ?_
  rintro location _ rfl
  cases location with
  | staged =>
    rw [← h.creation]
    exact .ite .rfl (fun _ => trivial) fun _ => trivial
  | _ => exact trivial

/-- A body that returns has code in both contexts or in neither, be it with a value or without. -/
theorem exit (h : x.Nameless y) (pos : Position) (returns : Ty) (e : Expr) :
    Both (x.exit pos returns e) (y.exit pos returns e.nameless) := by
  cases e with
  | record p shape fields =>
    refine .bind_same fun _ => ?_
    rw [length_namelessEach]
    exact .check .rfl fun _ => (h.exprs fields).bind fun _ _ _ => trivial
  | _ =>
    refine .bind_same fun _ => ?_
    generalize resultVars returns = vars
    match vars with
    | [] | _ :: _ :: _ => exact trivial
    | [_] => exact (h.expr _).bind fun _ _ _ => trivial

theorem exprs_map (h : x.Nameless y) (es : List Expr) :
    Both (x.exprs es) (y.exprs (es.map Expr.nameless)) := by
  rw [← Expr.namelessEach_eq_map]
  exact h.exprs es

mutual
/-- **A statement has code** with the names of locals if it has code without them. -/
theorem statement (h : x.Nameless y) (returns : Ty) : ∀ s : Stmt,
    Both (x.statement returns s) (y.statement returns s.nameless)
  | .setProperty pos property value =>
    (h.checkAssignable pos property).bind fun _ _ _ => (h.expr value).bind fun _ _ _ => trivial
  | .setEntry pos property indices value => by
    rw [Stmt.nameless, Context.statement, Context.statement, List.length_map]
    exact (h.checkIndexed pos property _).bind fun _ _ _ => (h.exprs_map indices).bind fun _ _ _ =>
      (h.expr value).bind fun _ _ _ => trivial
  | .declare _ _ _ none | .exit _ none | .skip _ => trivial
  | .declare _ _ _ (some value) | .setVariable _ _ value | .throw _ value =>
    (h.expr value).bind fun _ _ _ => trivial
  | .exit pos (some value) => h.exit pos returns value
  | .branch _ condition yes no => by
    have hempty : (Stmt.namelessAll no).isEmpty = no.isEmpty := by cases no <;> rfl
    rw [Stmt.nameless, Context.statement, Context.statement, hempty]
    refine (h.expr condition).bind fun _ _ _ => (h.statements returns yes).bind fun _ _ _ => ?_
    exact .ite .rfl (fun _ => trivial) fun _ =>
      (h.statements returns no).bind fun _ _ _ => trivial
  | .emit pos event args => by
    have hevent : y.contract.event? event = x.contract.event? event := by
      rw [h.contract]
      rfl
    rw [Stmt.nameless, Context.statement, Context.statement, hevent]
    exact .ite .rfl (fun _ => (h.exprs_map args).bind fun _ _ _ => trivial) fun _ => trivial
  | .evaluate _ value => (h.expr value).bind fun _ _ _ => trivial

/-- The statements of a body have code in both contexts or in neither, one by one. -/
theorem statements (h : x.Nameless y) (returns : Ty) : ∀ body : List Stmt,
    Both (x.statements returns body) (y.statements returns (Stmt.namelessAll body))
  | [] => trivial
  | s :: rest =>
    (h.statement returns s).bind fun _ _ _ => (h.statements returns rest).bind fun _ _ _ => trivial
end

theorem statements_map (h : x.Nameless y) (returns : Ty) (body : List Stmt) :
    Both (x.statements returns body) (y.statements returns (body.map Stmt.nameless)) := by
  rw [← Stmt.namelessAll_eq_map]
  exact h.statements returns body

/-- A method has code in both contexts or in neither. -/
theorem method (h : x.Nameless y) (m : Routine) : Both (x.method m) (y.method m.nameless) :=
  (h.statements_map m.returns m.body).bind fun _ _ _ => .bind_same fun _ => trivial

theorem constructorBody (h : x.Nameless y) (k : Construction) :
    Both (x.constructorBody k) (y.constructorBody k.nameless) :=
  (h.statements_map .void k.body).bind fun _ _ _ => trivial

theorem methods (h : x.Nameless y) (methods : List Routine) :
    Paired (List.Forall₂ fun _ _ => True) (methods.mapM x.method)
      ((methods.map Routine.nameless).mapM y.method) :=
  .mapM (List.forall₂_map_right_iff.2 (List.forall₂_same.2 fun m _ => h.method m))

end Context.Nameless

/-! ## What bodies refer to -/

/-- The bodies deploy the same contracts, in the same order. -/
theorem deployments_nameless (body : List Stmt) :
    deployments (body.map Stmt.nameless) = deployments body := by
  rw [deployments, deployments, Stmt.expressionsOf_nameless, List.filterMap_map]
  refine List.filterMap_congr fun e _ => ?_
  cases e <;> rfl

theorem ownCalls_nameless (body : List Stmt) :
    ownCalls (body.map Stmt.nameless) = ownCalls body := by
  rw [ownCalls, ownCalls, Stmt.expressionsOf_nameless, List.filterMap_map]
  refine List.filterMap_congr fun e _ => ?_
  cases e with
  | call _ _ receiver _ => cases receiver <;> rfl
  | _ => rfl

/-- The bodies log the same events, in the same order. -/
theorem loggedEvents_nameless (body : List Stmt) :
    loggedEvents (body.map Stmt.nameless) = loggedEvents body := by
  rw [loggedEvents, loggedEvents, Stmt.substatementsAll_nameless, List.filterMap_map]
  refine List.filterMap_congr fun s _ => ?_
  cases s <;> rfl

/-- The same methods are reached from a body. -/
theorem reachedMethods_nameless (c : Contract) (body : List Stmt) :
    reachedMethods c.nameless (body.map Stmt.nameless) =
      (reachedMethods c body).map Routine.nameless := by
  have hedges : (c.methods.map Routine.nameless).map (fun m => (m.name, ownCalls m.body)) =
      c.methods.map fun m => (m.name, ownCalls m.body) := by
    simp [Routine.nameless, ownCalls_nameless]
  rw [reachedMethods, reachedMethods, Contract.nameless, ownCalls_nameless, hedges,
    List.filter_map]
  rfl

theorem flatMap_body_nameless (methods : List Routine) :
    (methods.map Routine.nameless).flatMap Routine.body =
      (methods.flatMap Routine.body).map Stmt.nameless := by
  rw [List.flatMap_map, List.map_flatMap]
  rfl

namespace Context.Nameless

/-- **The objects that the code needs are those of the same contracts**, in the same order. -/
theorem deployed (h : x.Nameless y) (bodies : List Stmt) :
    (y.deployed (bodies.map Stmt.nameless)).map Contract.name =
      (x.deployed bodies).map Contract.name := by
  rw [Context.deployed, Context.deployed, deployments_nameless, List.map_filterMap,
    List.map_filterMap]
  refine List.filterMap_congr fun name _ => ?_
  rw [h.lookup, Option.map_map]
  rfl

/-- An event that is not known is found missing in both contexts. -/
theorem checkLogged (h : x.Nameless y) (bodies : List Stmt) :
    y.checkLogged (bodies.map Stmt.nameless) = x.checkLogged bodies := by
  rw [Context.checkLogged, Context.checkLogged, Context.logged, Context.logged,
    loggedEvents_nameless, h.contract]
  rfl

/-- The variables are initialized by the same values, but for the names of locals. -/
theorem initializers (h : x.Nameless y) :
    y.initializers = x.initializers.map Stmt.nameless := by
  rw [Context.initializers, Context.initializers, h.layout, Storage.Layout.nameless,
    List.filterMap_map, List.map_filterMap]
  refine List.filterMap_congr fun cell _ => ?_
  have hinlined : cell.nameless.location.isInlined = cell.location.isInlined := by
    obtain ⟨owner, location⟩ := cell
    cases location <;> rfl
  change (if cell.nameless.location.isInlined then none else
    (cell.owner.initial.map Expr.nameless).map _) = _
  rw [hinlined]
  split
  · rfl
  · cases cell.owner.initial <;> rfl

/-! ## Pieces -/

/-- **The code that creates a contract** is there with the names of locals if it is there without
them, and needs the same other contracts. -/
theorem creationPiece (h : x.Nameless y) :
    Paired (fun p q => q.deploys = p.deploys) x.creationPiece y.creationPiece := by
  have hbodies : y.initializers ++ y.contract.constructorBody =
      (x.initializers ++ x.contract.constructorBody).map Stmt.nameless := by
    rw [h.initializers, h.contract, Contract.constructorBody_nameless, List.map_append]
  rw [Context.creationPiece, Context.creationPiece]
  dsimp only
  rw [hbodies, h.contract, reachedMethods_nameless, flatMap_body_nameless, ← List.map_append,
    h.checkLogged, h.initializers]
  generalize reachedMethods x.contract _ = reached
  have hconstruction : Paired (List.Forall₂ fun _ _ => True)
      (x.contract.construction.toList.mapM x.constructorBody)
      (x.contract.nameless.construction.toList.mapM y.constructorBody) := by
    refine Paired.mapM ?_
    rw [Contract.nameless]
    cases x.contract.construction with
    | none => exact .nil
    | some k => exact .cons (h.constructorBody k) .nil
  refine (h.statements_map .void x.initializers).bind fun _ _ _ => ?_
  refine hconstruction.bind fun _ _ _ => ?_
  refine (h.methods reached).bind fun _ _ _ => .bind_same fun _ => h.deployed _

/-- **The code that stays** is there with the names of locals if it is there without them, and needs
the same other contracts. -/
theorem runtimePiece (h : x.Nameless y) :
    Paired (fun p q => q.deploys = p.deploys) x.runtimePiece y.runtimePiece := by
  have hmethods : x.contract.nameless.methods = x.contract.methods.map Routine.nameless := rfl
  rw [Context.runtimePiece, Context.runtimePiece]
  dsimp only
  have hchecks : ((Abi.exposedMethods x.contract).map Routine.nameless).forM
      (fun m => checkResult m.returns) =
      (Abi.exposedMethods x.contract).forM fun m => checkResult m.returns := by
    generalize Abi.exposedMethods x.contract = exposed
    induction exposed with
    | nil => rfl
    | cons m rest ih =>
      change (checkResult m.returns >>= fun _ => (rest.map Routine.nameless).forM _) =
        (checkResult m.returns >>= fun _ => rest.forM _)
      rw [ih]
  rw [h.contract, Abi.exposedMethods_nameless, hmethods, flatMap_body_nameless, h.checkLogged,
    hchecks]
  exact .bind_same fun _ => (h.methods _).bind fun _ _ _ => .bind_same fun _ => h.deployed _

end Context.Nameless

end Emit

end Covenant
