import Covenant.Proofs.Simulation.Bodies
import Covenant.Proofs.Storage.Readonly

/-!
# Methods on the machine

The functions of a contract's methods do what the methods do (`methods_follow_reference`). Both
pieces of code are linked, so a function finds what it applies. No method assigns a readonly
variable, so the words of those do not change while a method runs.
-/

namespace Covenant

namespace Storage

/-! ## Readonly variables -/

/-- **No method assigns a readonly variable** whose value is set at construction. -/
theorem plan_unassigned {c : Contract} {layout : Layout} (h : plan c = .ok layout) {m : Routine}
    (hm : m ∈ c.methods) {pos : Position} {name : String} {value source : Expr} {index : Nat}
    (hassigned : .setProperty pos name value ∈ Stmt.substatementsAll m.body) :
    layout.location? name ≠ some (.staged source index) := by
  intro hlocation
  obtain ⟨v, -, rfl, -, hplaced⟩ := placed_of_location? h hlocation
  have hvalues : value ∈ assignments v.name m.body := mem_assignments.2 ⟨pos, hassigned⟩
  cases hplaced with
  | kept _ hkept => exact hkept trivial
  | staged _ hsound =>
    rw [hsound.unassigned m hm] at hvalues
    cases hvalues

end Storage

namespace Simulation

open Emit Machine
open Reference (Ending)

variable {x : Context} {host : Host} {w : Reference.World} {code : List Yul.Function}
  {bodies : List Stmt} {p rounds : Nat} {before : List (List UInt8 × List Word)}
  {returns : Ty} {ref : Reference.State} {s : State}

/-! ## Results -/

theorem apart_resultVars (returns : Ty) : Apart (resultVars returns) := by
  intro n hmem
  have hfirst : (localName n).toList.head? = some 'v' := by simp [localName]
  have hresult : ∀ name ∈ resultVars returns, name.toList.head? = some 'r' := by
    intro name hname
    unfold resultVars at hname
    split at hname
    · cases hname
    · cases hname
    · cases hname
    · obtain ⟨i, -, rfl⟩ := List.mem_map.1 hname
      simp
    · rw [List.mem_singleton.1 hname]
      rfl
  rw [hresult _ hmem] at hfirst
  cases hfirst

theorem length_resultVars (returns : Ty) :
    (resultVars returns).length = (resultTypes returns).length := by
  unfold resultVars resultTypes
  split <;> simp

/-- As many words are returned as there are results. -/
theorem length_words {body : List Stmt} {ys : List Yul.Stmt} (hcodes : CodesBody x returns body ys)
    {words : List Word} {s t : Reference.State}
    (h : Reference.execAll w body s = .ok (.left (some words), t)) :
    words.length = (resultVars returns).length := by
  obtain ⟨pos, value, ref, hmem, hwords⟩ := Reference.execAll_left body h
  obtain ⟨code, hcode⟩ := hcodes.substatements _ hmem
  cases hcode with
  | exitWord hreturns hvalue =>
    rw [returned_of_codes hvalue] at hwords
    rw [Reference.length_evalEach hwords, hreturns]
    rfl
  | exitRecord hcount => rw [Reference.length_evalEach hwords, hcount]

/-- Names that all differ are found with their words. -/
theorem map_get?_zip {names : List String} {words : List Word} (hnodup : names.Nodup)
    (hlength : words.length = names.length) :
    names.map (fun name => (Table.get? (names.zip words) name).getD 0) = words := by
  have hkeys : (names.zip words).map Prod.fst = names :=
    List.map_fst_zip (Nat.le_of_eq hlength.symm)
  refine List.ext_getElem (by rw [List.length_map, hlength]) fun i h1 h2 => ?_
  have hi : i < (names.zip words).length := by
    rw [List.length_zip, hlength, Nat.min_self]
    rwa [hlength] at h2
  have hmem := List.getElem_mem hi
  rw [List.getElem_zip] at hmem
  rw [List.getElem_map, Table.get?_of_mem (by rwa [hkeys]) hmem]
  rfl

/-- The results of a function are the words that are returned. -/
theorem map_resultsOf {names : List String} (hnodup : names.Nodup) {ending : Ending}
    (hlength : ∀ words, ending = .left (some words) → words.length = names.length) :
    (names.map fun name => ((resultsOf names ending).get? name).getD 0)
      = ending.words names.length := by
  have hzeros : (names.map fun name => ((Table.get? (names.map (·, (0 : Word))) name).getD 0))
      = List.replicate names.length 0 := by
    rw [← List.map_const']
    refine List.map_congr_left fun name _ => ?_
    cases hget : Table.get? (names.map (·, (0 : Word))) name with
    | none => rfl
    | some a =>
      obtain ⟨_, -, h⟩ := List.mem_map.1 (Table.mem_of_get? hget)
      cases h
      rfl
  cases ending with
  | next => exact hzeros
  | left words =>
    cases words with
    | none => exact hzeros
    | some words => exact map_get?_zip hnodup (hlength words rfl)

/-! ## Methods -/

/-- **A method that calls nothing**: its body holds no call and no deployment, is well scoped, its
literals are words, and its events have as many arguments as parameters. -/
structure Contained (c : Contract) (m : Routine) : Prop where
  calls : ∀ pos target receiver args,
    .call pos target receiver args ∉ Stmt.expressionsOf m.body
  deploys : ∀ pos contract args, .deploy pos contract args ∉ Stmt.expressionsOf m.body
  placed : Stmt.Scoped (fun _ => False) (m.params.map Typed.name) m.body
  literals : ∀ pos type text, .literal pos type text ∈ Stmt.expressionsOf m.body →
    WordLiteral type text
  events : ∀ pos name args, .emit pos name args ∈ Stmt.substatementsAll m.body →
    ∀ e, c.event? name = some e → args.length = e.params.length

/-- **There is room in memory** behind a place for what a body hashes and logs. -/
structure Roomy (p : Nat) (body : List Stmt) : Prop where
  hashes : ∀ pos inputs, .hash pos inputs ∈ Stmt.expressionsOf body →
    p + 32 * inputs.length < 2 ^ 256
  events : ∀ pos name args, .emit pos name args ∈ Stmt.substatementsAll body →
    p + 96 * args.length < 2 ^ 256

/-- The body of a method that calls nothing can be run. -/
theorem Contained.runnable {m : Routine} (h : Contained x.contract m)
    (hlinked : Linked x bodies code) (hplan : Storage.plan x.contract = .ok x.layout)
    (hm : m ∈ x.contract.methods) (hbody : ∀ stmt ∈ Stmt.substatementsAll m.body,
      stmt ∈ Stmt.substatementsAll bodies) (hroom : Roomy p m.body) :
    Runnable x code p (m.params.map Typed.name) m.body where
  statements stmt hstmt := by
    cases stmt with
    | setProperty pos name value =>
      exact fun source index => Storage.plan_unassigned hplan hm hstmt
    | emit pos name args =>
      intro e he
      obtain rfl : e.name = name := by simpa using List.find?_some he
      have hlogged : e ∈ x.logged bodies := by
        refine List.mem_filter.2 ⟨List.mem_of_find?_eq_some he, List.contains_iff_mem.2 ?_⟩
        exact List.mem_filterMap.2 ⟨_, hbody _ hstmt, rfl⟩
      exact ⟨hlinked.events e hlogged, h.events pos e.name args hstmt e he,
        hroom.events pos e.name args hstmt⟩
    | _ => trivial
  expressions e he := by
    cases e with
    | literal pos type text => exact h.literals pos type text he
    | hash pos inputs =>
      obtain ⟨stmt, hstmt, hpart⟩ := List.mem_flatMap.1 he
      refine ⟨hlinked.hashes _ (List.mem_filterMap.2 ⟨.hash pos inputs, ?_, rfl⟩),
        hroom.hashes pos inputs he⟩
      exact List.mem_flatMap.2 ⟨stmt, hbody stmt hstmt, hpart⟩
    | call pos target receiver args => exact absurd he (h.calls pos target receiver args)
    | deploy pos contract args => exact absurd he (h.deploys pos contract args)
    | _ => trivial
  placed := h.placed

/-- **A run of a function meets an outcome**: it gives the words, leaves the storage and logs the
events, or it reverts where there is none. -/
def Meets (c : Contract) (run : Action (List Word)) (s : State) :
    Except Reference.Failure Reference.Outcome → Prop
  | .ok out => ∃ t, run s = .ok out.words t ∧ t.storage = out.storage ∧
      t.logs = s.logs ++ out.logs.map (logEntry c)
  | .error _ => Reverts run s

/-- **The function of a method does what the method does.** -/
theorem meets_method (hlinked : Linked x bodies code) (hserves : Serves x host w) {m : Routine}
    {f : Yul.Function} (hf : x.method m = .ok f) (hcode : f ∈ code)
    (hrunnable : Runnable x code p (m.params.map Typed.name) m.body) {args : List Word}
    (hargs : args.length = m.params.length) (hprepared : Prepared x w p s.memory) :
    Meets x.contract (runFunction host code (rounds + 260) f args) s
      (Reference.run w m args s.storage) := by
  obtain ⟨-, hparams, hresults, hbody⟩ := method_eq_ok hf
  have hnodup : (resultVars m.returns).Nodup := by
    rw [← hresults]
    exact (List.nodup_append.1 (hlinked.heads f hcode).1).2.1
  have hcount : args.length = f.params.length := by
    rw [hparams, Context.paramNames, List.length_map, hargs]
  -- the variables that the function starts with are the arguments and the results
  have hlocals : (f.params.zip args ++ f.results.map (·, (0 : Word)))
      = Table.coded ((m.params.map Typed.name).zip args) ++ (resultVars m.returns).map (·, 0) := by
    have hnames : Context.paramNames m.params = (m.params.map Typed.name).map localName := by
      rw [List.map_map]
      rfl
    rw [hparams, hresults, Table.coded, hnames, List.zip_map_left]
    rfl
  have htracks : Tracks x w p s.logs ((resultVars m.returns).map (·, 0))
      (Reference.begin m args s.storage)
      { s with locals := { inner := f.params.zip args ++ f.results.map (·, 0) } } :=
    ⟨rfl, (List.append_nil _).symm, by rw [hlocals]; rfl, hprepared⟩
  have hknown : ∀ name ∈ m.params.map Typed.name,
      ((Reference.begin m args s.storage).locals.get? name).isSome := by
    intro name hname
    refine Locals.Grown.isSome_get?.2 (.inl ?_)
    rw [Reference.begin, Table.keys, List.map_fst_zip (by simp [hargs])]
    exact hname
  have hfollows := @follows_body x host w code bodies p rounds (rounds + 260) s.logs _ m.returns _ _
    hlinked hserves (apart_resultVars m.returns) hnodup _ _ hbody hrunnable hknown
    (fun g hg hname => hlinked.shared f hcode g hg hname) htracks
  rw [Reference.run]
  cases hrun : Reference.execAll w m.body (Reference.begin m args s.storage) with
  | error why =>
    rw [hrun] at hfollows
    exact Reverts.invoke hcount hfollows
  | ok out =>
    obtain ⟨ending, ref⟩ := out
    rw [hrun] at hfollows
    obtain ⟨t, ht, htracks⟩ := hfollows
    refine ⟨{ t with locals := s.locals }, ?_, htracks.storage, htracks.logs⟩
    have hwords : (f.results.map fun name => (t.locals.get? name).getD 0)
        = ending.words (resultTypes m.returns).length := by
      rw [hresults, ← length_resultVars, ← map_resultsOf hnodup fun words hleft => ?_]
      · refine List.map_congr_left fun name hname => ?_
        rw [htracks.locals, Locals.get?_coded_result fun n hn => ?_]
        exact apart_resultVars _ n (hn ▸ hname)
      · exact length_words hbody (hleft ▸ hrun)
    rw [runFunction, invoke_of_ok hcount ht, hwords]

/-! ## Pieces of code -/

/-- The methods that have a function: in the code that creates the contract those that are reached,
in the code that stays all. -/
def definedMethods (x : Context) : List Routine :=
  if x.creation then reachedMethods x.contract (x.initializers ++ x.contract.constructorBody)
  else x.contract.methods

/-- **A piece holds functions for methods**: it is linked for bodies that theirs are among. -/
structure Holds (x : Context) (bodies : List Stmt) (code : List Yul.Function) : Prop where
  linked : Linked x bodies code
  methods : ∀ m ∈ definedMethods x, m ∈ x.contract.methods ∧ ∃ f ∈ code, x.method m = .ok f
  bodies : ∀ m ∈ definedMethods x, ∀ stmt ∈ Stmt.substatementsAll m.body,
    stmt ∈ Stmt.substatementsAll bodies

theorem mem_functions_sections {mark : String} {entry : Yul.Section}
    {functions : List Yul.Function} {number : Nat}
    (hentry : entry.items.filterMap Yul.Item.function? = []) {f : Yul.Function}
    (hf : f ∈ functions) : f ∈ (x.sections mark entry functions bodies number).code.functions := by
  rw [functions_sections hentry, ownFunctions]
  simp only [List.mem_append, hf, true_or]

/-- The code of the creation holds the functions of all methods, and what they need. -/
theorem holds_creation (hcreation : x.creation = true) {piece : Piece}
    (h : x.creationPiece = .ok piece) (hvalid : piece.code.Valid) :
    ∃ bodies, Holds x bodies piece.code.functions := by
  obtain ⟨prologue, constructor, methods, -, hconstructor, hmethods, rfl⟩ :=
    creationPiece_eq_ok h
  have hdefined : definedMethods x
      = reachedMethods x.contract (x.initializers ++ x.contract.constructorBody) := by
    rw [definedMethods, if_pos hcreation]
  refine ⟨_, sections_linked rfl (fun f hf => ?_) hvalid, fun m hm => ?_, fun m hm stmt hstmt => ?_⟩
  · rcases List.mem_append.1 hf with hf | hf
    · obtain ⟨k, -, hk⟩ := exists_of_mem_right hconstructor hf
      rw [(constructorBody_eq_ok hk).1]
      decide
    · obtain ⟨m, -, hm⟩ := exists_of_mem_right hmethods hf
      rw [(method_eq_ok hm).1]
      exact underscore_methodFunction m.name
  · rw [hdefined] at hm
    obtain ⟨f, hf, hmethod⟩ := exists_of_mem_left hmethods hm
    exact ⟨(List.mem_filter.1 hm).1, f, mem_functions_sections rfl (List.mem_append_right _ hf),
      hmethod⟩
  · rw [hdefined] at hm
    rw [creationBodies, Stmt.substatementsAll_append]
    exact List.mem_append_right _ (mem_substatements_flatMap hm hstmt)

theorem holds_runtime (hcreation : x.creation = false) {piece : Piece}
    (h : x.runtimePiece = .ok piece) (hvalid : piece.code.Valid) :
    ∃ bodies, Holds x bodies piece.code.functions := by
  obtain ⟨methods, hmethods, rfl⟩ := runtimePiece_eq_ok h
  have hentry := dispatcher_functions (routes x.contract)
  have hdefined : definedMethods x = x.contract.methods := by
    rw [definedMethods, if_neg (by rw [hcreation]; exact Bool.false_ne_true)]
  refine ⟨_, sections_linked hentry (fun f hf => ?_) hvalid, fun m hm => ?_,
    fun m hm stmt hstmt => ?_⟩
  · obtain ⟨m, -, hm⟩ := exists_of_mem_right hmethods hf
    rw [(method_eq_ok hm).1]
    exact underscore_methodFunction m.name
  · rw [hdefined] at hm
    obtain ⟨f, hf, hmethod⟩ := exists_of_mem_left hmethods hm
    exact ⟨hm, f, mem_functions_sections hentry hf, hmethod⟩
  · rw [hdefined] at hm
    exact mem_substatements_flatMap hm hstmt

/-- **The code of a built object holds functions for methods**, each of its two pieces. -/
theorem holds_of_build {r : Registry} {active : List String} {store : Store} {c : Contract}
    {object : Yul.Object} (hbuild : (build r active store c).1 = .ok object)
    {layout : Storage.Layout} (hlayout : Storage.plan c = .ok layout) {creation : Bool}
    (hvalid : (object.code creation).Valid) :
    ∃ bodies, Holds ⟨r, c, layout, creation⟩ bodies (object.code creation).functions := by
  obtain ⟨layout', created, staying, byCreation, byRuntime, haccepted, rfl⟩ :=
    accepted_of_build hbuild
  obtain rfl : layout = layout' := Except.ok.inj (hlayout.symm.trans haccepted.plan)
  cases creation with
  | true => exact holds_creation rfl haccepted.creation hvalid
  | false => exact holds_runtime rfl haccepted.runtime hvalid

/-- A run that succeeds does not revert. -/
theorem not_reverts_of_ok {α : Type} {run : Action α} {a : α} {t : State} (h : run s = .ok a t) :
    ¬ Reverts run s := by
  rintro ⟨data, u, hreverts⟩
  rw [h] at hreverts
  cases hreverts

/-- **Generated functions do what their methods do.** Take a contract for which an object is
generated, one of its two pieces of code, and a method without calls and deployments that has a
function in it. The code has to be valid, or it could not be run at all; the machine has to serve
the world that the interpreter runs in, with memory prepared and room in it. Then the function of
the method is found by its name. Run on arguments of the method it gives the words that the
reference interpreter returns, leaves the same storage and logs the encodings of the same events
with the same words, in the same order; and it reverts exactly where the interpreter throws or
panics. -/
theorem methods_follow_reference {r : Registry} {active : List String} {store : Store}
    {c : Contract} {object : Yul.Object} (hbuild : (build r active store c).1 = .ok object)
    {layout : Storage.Layout} (hlayout : Storage.plan c = .ok layout) {creation : Bool}
    (hvalid : (object.code creation).Valid) {m : Routine}
    (hm : m ∈ definedMethods ⟨r, c, layout, creation⟩) (hcontained : Contained c m)
    (hserves : Serves ⟨r, c, layout, creation⟩ host w)
    (hprepared : Prepared ⟨r, c, layout, creation⟩ w p s.memory) (hroom : Roomy p m.body)
    {args : List Word} (hargs : args.length = m.params.length) (hrounds : 260 ≤ rounds) :
    ∃ f, Context.method ⟨r, c, layout, creation⟩ m = .ok f ∧
      function? (object.code creation).functions (methodFunction m.name) = some f ∧
      (∀ out, Reference.run w m args s.storage = .ok out →
        ∃ t, runFunction host (object.code creation).functions rounds f args s = .ok out.words t ∧
          t.storage = out.storage ∧ t.logs = s.logs ++ out.logs.map (logEntry c)) ∧
      (Reverts (runFunction host (object.code creation).functions rounds f args) s ↔
        ∃ why, Reference.run w m args s.storage = .error why) := by
  obtain ⟨rounds, rfl⟩ := Nat.exists_eq_add_of_le' hrounds
  obtain ⟨layout', created, staying, byCreation, byRuntime, haccepted, rfl⟩ :=
    accepted_of_build hbuild
  obtain rfl : layout = layout' := Except.ok.inj (hlayout.symm.trans haccepted.plan)
  obtain ⟨bodies, hholds⟩ : ∃ bodies, Holds ⟨r, c, layout, creation⟩ bodies
      (Yul.Object.mk c.name created.code staying.code byCreation byRuntime |>.code
        creation).functions := by
    cases creation with
    | true => exact holds_creation rfl haccepted.creation hvalid
    | false => exact holds_runtime rfl haccepted.runtime hvalid
  obtain ⟨hmem, f, hf, hmethod⟩ := hholds.methods m hm
  have hrunnable := hcontained.runnable hholds.linked hlayout hmem (hholds.bodies m hm) hroom
  have hmeets := @meets_method ⟨r, c, layout, creation⟩ host w _ bodies p rounds s hholds.linked
    hserves m f hmethod hf hrunnable args hargs hprepared
  refine ⟨f, hmethod, ?_, fun out hout => ?_, fun hreverts => ?_, ?_⟩
  · rw [← (method_eq_ok hmethod).1]
    exact function?_of_mem hholds.linked.distinct hf
  · rw [hout] at hmeets
    exact hmeets
  · -- A run that finishes does not revert, so the reference cannot have succeeded.
    cases hrun : Reference.run w m args s.storage with
    | error why => exact ⟨why, rfl⟩
    | ok out =>
      rw [hrun] at hmeets
      obtain ⟨t, ht, -⟩ := hmeets
      exact absurd hreverts (not_reverts_of_ok ht)
  · rintro ⟨why, hwhy⟩
    rw [hwhy] at hmeets
    exact hmeets

/-! ## A method that adds to a total -/

/-- The method `add(amount: number): number`: it adds to `total`, refuses a total above a hundred,
logs the amount and returns the total. -/
def addAmount : Routine where
  name := "add"
  returns := .number
  visibility := .hidden
  params := [{ name := "amount", type := .number }]
  body :=
    [.setProperty {} "total" (.binary {} .add (.storage {} "total") (.var {} "amount")),
      .branch {} (.binary {} .gt (.storage {} "total") (.literal {} .number "100"))
        [.throw {} (.literal {} .text "full")] [],
      .emit {} "Added" [.var {} "amount"],
      .exit {} (some (.storage {} "total"))]

/-- A contract with that method. -/
def meter : Contract where
  name := "Meter"
  stateVars := [{ name := "total", type := .number, visibility := .hidden }]
  methods := [addAmount]
  events :=
    [{ name := "Added"
       shape := { name := "Amount", fields := [{ name := "amount", type := .number }] } }]

/-- The total is in the first slot. -/
def meterLayout : Storage.Layout where
  cells :=
    [{ owner := { name := "total", type := .number, visibility := .hidden }
       location := .scalar 0 }]
  next := 1

/-- A machine that answers zero to everything. -/
def zeroHost : Host where
  keccak _ := 0
  calldata := []
  callvalue := 0
  immutable _ := 0
  other _ := some fun _ _ => pure [0]

/-- The world of that machine. -/
def zeroWorld : Reference.World where
  layout := meterLayout
  keccak _ := 0
  self := 0
  environment _ _ := 0
  readonly _ := 0

/-- A state with nothing in storage, and memory that is free from its usual place on. -/
def zeroState : State where
  memory := Memory.write (fun _ => 0) 64 (Word.bytes 128)
  storage _ := 0

theorem zeroHost_answers {instruction : String}
    (h : instruction ∉ operationNames ∨ instruction = "callvalue") :
    zeroHost.Answers instruction 0 := by
  intro names
  rcases h with h | rfl
  · simp only [apply, builtin_eq_none h]
    rfl
  · exact apply_of_builtin rfl

theorem zeroHost_serves :
    Serves ⟨{ contracts := [meter] }, meter, meterLayout, false⟩ zeroHost zeroWorld where
  layout := rfl
  keccak := rfl
  self := zeroHost_answers (.inl (by decide))
  environment space member m hm :=
    zeroHost_answers (forall_of_member?
      (P := fun m => m.builtin ∉ operationNames ∨ m.builtin = "callvalue") (by decide) hm)
  inlined name source word h := by
    obtain ⟨cell, hcell, -, hlocation⟩ := exists_cell h
    obtain rfl := List.mem_singleton.1 hcell
    cases hlocation
  immutable _ _ _ _ _ := rfl

theorem addAmount_contained : Contained meter addAmount where
  calls pos target receiver args := by
    simp [addAmount, Stmt.expressionsOf, Stmt.substatementsAll, Stmt.substatements, Stmt.operands,
      Expr.subexpressions]
  deploys pos contract args := by
    simp [addAmount, Stmt.expressionsOf, Stmt.substatementsAll, Stmt.substatements, Stmt.operands,
      Expr.subexpressions]
  placed := by
    refine ⟨⟨?_, ?_, ?_⟩, trivial, ⟨?_, ?_, ?_⟩, ⟨⟨⟨?_, ?_, ?_⟩, trivial, trivial⟩, trivial⟩,
      ⟨?_, ?_, ?_⟩, trivial, ⟨?_, ?_, ?_⟩, trivial, trivial⟩
    all_goals simp [addAmount, Stmt.operands, Stmt.write?, Stmt.declares]
  literals pos type text h := by
    simp [addAmount, Stmt.expressionsOf, Stmt.substatementsAll, Stmt.substatements, Stmt.operands,
      Expr.subexpressions] at h
    rcases h with ⟨-, rfl, rfl⟩ | ⟨-, rfl, rfl⟩
    · exact ⟨100, by decide, rfl⟩
    · exact (by decide : "full".utf8ByteSize ≤ 32)
  events pos name args h e he := by
    simp [addAmount, Stmt.substatementsAll, Stmt.substatements] at h
    obtain ⟨-, rfl, rfl⟩ := h
    cases he
    rfl

theorem addAmount_roomy : Roomy 128 addAmount.body where
  hashes pos inputs h := by
    simp [addAmount, Stmt.expressionsOf, Stmt.substatementsAll, Stmt.substatements, Stmt.operands,
      Expr.subexpressions] at h
  events pos name args h := by
    simp [addAmount, Stmt.substatementsAll, Stmt.substatements] at h
    obtain ⟨-, -, rfl⟩ := h
    decide

theorem zeroState_prepared :
    Prepared ⟨{ contracts := [meter] }, meter, meterLayout, false⟩ zeroWorld 128
      zeroState.memory where
  low := by decide
  high := by decide
  free := Memory.read_write_self _ 64 (Word.bytes 128)
  staged h := absurd h Bool.false_ne_true

theorem meter_created :
    ((contextFor { contracts := [meter] } meter).toOption.bind fun x =>
      x.1.creationPiece.toOption.map Piece.deploys) = some [] := by
  decide +kernel

theorem meter_stays :
    ((contextFor { contracts := [meter] } meter).toOption.bind fun x =>
      x.2.runtimePiece.toOption.map fun piece => (piece.deploys, decide piece.code.Valid))
      = some ([], true) := by
  decide +kernel

/-- What the interpreter does with five. -/
theorem addAmount_five :
    ((Reference.run zeroWorld addAmount [5] zeroState.storage).toOption.map fun out =>
      (out.words, out.storage 0, out.logs)) = some ([5], 5, [("Added", [5])]) := by
  decide +kernel

theorem addAmount_twoHundred :
    Reference.run zeroWorld addAmount [200] zeroState.storage
      = .error (.threw (literalMeaning .text "full")) := by
  rfl

/-- Five is added and logged; two hundred are refused. -/
theorem methods_follow_reference_meter :
    ∃ object f t, (build { contracts := [meter] } ["Meter"] [] meter).1 = .ok object ∧
      function? (object.code false).functions "fun_add" = some f ∧
      runFunction zeroHost (object.code false).functions 260 f [5] zeroState = .ok [5] t ∧
      t.storage 0 = 5 ∧ t.logs = [logEntry meter ("Added", [5])] ∧
      Reverts (runFunction zeroHost (object.code false).functions 260 f [200]) zeroState := by
  obtain ⟨x, hx, hcreated⟩ := Option.bind_eq_some_iff.1 meter_created
  obtain ⟨created, hcreated, hdeploys⟩ := Option.map_eq_some_iff.1 hcreated
  obtain ⟨x', hx', hstaying⟩ := Option.bind_eq_some_iff.1 meter_stays
  obtain ⟨staying, hstaying, h⟩ := Option.map_eq_some_iff.1 hstaying
  obtain ⟨hdeploys', hvalid⟩ := Prod.mk.inj h
  cases hx.symm.trans hx'
  have hbuild := build_of_pieces ["Meter"] [] (toOption_eq_some.1 hx) (toOption_eq_some.1 hcreated)
    (toOption_eq_some.1 hstaying) hdeploys hdeploys'
  have hruns (args : List Word) (hargs : args.length = addAmount.params.length) :=
    @methods_follow_reference zeroHost zeroWorld 128 260 zeroState _ _ _ _ _ hbuild meterLayout rfl
      false (of_decide_eq_true hvalid) addAmount List.mem_cons_self addAmount_contained
      zeroHost_serves zeroState_prepared addAmount_roomy args hargs (Nat.le_refl _)
  obtain ⟨f, -, hf, hfive, -⟩ := hruns [5] rfl
  obtain ⟨f', -, hf', -, hrefused⟩ := hruns [200] rfl
  obtain rfl : f = f' := Option.some.inj (hf.symm.trans hf')
  obtain ⟨out, hout, hvalues⟩ := Option.map_eq_some_iff.1 addAmount_five
  obtain ⟨t, ht, hstorage, hlogs⟩ := hfive out (toOption_eq_some.1 hout)
  obtain ⟨hwords, hslot, hentries⟩ : out.words = [5] ∧ out.storage 0 = 5 ∧
      out.logs = [("Added", [5])] := by
    simpa using hvalues
  refine ⟨_, f, t, hbuild, hf, by rw [ht, hwords], by rw [hstorage, hslot], ?_,
    hrefused.2 ⟨_, addAmount_twoHundred⟩⟩
  rw [hlogs, hentries]
  rfl

end Simulation

end Covenant
