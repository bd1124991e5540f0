import Covenant.Proofs.Code.Words
import Covenant.Proofs.Mutability.Calls

/-!
# The sections of generated text

The text of an object that is generated for spelled contracts is properly nested, because all that
is written in it is inert and every form closes what it opens. Its titles are those of the sections
of the code that creates a contract, of those of the code that stays, and of the objects that each
code deploys (`emitted_text_nested`).
-/

namespace Covenant

open Source.Lexer (isIdentifier)

namespace Expr

/-- A part of what stands within an expression stands within it. -/
theorem mem_subexpressions_of_mem_parts {e inner part : Expr} (h : inner ∈ e.subexpressions)
    (hpart : part ∈ inner.parts) : part ∈ e.subexpressions := by
  rw [mem_subexpressions] at h ⊢
  induction h with
  | self e => exact .part hpart (.self part)
  | part hchild _ ih => exact .part hchild (ih hpart)

end Expr

namespace Stmt

/-- The expressions within a spelled body are spelled. -/
theorem SpelledAll.expressions {bodies : List Stmt} (h : SpelledAll bodies) :
    ∀ e ∈ expressionsOf bodies, e.Spelled := by
  intro e he
  obtain ⟨s, hs, he⟩ := List.mem_flatMap.1 he
  obtain ⟨operand, hoperand, he⟩ := List.mem_flatMap.1 he
  exact (h s hs).operands operand hoperand e he

theorem mem_expressionsOf_part {bodies : List Stmt} {e part : Expr} (he : e ∈ expressionsOf bodies)
    (hpart : part ∈ e.parts) : part ∈ expressionsOf bodies := by
  obtain ⟨s, hs, he⟩ := List.mem_flatMap.1 he
  obtain ⟨operand, hoperand, he⟩ := List.mem_flatMap.1 he
  have hwithin := Expr.mem_subexpressions_of_mem_parts he hpart
  exact List.mem_flatMap.2 ⟨s, hs, List.mem_flatMap.2 ⟨operand, hoperand, hwithin⟩⟩

theorem spelledAll_append {first second : List Stmt} :
    SpelledAll (first ++ second) ↔ SpelledAll first ∧ SpelledAll second := by
  rw [SpelledAll, substatementsAll_append, List.forall_mem_append]
  rfl

theorem spelledAll_flatMap {methods : List Routine} (h : ∀ m ∈ methods, m.Spelled) :
    SpelledAll (methods.flatMap Routine.body) := by
  induction methods with
  | nil => exact List.forall_mem_nil _
  | cons m methods ih =>
    rw [List.forall_mem_cons] at h
    exact spelledAll_append.2 ⟨h.1.body, ih h.2⟩

end Stmt

namespace Emit

open Yul (Inert InertAll inertAll_nil inertAll_cons inertAll_append inert_of_isIdentifier
  inert_prefixed inert_numbered)

/-! ## What pieces apply -/

/-- **A context is spelled**: so is its contract, the layout has cells for the variables of the
contract, and the literals that are written into the code are numerals. -/
structure Context.Spelled (x : Context) : Prop where
  contract : x.contract.Spelled
  owners : ∀ cell ∈ x.layout.cells, cell.owner ∈ x.contract.stateVars
  numerals : ∀ cell ∈ x.layout.cells, ∀ source word, cell.location = .inlined source word →
    Inert word

section Context

variable {x : Context} {bodies : List Stmt}

theorem Context.Spelled.cellName (h : x.Spelled) :
    ∀ cell ∈ x.layout.cells, isIdentifier cell.name :=
  fun cell hcell => (h.contract.stateVars cell.owner (h.owners cell hcell)).name

/-- What is built in has inert names, and the name of a shared function is one of its words. -/
theorem basic_inert : ∀ name ∈ basic, Inert name := by
  have hplain : ∀ name ∈ Yul.plainBuiltins, Inert name := by decide +kernel
  refine List.forall_mem_append.2 ⟨hplain, List.forall_mem_map.2 fun f hf => ?_⟩
  exact inert_shared f hf f.name List.mem_cons_self

theorem basicOrObject_inert : ∀ name ∈ basicOrObject, Inert name := by
  have hobject : ∀ name ∈ Yul.objectBuiltins, Inert name := by decide
  exact List.forall_mem_append.2 ⟨basic_inert, hobject⟩

/-- The class of a receiver is named where the receiver stands, or by the type of a variable. -/
theorem isIdentifier_of_receiverContract? (h : x.contract.Spelled) {receiver : Expr}
    {contract : String} (hreceiver : receiver.Spelled)
    (hcontract : x.receiverContract? receiver = some contract) : isIdentifier contract := by
  unfold Context.receiverContract? at hcontract
  split at hcontract
  · cases hcontract
    exact hreceiver
  · split at hcontract
    · rename_i contract htype
      -- the class is part of the type that the variable is declared with
      obtain ⟨v, hv, htype⟩ := Option.map_eq_some_iff.1 htype
      have hv := (h.stateVars v (List.mem_of_find?_eq_some hv)).type
      rw [htype, hcontract] at hv
      exact hv _ (List.mem_singleton.2 rfl)
    · cases hcontract
  · cases hcontract

theorem isIdentifier_of_deployments (hbodies : Stmt.SpelledAll bodies) :
    ∀ contract ∈ deployments bodies, isIdentifier contract := by
  intro contract hcontract
  obtain ⟨e, he, hcontract⟩ := List.mem_filterMap.1 hcontract
  have hspelled := hbodies.expressions e he
  split at hcontract
  · cases hcontract
    exact hspelled
  · cases hcontract

/-- **What spelled bodies need is inert.** -/
theorem supplies_inert (hx : x.Spelled) (hbodies : Stmt.SpelledAll bodies) :
    Supplies x bodies Inert where
  basic := basic_inert
  accessors cell hcell f hf := by
    have hname := hx.cellName cell hcell
    have hnames : ∀ name ∈ [Storage.lengthGetter cell.name, Storage.getter cell.name,
        Storage.setter cell.name], Inert name := by
      simp only [List.forall_mem_cons]
      exact ⟨inert_prefixed (by decide) hname, inert_prefixed (by decide) hname,
        inert_prefixed (by decide) hname, List.forall_mem_nil _⟩
    exact hnames _ ((names_accessorFunctions_sublist _ _).subset (List.mem_map_of_mem hf))
  methods target htarget _ := by
    obtain ⟨e, he, htarget⟩ := List.mem_filterMap.1 htarget
    have hspelled := hbodies.expressions e he
    split at htarget
    · cases htarget
      exact inert_prefixed (by decide) hspelled
    · cases htarget
  calls pos target receiver args hcall contract other m hcontract _ hm := by
    have htarget := hbodies.expressions _ hcall
    -- Both parts of the name of an outer call are identifiers: the contract of the receiver and the
    -- method asked for.
    have hreceiver := hbodies.expressions receiver
      (Stmt.mem_expressionsOf_part hcall List.mem_cons_self)
    have hcontract := isIdentifier_of_receiverContract? hx.contract hreceiver hcontract
    obtain ⟨-, rfl⟩ := of_method?_eq_some hm
    unfold callFunction
    simp only [Text.avoids_append]
    exact ⟨⟨⟨by decide, inert_of_isIdentifier hcontract⟩, by decide⟩, inert_of_isIdentifier htarget⟩
  deploys contract hcontract _ _ :=
    inert_prefixed (by decide) (isIdentifier_of_deployments hbodies contract hcontract)
  events event hevent _ _ := by
    obtain ⟨s, hs, hevent⟩ := List.mem_filterMap.1 hevent
    have hspelled := hbodies s hs
    split at hevent
    · cases hevent
      exact inert_prefixed (by decide) (hspelled.name _ rfl)
    · cases hevent
  hashes count _ := inert_numbered (by decide) count

/-! ## Pieces -/

variable {mark : String} {entry : Yul.Section} {functions : List Yul.Function} {number : Nat}

/-- A method of another contract is called by a function of an inert name. -/
theorem inert_targetName (hx : x.Spelled) (hbodies : Stmt.SpelledAll bodies) :
    ∀ t ∈ firstByKey targetName (targets x bodies), Inert (targetName t) := by
  intro t ht
  have hP := supplies_inert hx hbodies
  -- the function may be there because of another call, of which all that is kept is the name
  have hkey := mem_keys_firstByKey.1 (List.mem_map_of_mem (f := targetName) ht)
  obtain ⟨⟨contract, m⟩, htarget, hkey⟩ := List.mem_map.1 hkey
  obtain ⟨pos, target, receiver, args, hcall, hcontract, other, hother, hm⟩ :=
    mem_targets.1 htarget
  exact hkey ▸ hP.calls pos target receiver args hcall contract other m hcontract hother hm

/-- **The functions of a piece are plain**, if those of its bodies are. -/
theorem plain_functions (hx : x.Spelled) (hbodies : Stmt.SpelledAll bodies)
    (hentry : entry.items.filterMap Yul.Item.function? = [])
    (hfunctions : ∀ f ∈ functions, f.Plain) :
    ∀ f ∈ (x.sections mark entry functions bodies number).code.functions, f.Plain := by
  have hbasic {f : Yul.Function} (hcalls : ∀ name ∈ f.calls, name ∈ basic) : InertAll f.calls :=
    fun name hname => basic_inert name (hcalls name hname)
  intro f hf
  -- kind by kind: what a generated function applies is known, and its words are inert
  rw [functions_sections hentry] at hf
  simp only [ownFunctions, outsideFunctions, List.mem_append] at hf
  rcases hf with (((((hf | hf | hf) | hf) | hf) | hf) | hf) | hf
  · exact hfunctions f hf
  · rw [callDefinitions_eq] at hf
    obtain ⟨i, hi, rfl⟩ := List.mem_mapIdx.1 hf
    have hname := inert_targetName hx hbodies _ (List.getElem_mem hi)
    exact ⟨hbasic (calls_callDefinition _ _ _), inert_callDefinition hname _⟩
  · obtain ⟨i, hi, rfl⟩ := List.mem_mapIdx.1 hf
    have hname := isIdentifier_of_deployments hbodies _ (mem_deployed.1 (List.getElem_mem hi)).1
    exact ⟨fun name hcalled => basicOrObject_inert name (calls_deployDefinition _ _ name hcalled),
      inert_deployDefinition hname _⟩
  · obtain ⟨arity, -, rfl⟩ := List.mem_map.1 hf
    exact ⟨hbasic (calls_entrySlotFunction arity), inert_entrySlotFunction arity⟩
  · obtain ⟨cell, hcell, hf⟩ := List.mem_flatMap.1 hf
    have hwords := inert_accessor (hx.cellName cell hcell) (hx.numerals cell hcell) f hf
    refine ⟨fun name hname => ?_, hwords⟩
    rcases calls_accessor hf name hname with hname | ⟨arity, -, rfl⟩
    · exact basic_inert name hname
    · exact inert_numbered (by decide) arity
  · obtain ⟨i, hi, rfl⟩ := List.mem_mapIdx.1 hf
    have hevent := hx.contract.events _ (mem_logged.1 (List.getElem_mem hi)).1
    exact ⟨hbasic (calls_eventDefinition _ _), inert_eventDefinition hevent _⟩
  · obtain ⟨count, -, rfl⟩ := List.mem_map.1 hf
    have hplain : ∀ name ∈ ["mload", "mstore", "add", "keccak256"], Inert name := by decide
    exact ⟨fun name hname => hplain name (calls_hashDefinition hname), inert_hashDefinition count⟩
  · have hshared := (List.mem_filter.1 hf).1
    exact ⟨hbasic (calls_shared f hshared), inert_shared f hshared⟩

/-- **A piece is plain** if its entry and the functions of its bodies are. -/
theorem plain_sections {creation : Bool} (hx : x.Spelled) (hbodies : Stmt.SpelledAll bodies)
    (hentry : entry.items.filterMap Yul.Item.function? = [])
    (hitems : ∀ item ∈ entry.items, item.Plain)
    (hfunctions : ∀ f ∈ functions, f.Plain)
    (htitles : (x.sections mark entry functions bodies number).code.map Yul.Section.title =
      Yul.sectionTitles creation) :
    Yul.Code.Plain creation (x.sections mark entry functions bodies number).code where
  items s hs item hitem := by
    rcases sections_functions hs with rfl | hsection
    · exact hitems item hitem
    · obtain ⟨setting, f, rfl⟩ := hsection item hitem
      have hf : f ∈ (x.sections mark entry functions bodies number).code.functions :=
        List.mem_flatMap.2 ⟨s, hs, List.mem_filterMap.2 ⟨_, hitem, rfl⟩⟩
      exact (plain_functions hx hbodies hentry hfunctions f hf).item setting
  titles := htitles

variable {methods : List Routine} {piece : Piece}

/-- The functions of spelled methods are plain. -/
theorem plain_methods (hx : x.Spelled) (hbodies : Stmt.SpelledAll bodies)
    (hmethods : ∀ m ∈ methods, m.Spelled)
    (hwithin : ∀ m ∈ methods, ∀ s ∈ Stmt.substatementsAll m.body,
      s ∈ Stmt.substatementsAll bodies)
    (hcodes : List.Forall₂ (fun m f => x.method m = .ok f) methods functions) :
    ∀ f ∈ functions, f.Plain := by
  intro f hf
  refine ⟨calls_methods (supplies_inert hx hbodies) hcodes hwithin f hf, ?_⟩
  obtain ⟨m, hm, hcode⟩ := exists_of_mem_right hcodes hf
  obtain ⟨hname, hparams, hresults, hbody⟩ := method_eq_ok hcode
  have hm := hmethods m hm
  have hname : Inert f.name := hname ▸ inert_prefixed (by decide) hm.name
  have hparams : InertAll f.params := hparams ▸ inertAll_paramNames hm.params
  have hresults : InertAll f.results := hresults ▸ inertAll_resultVars m.returns
  have hbody := hbody.inert hm.body
  rw [Yul.Function.words, inertAll_cons, inertAll_append, inertAll_append]
  exact ⟨hname, ⟨hparams, hresults⟩, hbody⟩

/-- **The code that stays is plain.** -/
theorem plain_runtimePiece (hx : x.Spelled) (h : x.runtimePiece = .ok piece) :
    Yul.Code.Plain false piece.code := by
  obtain ⟨functions, hcodes, rfl⟩ := runtimePiece_eq_ok h
  have hbodies := Stmt.spelledAll_flatMap hx.contract.methods
  have hP := supplies_inert hx hbodies
  have hfunctions := plain_methods hx hbodies hx.contract.methods
    (fun m hm s hs => mem_substatements_flatMap hm hs) hcodes
  have hcalls : ∀ item ∈ dispatcher (routes x.contract), InertAll item.calls := by
    refine calls_dispatcher hP.basic fun route hroute => ?_
    rcases function_of_mem_routes hroute with ⟨v, hv, hfunction⟩ | ⟨m, hm, hfunction⟩
    · exact hfunction ▸ inert_prefixed (by decide) (hx.contract.stateVars v hv).name
    · exact hfunction ▸ inert_prefixed (by decide) (hx.contract.methods m hm).name
  have hwords := inert_dispatcher (inert_routes hx.contract)
  exact plain_sections hx hbodies (dispatcher_functions _)
    (fun item hitem => ⟨hcalls item hitem, hwords item hitem⟩) hfunctions rfl

/-- The function of a constructor takes the parameters of the constructor, and gives nothing. -/
theorem constructorBody_head {k : Construction} {f : Yul.Function}
    (h : x.constructorBody k = .ok f) :
    f.params = Context.paramNames k.params ∧ f.results = [] := by
  obtain ⟨code, -, h⟩ := bind_eq_ok.1 h
  cases pure_eq_ok.1 h
  exact ⟨rfl, rfl⟩

theorem spelled_initializers (hx : x.Spelled) : Stmt.SpelledAll x.initializers := by
  intro s hs
  rw [Stmt.substatementsAll_eq_flatMap] at hs
  obtain ⟨part, hpart, hs⟩ := List.mem_flatMap.1 hs
  obtain ⟨cell, hcell, -, e, he, rfl⟩ := mem_initializers.1 hpart
  obtain rfl := List.mem_singleton.1 hs
  have hv := hx.contract.stateVars _ (hx.owners cell hcell)
  refine ⟨fun name hname => ?_, fun operand hoperand => ?_⟩
  · cases hname
    exact hv.name
  · obtain rfl := List.mem_singleton.1 hoperand
    exact hv.initial _ he

theorem spelled_creationBodies (hx : x.Spelled) : Stmt.SpelledAll (creationBodies x) := by
  rw [creationBodies, Stmt.spelledAll_append, Stmt.spelledAll_append]
  refine ⟨⟨spelled_initializers hx, hx.contract.body⟩, Stmt.spelledAll_flatMap fun m hm => ?_⟩
  exact hx.contract.methods m (List.mem_of_mem_filter hm)

/-- The function of a spelled constructor has inert words. -/
theorem inert_constructor (hx : x.Spelled) {k : Construction} {f : Yul.Function}
    (hk : x.contract.construction = some k) (hcode : x.constructorBody k = .ok f) :
    InertAll f.words := by
  obtain ⟨hname, hbody⟩ := constructorBody_eq_ok hcode
  obtain ⟨hparams, hresults⟩ := constructorBody_head hcode
  have hspelledParams := hx.contract.params
  have hspelledBody := hx.contract.body
  rw [Contract.constructorParams, hk] at hspelledParams
  rw [Contract.constructorBody, hk] at hspelledBody
  rw [Yul.Function.words, hname, hparams, hresults, inertAll_cons, inertAll_append,
    inertAll_append]
  exact ⟨by decide, ⟨inertAll_paramNames hspelledParams, inertAll_nil⟩, hbody.inert hspelledBody⟩

/-- **The code that creates a contract is plain.** -/
theorem plain_creationPiece (hx : x.Spelled) (h : x.creationPiece = .ok piece) :
    Yul.Code.Plain true piece.code := by
  obtain ⟨prologue, constructor, methods, hprologue, hconstructor, hcodes, rfl⟩ :=
    creationPiece_eq_ok h
  have hbodies := spelled_creationBodies hx
  have hP := supplies_inert hx hbodies
  have hprologue := codes_of_statements hprologue
  have hcalls := calls_creation hconstructor hcodes hP
  have hmethods := plain_methods hx hbodies
    (fun m hm => hx.contract.methods m (List.mem_of_mem_filter hm))
    (fun m hm s hs => by
      rw [creationBodies, Stmt.substatementsAll_append]
      exact List.mem_append_right _ (mem_substatements_flatMap hm hs)) hcodes
  have hfunctions : ∀ f ∈ constructor, f.Plain := by
    intro f hf
    obtain ⟨k, hk, hcode⟩ := exists_of_mem_right hconstructor hf
    have hwords := inert_constructor hx (Option.mem_toList.1 hk) hcode
    exact ⟨hcalls f (List.mem_append_left _ hf), hwords⟩
  have hentryCalls : ∀ s ∈ creationEntry x prologue, s.AppliesOnly Inert :=
    appliesOnly_creationEntry hP basicOrObject_inert hprologue fun _ _ => by decide
  have hentryWords := inert_creationEntry hx.contract.name hx.cellName
    (hprologue.inert (spelled_initializers hx))
  have hentry : (Yul.Item.statement (.block (creationEntry x prologue))).Plain :=
    ⟨(Yul.Stmt.appliesOnly_block _).2 hentryCalls, hentryWords⟩
  exact plain_sections hx hbodies rfl (List.forall_mem_singleton.2 hentry)
    (List.forall_mem_append.2 ⟨hfunctions, hmethods⟩) rfl

end Context

/-! ## Objects -/

section Objects

variable {r : Registry} {c : Contract}

/-- A literal that is written into the code is the initial value of a variable, or the constructor
assigns it. -/
theorem spelled_of_mem_sources (hc : c.Spelled) {v : StateVar} (hv : v ∈ c.stateVars) {e : Expr}
    (he : e ∈ Storage.sources c v) : e.Spelled := by
  have hself : e ∈ e.subexpressions := by
    rw [Expr.subexpressions_eq]
    exact List.mem_cons_self
  rcases List.mem_append.1 he with he | he
  · exact (hc.stateVars v hv).initial e (Option.mem_toList.1 he) e hself
  · obtain ⟨pos, hs⟩ := Storage.mem_assignments.1 he
    exact (hc.body _ hs).operands e (List.mem_singleton.2 rfl) e hself

/-- The contexts of a spelled contract are spelled. -/
theorem Accepted.spelled {layout : Storage.Layout} {created staying : Piece}
    (h : Accepted r c layout created staying) (hc : c.Spelled) (creation : Bool) :
    (Context.mk r c layout creation).Spelled := by
  have howners : ∀ cell ∈ layout.cells, cell.owner ∈ c.stateVars := by
    intro cell hcell
    rw [← Storage.plan_owners h.plan]
    exact List.mem_map_of_mem hcell
  refine ⟨hc, howners, fun cell hcell source word hlocation => ?_⟩
  have hplaced := Storage.placed_of_plan h.plan cell hcell
  rw [hlocation] at hplaced
  cases hplaced with
  | kept _ hkept => exact absurd trivial hkept
  | inlined _ _ hsource hword =>
    have hliteral := spelled_of_mem_sources hc (howners cell hcell)
      (hsource ▸ List.mem_singleton.2 rfl)
    exact Yul.inert_of_isWordNumeral ((writtenAsWord hliteral _).numeral word hword)

/-- The contracts of all objects within some others are spelled. -/
def SpelledWithin (r : Registry) (objects : List Yul.Object) : Prop :=
  ∀ object ∈ objects, ∀ inner : Yul.Object, inner.Within object →
    ∀ d, r.get? inner.name = some d → d.Spelled

theorem SpelledWithin.children {object : Yul.Object} (h : SpelledWithin r [object])
    (creation : Bool) : SpelledWithin r (object.children creation) :=
  fun _ hchild _ hin => h object (List.mem_singleton.2 rfl) _ (.child hchild hin)

mutual
/-- **An object that is generated for spelled contracts is plain.** -/
theorem Generated.plain {c : Contract} {object : Yul.Object} :
    Generated r c object → r.get? c.name = some c → SpelledWithin r [object] → object.Plain
  | .mk haccepted hcreation hruntime, hc, hspelled => by
    -- the object stands within itself, so its own contract is spelled
    have hself := hspelled _ (List.mem_singleton.2 rfl) _ .self c hc
    have hcreated := plain_creationPiece (haccepted.spelled hself true) haccepted.creation
    have hstaying := plain_runtimePiece (haccepted.spelled hself false) haccepted.runtime
    have hname := Yul.inert_quote (Yul.isIdentifierPart_of_isIdentifier hself.name)
    exact .mk hname (inert_quote_runtimeName hself.name) hcreated hstaying
      (hcreation.plain (hspelled.children true)) (hruntime.plain (hspelled.children false))

theorem GeneratedEach.plain {names : List String} {objects : List Yul.Object} :
    GeneratedEach r names objects → SpelledWithin r objects → ∀ object ∈ objects, object.Plain
  | .nil, _ => List.forall_mem_nil _
  | .cons hc h hrest, hspelled => by
    rw [SpelledWithin, List.forall_mem_cons] at hspelled
    rw [List.forall_mem_cons]
    refine ⟨h.plain ((Registry.of_get?_eq_some hc).2 ▸ hc) ?_, hrest.plain hspelled.2⟩
    exact List.forall_mem_singleton.2 hspelled.1
end

end Objects

/-- The titles of an object go on with those of the objects that its codes deploy. -/
theorem titlesInOrder_eq (object : Yul.Object) :
    object.titlesInOrder = Yul.sectionTitles true ++ Yul.sectionTitles false ++
      Yul.Object.titlesInOrderAll (object.children false) ++
        Yul.Object.titlesInOrderAll (object.children true) := by
  cases object
  rfl

/-- **Generated text is properly nested, and its sections stand in order.** Whatever a build has
generated before: if an object is generated for a contract, and the contracts of all objects within
it are spelled, then its text never closes a brace that is not open and closes all that it opens;
formatting never cuts off a depth and ends at depth zero; and the titles of its sections are those
of the code that creates the contract and those of the code that stays, then those of the objects
that the code that stays deploys and of the objects that the code that creates the contract
deploys. -/
theorem emitted_text_nested {r : Registry} {store : Store} {c : Contract} {object : Yul.Object}
    (hstore : Grown r store) (hc : r.get? c.name = some c)
    (h : (emit r store c).1 = .ok object)
    (hspelled : ∀ inner : Yul.Object, inner.Within object →
      ∀ d, r.get? inner.name = some d → d.Spelled) :
    Generated r c object ∧ Yul.Nested 0 object.render.toList ∧
      object.render.toList.count '\x7b' = object.render.toList.count '\x7d' ∧
      Yul.Unclamped 0 (Yul.keptLines object.render.toList) 0 ∧
      Yul.titles object.render = object.titlesInOrder := by
  have hgenerated := hstore.generated hc h
  have hplain := hgenerated.plain hc (List.forall_mem_singleton.2 hspelled)
  exact ⟨hgenerated, (hplain.reads 0).text rfl⟩

theorem spelled_vault : vault.Spelled where
  name := by decide
  stateVars := List.forall_mem_singleton.2 ⟨by decide, List.forall_mem_nil _, nofun⟩
  params := List.forall_mem_singleton.2 ⟨by decide, List.forall_mem_nil _⟩
  body := by
    refine List.forall_mem_singleton.2 ⟨fun name hname => ?_, List.forall_mem_singleton.2 ?_⟩
    · cases hname
      decide
    · have hby : isIdentifier "by" := by decide
      exact List.forall_mem_singleton.2 hby
  methods := List.forall_mem_nil _
  events := List.forall_mem_nil _

theorem spelled_teller : teller.Spelled where
  name := by decide
  stateVars := List.forall_mem_nil _
  params := List.forall_mem_nil _
  body := List.forall_mem_nil _
  methods := by
    refine List.forall_mem_singleton.2 ⟨by decide, List.forall_mem_nil _, ?_⟩
    refine List.forall_mem_singleton.2 ⟨nofun, List.forall_mem_singleton.2 ?_⟩
    have hvault : isIdentifier "Vault" := by decide
    exact List.forall_mem_cons.2 ⟨hvault, List.forall_mem_singleton.2 trivial⟩
  events := List.forall_mem_nil _

/-- The text of a contract that deploys another one holds the sections of both. -/
theorem emitted_text_nested_teller :
    ∃ object : Yul.Object, (emit { contracts := [vault, teller] } [] teller).1 = .ok object ∧
      (∀ inner : Yul.Object, inner.Within object → ∀ d,
        Registry.get? { contracts := [vault, teller] } inner.name = some d → d.Spelled) ∧
      Yul.Nested 0 object.render.toList ∧ Yul.titles object.render =
        Yul.sectionTitles true ++ Yul.sectionTitles false ++ Yul.sectionTitles true ++
          Yul.sectionTitles false := by
  have hvault : deploys? { contracts := [vault, teller] } vault = some ([], []) := by
    decide +kernel
  have hteller : deploys? { contracts := [vault, teller] } teller = some ([], ["Vault"]) := by
    decide +kernel
  have hget : Registry.get? { contracts := [vault, teller] } "Vault" = some vault := rfl
  obtain ⟨inner, hinnerCreation, hinnerRuntime, hinner⟩ := build_of_deploys ["Vault", "Teller"] []
    hvault buildAll_nil buildAll_nil
  obtain ⟨object, hcreation, hruntime, hobject⟩ := build_of_deploys ["Teller"] [] hteller
    buildAll_nil (buildAll_cons rfl hget (by decide) hinner buildAll_nil)
  have hemit : (emit { contracts := [vault, teller] } [] teller).1 = .ok object :=
    congrArg Prod.fst hobject
  have hspelled : ∀ inner : Yul.Object, inner.Within object → ∀ d,
      Registry.get? { contracts := [vault, teller] } inner.name = some d → d.Spelled := by
    intro inner _ d hd
    have hmem := (Registry.of_get?_eq_some hd).1
    rcases List.mem_cons.1 hmem with rfl | hmem
    · exact spelled_vault
    · exact List.mem_singleton.1 hmem ▸ spelled_teller
  obtain ⟨-, hnested, -, -, htitles⟩ := emitted_text_nested .empty rfl hemit hspelled
  refine ⟨object, hemit, hspelled, hnested, htitles.trans ?_⟩
  rw [titlesInOrder_eq, hcreation, hruntime, Yul.Object.titlesInOrderAll,
    Yul.Object.titlesInOrderAll, titlesInOrder_eq, hinnerCreation, hinnerRuntime]
  rfl

end Emit

end Covenant
