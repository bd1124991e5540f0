import Covenant.Proofs.Machine.Encoding
import Covenant.Proofs.Simulation.Expressions

/-!
# Statements on the machine

The code of a statement does what the reference interpreter does (`Follows`): it reverts where that
fails, and otherwise it leaves the same storage, logs the encodings of the same events, ends the
same way, and has the returned words in its result variables. Here are the statements without
branches, one by one.
-/

namespace Covenant

namespace Simulation

open Emit Machine
open Reference (Ending panics)

/-! ## States -/

/-- **What the machine logs** for an event and its arguments: their encoding, under the topic of the
first event of the name. -/
def logEntry (c : Contract) (entry : String × List Word) : List UInt8 × List Word :=
  match c.event? entry.1 with
  | some e => (encoded ((e.params.map Typed.type).zip entry.2),
      [Word.ofNumeral (Abi.topic (Abi.eventSignature e))])
  | none => ([], [])

/-- **The machine tracks the interpreter** in a function with some results: storage is the same, the
events were logged behind what was logged before, and the variables are those of the method with
the results behind them. -/
structure Tracks (x : Context) (w : Reference.World) (p : Nat)
    (before : List (List UInt8 × List Word)) (results : Table Word) (ref : Reference.State)
    (s : State) : Prop where
  storage : s.storage = ref.storage
  logs : s.logs = before ++ ref.logs.map (logEntry x.contract)
  locals : s.locals = ref.locals.coded results
  prepared : Prepared x w p s.memory

/-- No result has the name of a local. -/
def Apart (names : List String) : Prop :=
  ∀ n, localName n ∉ names

/-- The results of a function whose body ended in some way. -/
def resultsOf (names : List String) : Ending → Table Word
  | .left (some words) => names.zip words
  | _ => names.map (·, 0)

/-- How code ends. -/
def flowOf : Ending → Flow
  | .next => .next
  | .left _ => .left

/-- **Code follows the interpreter**: it ends the same way, in a state that tracks, or it reverts
where the interpreter fails. -/
def Follows (x : Context) (w : Reference.World) (p : Nat)
    (before : List (List UInt8 × List Word)) (names : List String) (run : Action Flow) (s : State) :
    Except Reference.Failure (Ending × Reference.State) → Prop
  | .ok (ending, ref) => ∃ t, run s = .ok (flowOf ending) t ∧
      Tracks x w p before (resultsOf names ending) ref t
  | .error _ => Reverts run s

variable {x : Context} {host : Host} {w : Reference.World} {code : List Yul.Function}
  {bodies : List Stmt} {p rounds n : Nat} {before : List (List UInt8 × List Word)}
  {names : List String} {results : Table Word} {ref ref' : Reference.State} {s t : State}

namespace Tracks

theorem still (h : Tracks x w p before results ref s) (hstill : Still p s t) :
    Tracks x w p before results ref t where
  storage := hstill.storage.trans h.storage
  logs := hstill.logs.trans h.logs
  locals := hstill.locals.trans h.locals
  prepared := h.prepared.still hstill

theorem agree (h : Tracks x w p before results ref s) (hapart : Apart results.keys) :
    Agree x w p ref s where
  storage := h.storage
  locals name := by rw [h.locals, Locals.get?_coded hapart]
  prepared := h.prepared

/-- Storage was written on both sides. -/
theorem stored (h : Tracks x w p before results ref s) {storage : Word → Word}
    (hstill : Still p { s with storage } t) :
    Tracks x w p before results { ref with storage } t where
  storage := hstill.storage
  logs := hstill.logs.trans h.logs
  locals := hstill.locals.trans h.locals
  prepared := Prepared.still (s := { s with storage }) h.prepared hstill

/-- The locals were changed on both sides. -/
theorem withLocals (h : Tracks x w p before results ref s) {locals : Locals Word}
    {after : Table Word} {coded : Locals Word} (hcoded : coded = locals.coded after) :
    Tracks x w p before after { ref with locals } { s with locals := coded } where
  storage := h.storage
  logs := h.logs
  locals := hcoded
  prepared := h.prepared

end Tracks

theorem keys_zeros (names : List String) : Table.keys (names.map (·, (0 : Word))) = names := by
  simp [Table.keys, Function.comp_def]

theorem Follows.singleton {run : Apply} {c : Yul.Stmt}
    {r : Except Reference.Failure (Ending × Reference.State)}
    (h : Follows x w p before names (exec run n c) s r) :
    Follows x w p before names (execAll run n [c]) s r := by
  cases r with
  | error failure => exact Reverts.execAll h
  | ok out =>
    obtain ⟨ending, ref⟩ := out
    obtain ⟨t, ht, htracks⟩ := h
    cases ending with
    | next => exact ⟨t, execAll_of_next ht, htracks⟩
    | left words => exact ⟨t, execAll_of_left ht, htracks⟩

/-! ## Statements that apply a function -/

/-- The code of several expressions gives their words. -/
theorem yields_each (rounds : Nat) (hlinked : Linked x bodies code) (hserves : Serves x host w)
    {es : List Expr} {ys : List Yul.Expr} (hcodes : CodesEach x es ys)
    (hevaluable : ∀ e ∈ es, Evaluable code p ref e)
    (hshared : ∀ f ∈ shared, f.name ∈ Yul.Expr.callsAll ys → f ∈ code)
    (hagree : Agree x w p ref s) :
    Yields p (evalArgs (apply host code (rounds + 260)) ys) s (Reference.evalEach w ref es) :=
  yields_each_of (fun e _ => yields_of_codes hlinked hserves e) hcodes hevaluable hshared hagree

/-- **What is applied for its effect** gives no words and leaves a state that tracks, or reverts. -/
def Affects (x : Context) (w : Reference.World) (p : Nat)
    (before : List (List UInt8 × List Word)) (names : List String) (run : Action (List Word))
    (s : State) : Except Reference.Failure Reference.State → Prop
  | .ok ref => ∃ t, run s = .ok [] t ∧ Tracks x w p before (names.map (·, 0)) ref t
  | .error _ => Reverts run s

/-- The interpreter evaluates operands, does something with their words, and goes on. -/
def afterEach (w : Reference.World) (ref : Reference.State) (es : List Expr)
    (effect : List Word → Except Reference.Failure Reference.State) :
    Except Reference.Failure (Ending × Reference.State) := do
  let words ← panics (Reference.evalEach w ref es)
  let next ← effect words
  return (.next, next)

/-- **A function is applied for its effect** to operands that have code. -/
theorem follows_run (hlinked : Linked x bodies code) (hserves : Serves x host w)
    (hapart : Apart names) (htracks : Tracks x w p before (names.map (·, 0)) ref s)
    {es : List Expr} {ys : List Yul.Expr} (hcodes : CodesEach x es ys)
    (hevaluable : ∀ e ∈ es, Evaluable code p ref e) {f : String}
    (hshared : ∀ g ∈ shared, g.name ∈ (Yul.Stmt.run f ys).calls → g ∈ code)
    {effect : List Word → Except Reference.Failure Reference.State}
    (heffect : ∀ words t, words.length = es.length →
      Tracks x w p before (names.map (·, 0)) ref t → Affects x w p before names
        (apply host code (rounds + 260) (quotedNames ys) f words) t (effect words)) :
    Follows x w p before names (execAll (apply host code (rounds + 260)) n [.run f ys]) s
      (afterEach w ref es effect) := by
  have hargs := yields_each rounds hlinked hserves hcodes hevaluable
    (fun g hg hname => hshared g hg (List.mem_cons_of_mem _ hname))
    (htracks.agree (by rwa [keys_zeros]))
  refine .singleton ?_
  rw [afterEach]
  cases hwords : Reference.evalEach w ref es with
  | error panic =>
    rw [hwords] at hargs
    exact reverts_run_of_args hargs
  | ok words =>
    rw [hwords] at hargs
    obtain ⟨t, hargs, hstill⟩ := hargs
    have haffects := heffect words t (Reference.length_evalEach hwords) (htracks.still hstill)
    rw [panics, ok_bind]
    cases hnext : effect words with
    | error why =>
      rw [hnext] at haffects
      exact reverts_run hargs haffects
    | ok next =>
      rw [hnext] at haffects
      obtain ⟨u, hu, htracks'⟩ := haffects
      exact ⟨u, exec_run_of_ok hargs hu, htracks'⟩

section Effects

variable {pos : Position} {name : String} {value : Expr} {indices args : List Expr} {y : Yul.Expr}
  {ys : List Yul.Expr}

/-- Writing storage on both sides is an effect. -/
theorem Affects.of_stores {act : Action (List Word)} {r : Except Execution.Panic (Word → Word)}
    (htracks : Tracks x w p before (names.map (·, 0)) ref s) (h : Stores p act s r) :
    Affects x w p before names act s (panics (r.map fun storage => { ref with storage })) := by
  cases r with
  | error panic => exact h
  | ok storage =>
    obtain ⟨t, ht, hstill⟩ := h
    exact ⟨t, ht, htracks.stored hstill⟩

/-- **A variable of one word is assigned.** -/
theorem follows_setProperty (hlinked : Linked x bodies code) (hserves : Serves x host w)
    (hapart : Apart names) (htracks : Tracks x w p before (names.map (·, 0)) ref s) {slot : Word}
    (h : x.layout.location? name = some (.scalar slot)) (hcodes : Codes x value y)
    (hevaluable : Evaluable code p ref value)
    (hshared : ∀ g ∈ shared, g.name ∈ (Yul.Stmt.run (Storage.setter name) [y]).calls → g ∈ code) :
    Follows x w p before names
      (execAll (apply host code (rounds + 260)) n [.run (Storage.setter name) [y]]) s
      (Reference.exec w (.setProperty pos name value) ref) := by
  have hexec : Reference.exec w (.setProperty pos name value) ref = afterEach w ref [value]
      fun words => .ok { ref with storage := w.setProperty ref.storage name (words.headD 0) } := by
    rw [afterEach, Reference.evalEach_one, Reference.exec]
    cases Reference.eval w ref value <;> rfl
  rw [hexec]
  refine follows_run hlinked hserves hapart htracks (.cons hcodes .nil)
    (List.forall_mem_singleton.2 hevaluable) hshared fun words t hlength htracks => ?_
  obtain ⟨a, rfl⟩ := List.length_eq_one_iff.1 hlength
  rw [← htracks.storage]
  exact Affects.of_stores (r := .ok (w.setProperty t.storage name a)) htracks
    (stores_setter hlinked hserves h a)

/-- **An entry or an element is assigned.** -/
theorem follows_setEntry (hlinked : Linked x bodies code) (hserves : Serves x host w)
    (hapart : Apart names) (htracks : Tracks x w p before (names.map (·, 0)) ref s)
    {location : Storage.Location} (h : x.layout.location? name = some location)
    (hcount : location.indices? = some indices.length)
    (hcodes : CodesEach x (indices ++ [value]) ys)
    (hevaluable : ∀ e ∈ indices ++ [value], Evaluable code p ref e)
    (hshared : ∀ g ∈ shared, g.name ∈ (Yul.Stmt.run (Storage.setter name) ys).calls → g ∈ code) :
    Follows x w p before names
      (execAll (apply host code (rounds + 260)) n [.run (Storage.setter name) ys]) s
      (Reference.exec w (.setEntry pos name indices value) ref) := by
  have hexec : Reference.exec w (.setEntry pos name indices value) ref =
      afterEach w ref (indices ++ [value]) fun words =>
        panics ((w.setEntry ref.storage name words.dropLast (words.getLastD 0)).map
          fun storage => { ref with storage }) := by
    rw [afterEach, Reference.evalEach_concat, Reference.exec]
    cases Reference.evalEach w ref indices with
    | error panic => rfl
    | ok keys =>
      cases Reference.eval w ref value with
      | error panic => rfl
      | ok a =>
        simp only [panics, ok_bind, pure, Except.pure, List.dropLast_concat, List.getLastD_concat]
        cases w.setEntry ref.storage name keys a <;> rfl
  rw [hexec]
  refine follows_run hlinked hserves hapart htracks hcodes hevaluable hshared
    fun words t hlength htracks => ?_
  obtain ⟨keys, a, rfl⟩ : ∃ keys a, words = keys ++ [a] := by
    have hsome : words ≠ [] := by
      rintro rfl
      simp at hlength
    exact ⟨_, _, (List.dropLast_append_getLast hsome).symm⟩
  have hkeys : keys.length = indices.length := by simpa using hlength
  rw [← hkeys] at hcount
  rw [List.dropLast_concat, List.getLastD_concat, ← htracks.storage]
  exact .of_stores htracks (stores_entry hlinked hserves h hcount a)

/-- **A message is thrown.** -/
theorem follows_throw (hlinked : Linked x bodies code) (hserves : Serves x host w)
    (hapart : Apart names) (htracks : Tracks x w p before (names.map (·, 0)) ref s)
    (hcodes : Codes x value y) (hevaluable : Evaluable code p ref value)
    (hshared : ∀ g ∈ shared, g.name ∈ (Yul.Stmt.run "revert_error" [y]).calls → g ∈ code) :
    Follows x w p before names
      (execAll (apply host code (rounds + 260)) n [.run "revert_error" [y]]) s
      (Reference.exec w (.throw pos value) ref) := by
  have hexec : Reference.exec w (.throw pos value) ref = afterEach w ref [value]
      fun words => .error (.threw (words.headD 0)) := by
    rw [afterEach, Reference.evalEach_one, Reference.exec]
    cases Reference.eval w ref value <;> rfl
  rw [hexec]
  refine follows_run hlinked hserves hapart htracks (.cons hcodes .nil)
    (List.forall_mem_singleton.2 hevaluable) hshared fun words t hlength _ => ?_
  obtain ⟨a, rfl⟩ := List.length_eq_one_iff.1 hlength
  have hmem := hshared revertError (by simp [shared]) List.mem_cons_self
  obtain ⟨hencode, hencodeFind⟩ := function?_shared hlinked hmem
    (show abiEncodeString ∈ shared by simp [shared]) (by decide)
  obtain ⟨-, hlengthFind⟩ := function?_shared hlinked hencode
    (show stringLength ∈ shared by simp [shared]) (by decide)
  have hfind : function? code "revert_error" = some revertError :=
    function?_of_mem hlinked.distinct hmem
  rw [apply_of_function (by decide) hfind]
  exact reverts_revertError hencodeFind hlengthFind (by omega) a

theorem mem_calls_eventDefinition {e : Event} (number : Nat)
    (h : (e.params.map Typed.type).any isDynamic) :
    "abi_encode_string" ∈ (eventDefinition e number).calls := by
  have hvalues : (typedVars (e.params.map Typed.type) (Context.paramNames e.params)).any
      fun value => isDynamic value.1 := by
    rw [typedVars, Context.paramNames, List.map_map, List.zip_map', List.any_map]
    rwa [List.any_map] at h
  obtain ⟨c, hc, hname⟩ := Yul.Stmt.mem_callsAll.1
    (@mem_calls_encodeFrom (endName number) (.var "ptr") _ 0 hvalues)
  rw [Yul.Function.calls, Yul.Stmt.mem_callsAll]
  exact ⟨c, by simp [eventDefinition, encode, hc], hname⟩

/-- What the function of an event applies to texts is there. -/
theorem hasTexts_of_linked (hlinked : Linked x bodies code) {e : Event} {number : Nat}
    (hcode : eventDefinition e number ∈ code) : HasTexts code (e.params.map Typed.type) := by
  intro htexts
  obtain ⟨hencode, hencodeFind⟩ := function?_shared hlinked hcode
    (show abiEncodeString ∈ shared by simp [shared]) (mem_calls_eventDefinition number htexts)
  exact ⟨hencodeFind, (function?_shared hlinked hencode
    (show stringLength ∈ shared by simp [shared]) (by decide)).2⟩

/-- **An event is logged.** -/
theorem follows_emit (hlinked : Linked x bodies code) (hserves : Serves x host w)
    (hapart : Apart names) (htracks : Tracks x w p before (names.map (·, 0)) ref s) {e : Event}
    (hevent : x.contract.event? name = some e) {number : Nat}
    (hcode : eventDefinition e number ∈ code) (hcount : args.length = e.params.length)
    (hroom : p + 96 * args.length < 2 ^ 256) (hcodes : CodesEach x args ys)
    (hevaluable : ∀ e ∈ args, Evaluable code p ref e)
    (hshared : ∀ g ∈ shared, g.name ∈ (Yul.Stmt.run (eventFunction name) ys).calls → g ∈ code) :
    Follows x w p before names
      (execAll (apply host code (rounds + 260)) n [.run (eventFunction name) ys]) s
      (Reference.exec w (.emit pos name args) ref) := by
  have hexec : Reference.exec w (.emit pos name args) ref = afterEach w ref args
      fun words => .ok { ref with logs := ref.logs ++ [(name, words)] } := by
    rw [afterEach, Reference.exec]
    cases Reference.evalEach w ref args <;> rfl
  rw [hexec]
  refine follows_run hlinked hserves hapart htracks hcodes hevaluable hshared
    fun words t hlength htracks => ?_
  obtain rfl : e.name = name := by simpa using List.find?_some hevent
  have hnames : (Context.paramNames e.params).Nodup :=
    (List.nodup_append.1 (hlinked.heads _ hcode).1).1
  obtain ⟨memory, hrun, hkept⟩ := @runFunction_eventDefinition host code (rounds + 257) p t e words
    number (hcount.symm.trans hlength.symm) hnames (hasTexts_of_linked hlinked hcode) (by omega)
    htracks.prepared.free (by rwa [hlength])
  rw [apply_of_function (not_mem_operationNames (underscore_eventFunction _))
    (function?_of_mem hlinked.distinct hcode)]
  refine ⟨_, hrun, htracks.storage, ?_, htracks.locals, ?_⟩
  · simp [htracks.logs, logEntry, hevent]
  · exact Prepared.still (t := { t with memory }) htracks.prepared
      ⟨rfl, rfl, rfl, fun i _ hi => hkept i hi⟩

/-- **An expression is evaluated** and its word dropped. -/
theorem follows_evaluate (hlinked : Linked x bodies code) (hserves : Serves x host w)
    (hapart : Apart names) (htracks : Tracks x w p before (names.map (·, 0)) ref s)
    (hcodes : Codes x value y) (hevaluable : Evaluable code p ref value)
    (hshared : ∀ g ∈ shared, g.name ∈ (Yul.Stmt.run "pop" [y]).calls → g ∈ code) :
    Follows x w p before names
      (execAll (apply host code (rounds + 260)) n [.run "pop" [y]]) s
      (Reference.exec w (.evaluate pos value) ref) := by
  have hexec : Reference.exec w (.evaluate pos value) ref = afterEach w ref [value]
      fun _ => .ok ref := by
    rw [afterEach, Reference.evalEach_one, Reference.exec]
    cases Reference.eval w ref value <;> rfl
  rw [hexec]
  refine follows_run hlinked hserves hapart htracks (.cons hcodes .nil)
    (List.forall_mem_singleton.2 hevaluable) hshared fun words t hlength htracks => ?_
  obtain ⟨a, rfl⟩ := List.length_eq_one_iff.1 hlength
  exact ⟨t, by simp, htracks⟩

end Effects

/-! ## Statements about variables -/

section Variables

variable {pos : Position} {name : String} {type : Ty} {value : Expr} {y : Yul.Expr}

/-- A value is taken, and something is done with it. -/
theorem follows_value (rounds : Nat) (hlinked : Linked x bodies code) (hserves : Serves x host w)
    (hapart : Apart names) (htracks : Tracks x w p before (names.map (·, 0)) ref s)
    (hcodes : Codes x value y) (hevaluable : Evaluable code p ref value)
    (hshared : ∀ g ∈ shared, g.name ∈ y.calls → g ∈ code) {run : Action Flow}
    {effect : Word → Except Reference.Failure (Ending × Reference.State)}
    (hreverts : Reverts (eval (apply host code (rounds + 260)) y) s → Reverts run s)
    (heffect : ∀ a t, eval (apply host code (rounds + 260)) y s = .ok [a] t →
      Tracks x w p before (names.map (·, 0)) ref t →
      Follows x w p before names run s (effect a)) :
    Follows x w p before names run s ((panics (Reference.eval w ref value)).bind effect) := by
  have hvalue := @yields_of_codes x host w code bodies p rounds ref hlinked hserves value y hcodes
    hevaluable hshared s (htracks.agree (by rwa [keys_zeros]))
  cases ha : Reference.eval w ref value with
  | error panic =>
    rw [ha] at hvalue
    exact hreverts hvalue
  | ok a =>
    rw [ha] at hvalue
    obtain ⟨t, ht, hstill⟩ := hvalue
    exact heffect a t ht (htracks.still hstill)

/-- **A local is declared.** -/
theorem follows_declare (hlinked : Linked x bodies code) (hserves : Serves x host w)
    (hapart : Apart names) (htracks : Tracks x w p before (names.map (·, 0)) ref s)
    (hcodes : Codes x value y) (hevaluable : Evaluable code p ref value)
    (hshared : ∀ g ∈ shared, g.name ∈ y.calls → g ∈ code) :
    Follows x w p before names
      (exec (apply host code (rounds + 260)) n (.define (localName name) y)) s
      (Reference.exec w (.declare pos name type (some value)) ref) := by
  rw [Reference.exec]
  refine follows_value rounds hlinked hserves hapart htracks hcodes hevaluable hshared
    reverts_define fun a t ht htracks => ⟨_, exec_define_of_ok ht, htracks.withLocals ?_⟩
  rw [htracks.locals, Locals.coded_declare]
  rfl

/-- **A local is set.** -/
theorem follows_setVariable (hlinked : Linked x bodies code) (hserves : Serves x host w)
    (hapart : Apart names) (htracks : Tracks x w p before (names.map (·, 0)) ref s)
    (hknown : (ref.locals.get? name).isSome) (hcodes : Codes x value y)
    (hevaluable : Evaluable code p ref value)
    (hshared : ∀ g ∈ shared, g.name ∈ y.calls → g ∈ code) :
    Follows x w p before names
      (exec (apply host code (rounds + 260)) n (.assign (localName name) y)) s
      (Reference.exec w (.setVariable pos name value) ref) := by
  have hresults : Apart (Table.keys (names.map (·, (0 : Word)))) := by rwa [keys_zeros]
  rw [Reference.exec]
  refine follows_value rounds hlinked hserves hapart htracks hcodes hevaluable hshared
    reverts_assign fun a t ht htracks => ⟨_, exec_assign_of_ok ht ?_, htracks.withLocals ?_⟩
  · rwa [htracks.locals, Locals.get?_coded hresults]
  · rw [htracks.locals, ← Locals.coded_set hresults]
    rfl

end Variables

/-! ## Statements that leave the method -/

section Exits

/-- The next result is assigned, behind those that were assigned before. -/
theorem exec_assign_result {run : Apply} {name : String} {y : Yul.Expr} {a : Word}
    {done : Table Word} (hnew : name ∉ done.keys) (hresult : ∀ n, localName n ≠ name)
    (hy : eval run y s = .ok [a] t)
    (htracks : Tracks x w p before (done ++ (name, 0) :: names.map (·, 0)) ref t) :
    ∃ u, exec run n (.assign name y) s = .ok .next u ∧
      Tracks x w p before (done ++ [(name, a)] ++ names.map (·, 0)) ref u := by
  have hne : ∀ entry ∈ done, entry.1 ≠ name := by
    rintro entry hentry rfl
    exact hnew (List.mem_map.2 ⟨entry, hentry, rfl⟩)
  refine ⟨_, exec_assign_of_ok hy ?_, htracks.withLocals ?_⟩
  · rw [htracks.locals, Locals.get?_coded_result hresult, Table.isSome_get?]
    simp [Table.keys]
  · rw [htracks.locals, Locals.coded_set_result hresult, Table.set_append hne]
    simp [Table.set]

/-- **Results are assigned one after another**, unless one of the values is missing. -/
theorem execAll_assigns (hlinked : Linked x bodies code) (hserves : Serves x host w)
    {es : List Expr} {ys : List Yul.Expr} (hcodes : CodesEach x es ys)
    (hevaluable : ∀ e ∈ es, Evaluable code p ref e)
    (hshared : ∀ g ∈ shared, g.name ∈ Yul.Expr.callsAll ys → g ∈ code) {done : Table Word}
    (hcount : es.length = names.length) (hnodup : (done.keys ++ names).Nodup)
    (hapart : Apart (done.keys ++ names))
    (htracks : Tracks x w p before (done ++ names.map (·, 0)) ref s) :
    (∀ words, Reference.evalEach w ref es = .ok words → ∃ t,
      execAll (apply host code (rounds + 260)) n (List.zipWith .assign names ys) s = .ok .next t ∧
        Tracks x w p before (done ++ names.zip words) ref t) ∧
    (∀ panic, Reference.evalEach w ref es = .error panic →
      Reverts (execAll (apply host code (rounds + 260)) n (List.zipWith .assign names ys)) s) := by
  induction es generalizing names ys done s with
  | nil =>
    obtain rfl := List.length_eq_zero_iff.1 hcount.symm
    cases hcodes
    refine ⟨fun words hwords => ?_, fun panic hpanic => ?_⟩
    · cases hwords
      exact ⟨s, rfl, htracks⟩
    · cases hpanic
  | cons e es ih =>
    cases names with
    | nil => cases hcount
    | cons name names =>
      cases hcodes with
      | @cons _ y _ ys hfirst hrest =>
        rw [List.forall_mem_cons] at hevaluable
        -- results that were assigned and those to come have the same names all along
        have hkeys : Table.keys (done ++ (name :: names).map (·, (0 : Word)))
            = done.keys ++ name :: names := by
          simp [Table.keys, Function.comp_def]
        have hvalue := @yields_of_codes x host w code bodies p rounds ref hlinked hserves e y hfirst
          hevaluable.1 (fun g hg hname => hshared g hg (List.mem_append_left _ hname)) s
          (htracks.agree (by rwa [hkeys]))
        rw [Reference.evalEach]
        cases ha : Reference.eval w ref e with
        -- a value that is missing reverts, and so does all that stands behind it
        | error panic =>
          rw [ha] at hvalue
          refine ⟨fun words hwords => ?_, fun _ _ => Reverts.execAll (reverts_assign hvalue)⟩
          cases hwords
        | ok a =>
          rw [ha] at hvalue
          obtain ⟨t, ht, hstill⟩ := hvalue
          obtain ⟨u, hu, hassigned⟩ := exec_assign_result (n := n)
            (fun hmem => (List.nodup_append.1 hnodup).2.2 name hmem name List.mem_cons_self rfl)
            (fun n hn => hapart n (hn ▸ List.mem_append_right _ List.mem_cons_self)) ht
            (htracks.still hstill)
          have hkeys' : Table.keys (done ++ [(name, a)]) ++ names = done.keys ++ name :: names := by
            simp [Table.keys]
          obtain ⟨hok, herror⟩ := ih hrest hevaluable.2
            (fun g hg hname => hshared g hg (List.mem_append_right _ hname))
            (Nat.succ.inj hcount) (by rwa [hkeys']) (by rwa [hkeys']) hassigned
          refine ⟨fun words hwords => ?_, fun panic hpanic => ?_⟩
          · rw [ok_bind] at hwords
            obtain ⟨rest, hrest, h⟩ := bind_eq_ok.1 hwords
            cases pure_eq_ok.1 h
            obtain ⟨v, hv, htracks⟩ := hok rest hrest
            rw [List.append_assoc] at htracks
            exact ⟨v, (execAll_of_next hu).trans hv, htracks⟩
          · cases hwords : Reference.evalEach w ref es with
            | error panic => exact .execAll_of_next hu (herror panic hwords)
            | ok rest =>
              rw [hwords] at hpanic
              cases hpanic

/-- **The method is left with words**: they are in the results. -/
theorem follows_exit (hlinked : Linked x bodies code) (hserves : Serves x host w)
    (hapart : Apart names) (htracks : Tracks x w p before (names.map (·, 0)) ref s)
    (hnodup : names.Nodup) {es : List Expr} {ys : List Yul.Expr} (hcodes : CodesEach x es ys)
    (hevaluable : ∀ e ∈ es, Evaluable code p ref e)
    (hshared : ∀ g ∈ shared, g.name ∈ Yul.Expr.callsAll ys → g ∈ code)
    (hcount : es.length = names.length) :
    Follows x w p before names
      (execAll (apply host code (rounds + 260)) n (List.zipWith .assign names ys ++ [.leave])) s
      (do
        let words ← panics (Reference.evalEach w ref es)
        return (.left (some words), ref)) := by
  obtain ⟨hok, herror⟩ := @execAll_assigns x host w code bodies p rounds n before names ref s
    hlinked hserves es ys hcodes hevaluable hshared [] hcount hnodup hapart htracks
  cases hwords : Reference.evalEach w ref es with
  | error panic =>
    obtain ⟨data, t, ht⟩ := herror panic hwords
    refine ⟨data, t, ?_⟩
    rw [execAll_append_of_ne (by simp [ht]), ht]
  | ok words =>
    obtain ⟨t, ht, htracks⟩ := hok words hwords
    refine ⟨t, ?_, htracks⟩
    rw [execAll_append ht]
    rfl

/-- What has code and is returned is one word. -/
theorem returned_of_codes {value : Expr} {y : Yul.Expr} (h : Codes x value y) :
    Reference.returned w ref value = Reference.evalEach w ref [value] := by
  rw [Reference.evalEach_one]
  cases h <;> rfl

end Exits

end Simulation

end Covenant
