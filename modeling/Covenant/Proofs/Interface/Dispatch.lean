import Covenant.Abi.Entry
import Covenant.Emit.Code
import Covenant.Proofs.Storage.Slots
import Mathlib.Data.List.Forall2

/-!
# Calls as the interface description promises them

Who calls a contract encodes the arguments for what the interface description says: the selector of
a name with the types of the inputs, one word per input, and the outputs as they come back. The
description spells types as words of text; the code that receives a call is generated from the types
themselves. Here the code of every function is written out again from its entry alone, and the
dispatcher is shown to be that code, entry by entry and in the same order.
-/

namespace Covenant

/-! ## The types of members -/

namespace Ty

/-- Whether a state variable can have the type: a word, an array of words, or a mapping from one
word or more to a word. -/
def isStored : Ty → Bool
  | array item => item.isWord
  | mapping keys value => !keys.isEmpty && keys.all isWord && value.isWord
  | type => type.isWord

/-- Whether a method can return the type: nothing, a record of words, or a word. -/
def isReturned : Ty → Bool
  | void => true
  | record shape => shape.fields.all (·.type.isWord)
  | type => type.isWord

end Ty

/-- **The types of a contract's members are of the shapes that resolving a class gives them.** -/
structure Contract.Shaped (c : Contract) : Prop where
  stored : ∀ v ∈ c.stateVars, v.type.isStored
  taken : ∀ m ∈ c.methods, ∀ p ∈ m.params, p.type.isWord
  returned : ∀ m ∈ c.methods, m.returns.isReturned

/-! ## Functions of a description -/

namespace Abi

/-- A function of an interface description. -/
structure FunctionEntry where
  name : String
  inputs : List EntryParam
  outputs : List EntryParam
  stateMutability : String
deriving DecidableEq, Repr

/-- **The functions of an interface description**, in order. -/
def functions (entries : List Entry) : List FunctionEntry :=
  entries.filterMap fun
    | .function name inputs outputs stateMutability =>
      some { name, inputs, outputs, stateMutability }
    | _ => none

namespace FunctionEntry

open Yul.Expr Yul.Stmt

/-- The entry of the getter of a variable. -/
def ofVariable (v : StateVar) : FunctionEntry :=
  { name := v.name
    inputs := getterParams v
    outputs := [{ type := typeName (getterOutput v) }]
    stateMutability := "view" }

/-- The entry of a method. -/
def ofMethod (m : Routine) : FunctionEntry :=
  { name := m.name
    inputs := entryParams m.params
    outputs := Abi.outputs m.returns
    stateMutability := Abi.stateMutability m }

/-- The name with the types of the inputs. -/
def signature (f : FunctionEntry) : String :=
  f.name ++ "(" ++ ",".intercalate (f.inputs.map EntryParam.type) ++ ")"

/-- Reads an argument of a described type whose word is at a place behind the selector. -/
def reader (type : String) (place : Nat) : Yul.Expr :=
  match type with
  | "address" => call "validate_address" [call "calldataload" [num place]]
  | "bool" => call "validate_bool" [call "calldataload" [num place]]
  | "string" => call "decode_string_calldata" [num place]
  | _ => call "calldataload" [num place]

/-- Writes an output of a described type: a string behind all words, any other value as its own
word. -/
def writer (stop : String) (place : Yul.Expr) (value : Yul.Expr) (type : String) :
    List Yul.Stmt :=
  match type with
  | "string" =>
    [mstore place (sub (var stop) (var "ptr")),
      assign stop (call "abi_encode_string" [var stop, value])]
  | _ => [mstore place value]

/-- The variable of an argument, counted from zero. -/
def argument (i : Nat) : String :=
  "arg_" ++ toString (i + 1)

/-- The variable of a result, counted from zero. -/
def result (i : Nat) : String :=
  "ret_" ++ toString (i + 1)

/-- The code that refuses money where the entry only reads. -/
def refusing (f : FunctionEntry) : List Yul.Stmt :=
  if f.stateMutability = "view" then [run "require_no_value" []] else []

/-- The code that reads the arguments, one for each input and by its type. -/
def reading (f : FunctionEntry) : List Yul.Stmt :=
  (if f.inputs = [] then [] else [run "require_calldata" [num (4 + 32 * f.inputs.length)]])
    ++ f.inputs.mapIdx fun i p => define (argument i) (reader p.type (4 + 32 * i))

/-- The call of a function with all the arguments. -/
def calling (f : FunctionEntry) (function : String) : Yul.Expr :=
  call function ((List.range f.inputs.length).map fun i => var (argument i))

/-- The code that calls a function and writes what it returns, one value for each output and by its
type. -/
def writing (f : FunctionEntry) (function : String) (number : Nat) : List Yul.Stmt :=
  if f.outputs = [] then [evaluate (f.calling function), run "return" [num 0, num 0]]
  else
    let stop := Emit.endName number
    [declare ((List.range f.outputs.length).map result) (some (f.calling function)),
        define "ptr" free, define stop (add (var "ptr") (num (32 * f.outputs.length)))]
      ++ (f.outputs.mapIdx fun i p =>
          writer stop (Emit.head (var "ptr") i) (var (result i)) p.type).flatten
      ++ [run "return" [var "ptr", sub (var stop) (var "ptr")]]

/-- **The code that receives calls as an entry promises**, by the function that does the work. -/
def receiving (f : FunctionEntry) (function : String) (number : Nat) : List Yul.Stmt :=
  f.refusing ++ f.reading ++ f.writing function number

/-- Money is refused exactly where the entry only reads. -/
theorem refuses_iff (f : FunctionEntry) {function : String} (number : Nat)
    (h : function ≠ "require_no_value") :
    run "require_no_value" [] ∈ f.receiving function number ↔ f.stateMutability = "view" := by
  have hreading : run "require_no_value" [] ∉ f.reading := by
    rw [reading]
    split <;> simp [run, define]
  have hwriter (stop : String) (place value : Yul.Expr) (type : String) :
      run "require_no_value" [] ∉ writer stop place value type := by
    unfold writer
    split <;> simp [run, mstore]
  have hwriting : run "require_no_value" [] ∉ f.writing function number := by
    rw [writing]
    split
    · simp [run, calling, h.symm]
    · simp only [List.mem_append, List.mem_flatten, List.mem_mapIdx, not_or]
      refine ⟨⟨by simp [run, define], ?_⟩, by simp [run]⟩
      rintro ⟨code, ⟨i, hi, rfl⟩, hmem⟩
      exact hwriter _ _ _ _ hmem
  rw [receiving, List.mem_append, List.mem_append, refusing]
  split <;> simp [*]

end FunctionEntry

/-- The functions of a contract's description: the getters, then the methods. -/
theorem functions_project (c : Contract) :
    functions (project c) = (getters c).map .ofVariable ++ (exposedMethods c).map .ofMethod := by
  have hevents :
      functions (c.events.map fun e => .event e.name (entryParams e.params) false) = [] := by
    simp [functions]
  have hconstructor :
      functions (c.construction.map fun k =>
        .constructor (entryParams k.params) "nonpayable").toList = [] := by
    cases c.construction <;> rfl
  rw [functions] at hevents hconstructor
  rw [functions, project, List.filterMap_append, List.filterMap_append, List.filterMap_append,
    hevents, hconstructor, List.filterMap_map, List.filterMap_map, List.nil_append, List.nil_append,
    ← List.filterMap_eq_map, ← List.filterMap_eq_map]
  rfl

end Abi

/-- The cases of an item, if it is a choice. -/
def Yul.Item.cases : Yul.Item → List Yul.Case
  | .choice _ cases _ => cases
  | _ => []

/-! ## One route -/

namespace Emit

open Abi (FunctionEntry EntryParam typeName)

/-- **A route leads where an entry promises**: it has its signature, takes and gives words of its
types, and is guarded where the entry only reads. -/
structure Route.Serves (r : Route) (f : FunctionEntry) : Prop where
  signature : r.signature = f.signature
  inputs : r.inputs.map typeName = f.inputs.map EntryParam.type
  outputs : r.outputs.map typeName = f.outputs.map EntryParam.type
  guarded : r.guarded = true ↔ f.stateMutability = "view"
  takes : ∀ type ∈ r.inputs, type.isWord
  gives : ∀ type ∈ r.outputs, type.isWord

/-- A word is decoded by the spelling of its type. -/
theorem decodeCalldata_eq_reader {type : Ty} (h : type.isWord) (place : Nat) :
    decodeCalldata type place = FunctionEntry.reader (typeName type) place := by
  cases type with
  | void => cases h
  | array _ => cases h
  | mapping _ _ => cases h
  | record _ => cases h
  | anyRecord => cases h
  | missing => cases h
  | _ => rfl

/-- A word is encoded by the spelling of its type. -/
theorem encodeOne_eq_writer {type : Ty} (h : type.isWord) (stop : String) (index : Nat)
    (value : Yul.Expr) :
    encodeOne stop (.var "ptr") index type value =
      FunctionEntry.writer stop (head (.var "ptr") index) value (typeName type) := by
  cases type with
  | void => cases h
  | array _ => cases h
  | mapping _ _ => cases h
  | record _ => cases h
  | anyRecord => cases h
  | missing => cases h
  | _ => rfl

/-- Values are encoded one after the other, each at the place of its number. -/
theorem encodeFrom_eq_flatten (stop : String) (start : Yul.Expr) (index : Nat)
    (values : List (Ty × Yul.Expr)) :
    encodeFrom stop start index values =
      (values.mapIdx fun i v => encodeOne stop start (index + i) v.1 v.2).flatten := by
  induction values generalizing index with
  | nil => rfl
  | cons v rest ih =>
    obtain ⟨type, value⟩ := v
    rw [encodeFrom, ih, List.mapIdx_cons, List.flatten_cons]
    simp only [Nat.add_zero, Nat.add_assoc, Nat.add_comm 1]

namespace Route.Serves

variable {r : Route} {f : FunctionEntry}

theorem length_inputs (h : r.Serves f) : r.inputs.length = f.inputs.length := by
  have := congrArg List.length h.inputs
  simpa using this

theorem length_outputs (h : r.Serves f) : r.outputs.length = f.outputs.length := by
  have := congrArg List.length h.outputs
  simpa using this

/-- The types of an input on both sides have one spelling. -/
theorem typeName_input (h : r.Serves f) {i : Nat} (hr : i < r.inputs.length)
    (hf : i < f.inputs.length) : typeName r.inputs[i] = f.inputs[i].type := by
  have := congrArg (·[i]?) h.inputs
  simpa [hr, hf] using this

theorem typeName_output (h : r.Serves f) {i : Nat} (hr : i < r.outputs.length)
    (hf : i < f.outputs.length) : typeName r.outputs[i] = f.outputs[i].type := by
  have := congrArg (·[i]?) h.outputs
  simpa [hr, hf] using this

/-- The route decodes what the entry says is passed. -/
theorem decoding_eq (h : r.Serves f) : r.decoding = f.refusing ++ f.reading := by
  have hlength := h.length_inputs
  have hguard : (if r.guarded then [Yul.Stmt.run "require_no_value" []] else []) = f.refusing := by
    rw [FunctionEntry.refusing]
    by_cases hview : f.stateMutability = "view"
    · rw [if_pos hview, if_pos (h.guarded.2 hview)]
    · rw [if_neg hview, if_neg (fun hg => hview (h.guarded.1 hg))]
  have hcheck : (if r.inputs.isEmpty then []
        else [Yul.Stmt.run "require_calldata" [.num (4 + 32 * r.inputs.length)]]) =
      if f.inputs = [] then []
        else [Yul.Stmt.run "require_calldata" [.num (4 + 32 * f.inputs.length)]] := by
    rw [hlength]
    simp only [List.isEmpty_iff, ← List.length_eq_zero_iff, hlength]
  rw [Route.decoding, hguard, hcheck, FunctionEntry.reading, List.append_assoc]
  refine congrArg (f.refusing ++ ·) (congrArg₂ (· ++ ·) rfl ?_)
  -- place by place: both sides choose the reader, one by the type and one by its spelling
  refine List.ext_getElem (by simp [argNames, Storage.numbered, hlength]) fun i hi hi' => ?_
  have hr : i < r.inputs.length := by simpa [argNames, Storage.numbered] using hi
  have hf : i < f.inputs.length := hlength ▸ hr
  have hword := h.takes _ (List.getElem_mem hr)
  simp only [List.getElem_mapIdx, List.getElem_zip]
  rw [decodeCalldata_eq_reader hword, h.typeName_input hr hf]
  simp [argNames, Storage.numbered, FunctionEntry.argument]

theorem invocation_eq (h : r.Serves f) : r.invocation = f.calling r.function := by
  rw [Route.invocation, FunctionEntry.calling, h.length_inputs]
  simp [argNames, Storage.numbered, FunctionEntry.argument, Function.comp_def]

theorem resultNames_eq (h : r.Serves f) :
    r.resultNames = (List.range f.outputs.length).map FunctionEntry.result := by
  rw [Route.resultNames, h.length_outputs]
  rfl

/-- The results are encoded as the entry says they come back. -/
theorem encodeFrom_eq (h : r.Serves f) (stop : String) :
    encodeFrom stop (.var "ptr") 0 (typedVars r.outputs r.resultNames) =
      (f.outputs.mapIdx fun i p => FunctionEntry.writer stop (head (.var "ptr") i)
        (.var (FunctionEntry.result i)) p.type).flatten := by
  have hlength := h.length_outputs
  have hnames : r.resultNames.length = r.outputs.length := by simp [h.resultNames_eq, hlength]
  rw [encodeFrom_eq_flatten]
  congr 1
  refine List.ext_getElem (by simp [typedVars, hnames, hlength]) fun i hi hi' => ?_
  have hr : i < r.outputs.length := by simpa [typedVars, hnames] using hi
  have hf : i < f.outputs.length := hlength ▸ hr
  have hword := h.gives _ (List.getElem_mem hr)
  simp only [List.getElem_mapIdx, typedVars, List.getElem_zip, List.getElem_map, Nat.zero_add]
  rw [encodeOne_eq_writer hword, h.typeName_output hr hf]
  simp [h.resultNames_eq]

theorem answering_eq (h : r.Serves f) (number : Nat) :
    r.answering number = f.writing r.function number := by
  have hlength := h.length_outputs
  rw [Route.answering, FunctionEntry.writing, h.invocation_eq]
  by_cases hnone : f.outputs = []
  · have hr : r.outputs = [] := by simpa [hnone] using hlength
    rw [if_pos (by simp [hr]), if_pos hnone]
  · have hr : r.outputs ≠ [] := by
      rw [← List.length_pos_iff, hlength]
      exact List.length_pos_iff.2 hnone
    have hvars : (typedVars r.outputs r.resultNames).length = f.outputs.length := by
      simp [typedVars, h.resultNames_eq, hlength]
    rw [if_neg (by simpa using hr), if_neg hnone, encode, hvars, h.encodeFrom_eq,
      h.resultNames_eq]
    simp

/-- **The case of a route is the code that its entry promises.** -/
theorem case_eq (h : r.Serves f) (number : Nat) :
    (r.case number).label = Abi.selector f.signature ∧
      (r.case number).body = f.receiving r.function number := by
  refine ⟨congrArg Abi.selector h.signature, ?_⟩
  rw [Route.case, h.decoding_eq, h.answering_eq, FunctionEntry.receiving]

end Route.Serves

/-! ## All routes -/

theorem Route.serves_ofVariable {v : StateVar} (h : v.type.isStored) :
    (Route.ofVariable v).Serves (.ofVariable v) := by
  have hinputs : (Abi.getterInputs v).map typeName = (Abi.getterParams v).map EntryParam.type := by
    rw [Abi.getterParams]
    split
    · rename_i item hitem
      rw [Abi.getterInputs, hitem]
      rfl
    · simp [Function.comp_def]
  -- what is stored is read by words: keys, one index, or nothing
  have hwords : (∀ type ∈ Abi.getterInputs v, type.isWord) ∧ (Abi.getterOutput v).isWord := by
    rw [Abi.getterInputs, Abi.getterOutput]
    split
    · rename_i keys value htype
      simp only [htype, Ty.isStored, Bool.and_eq_true, List.all_eq_true] at h
      exact ⟨h.1.2, h.2⟩
    · rename_i item htype
      simp only [htype, Ty.isStored] at h
      exact ⟨by simp [Ty.isWord], h⟩
    · rename_i hmapping harray
      refine ⟨by simp, ?_⟩
      cases htype : v.type with
      | mapping keys value => exact absurd htype (hmapping keys value)
      | array item => exact absurd htype (harray item)
      | _ =>
        rw [htype] at h
        exact h
  constructor
  · exact congrArg (fun types => v.name ++ "(" ++ ",".intercalate types ++ ")") hinputs
  · exact hinputs
  · rfl
  · exact ⟨fun _ => rfl, fun _ => rfl⟩
  · exact hwords.1
  · simpa [Route.ofVariable] using hwords.2

theorem Route.serves_ofMethod {m : Routine} (hparams : ∀ p ∈ m.params, p.type.isWord)
    (hreturns : m.returns.isReturned) : (Route.ofMethod m).Serves (.ofMethod m) := by
  have hinputs : (m.params.map Typed.type).map typeName =
      (Abi.entryParams m.params).map EntryParam.type := by
    simp [Abi.entryParams, Function.comp_def]
  have houtputs : (resultTypes m.returns).map typeName =
        (Abi.outputs m.returns).map EntryParam.type ∧
      ∀ type ∈ resultTypes m.returns, type.isWord := by
    cases htype : m.returns with
    | record shape =>
      rw [htype, Ty.isReturned, List.all_eq_true] at hreturns
      simp only [resultTypes, Abi.outputs, Abi.entryParams, List.map_map, Function.comp_def,
        List.forall_mem_map]
      exact ⟨trivial, hreturns⟩
    | void => exact ⟨rfl, by simp [resultTypes]⟩
    | missing => exact ⟨rfl, by simp [resultTypes]⟩
    | anyRecord =>
      rw [htype] at hreturns
      cases hreturns
    | _ =>
      rw [htype] at hreturns
      exact ⟨rfl, List.forall_mem_singleton.2 hreturns⟩
  constructor
  · exact congrArg (fun types => m.name ++ "(" ++ ",".intercalate types ++ ")") hinputs
  · exact hinputs
  · exact houtputs.1
  · simp [Route.ofMethod, FunctionEntry.ofMethod, Abi.stateMutability]
  · simpa [Route.ofMethod] using hparams
  · exact houtputs.2

/-- **Every route serves the entry at its place.** -/
theorem routes_serve {c : Contract} (hc : c.Shaped) :
    List.Forall₂ Route.Serves (routes c) (Abi.functions (Abi.project c)) := by
  rw [routes, Abi.functions_project]
  refine List.rel_append (List.forall₂_map_left_iff.2 (List.forall₂_map_right_iff.2 ?_))
    (List.forall₂_map_left_iff.2 (List.forall₂_map_right_iff.2 ?_))
  · refine List.forall₂_same.2 fun v hv => Route.serves_ofVariable ?_
    exact hc.stored v (List.mem_filter.1 hv).1
  · refine List.forall₂_same.2 fun m hm => ?_
    have hmem := (List.mem_filter.1 hm).1
    exact Route.serves_ofMethod (hc.taken m hmem) (hc.returned m hmem)

/-- A relation between routes and what they serve carries over to their cases. -/
theorem casesFrom_forall₂ {α : Type} {rel : Yul.Case → α → Prop} {rs : List Route} {as : List α}
    (h : List.Forall₂ (fun r a => ∀ number, rel (r.case number) a) rs as) (number : Nat) :
    List.Forall₂ rel (casesFrom number rs) as := by
  induction h generalizing number with
  | nil => exact .nil
  | cons hfirst _ ih => exact .cons (hfirst number) (ih _)

/-- **The cases of a contract's dispatcher**, in order. -/
def dispatchCases (c : Contract) : List Yul.Case :=
  (dispatcher (routes c)).flatMap Yul.Item.cases

theorem dispatchCases_eq (c : Contract) : dispatchCases c = casesFrom 1 (routes c) := by
  rw [dispatchCases]
  cases routes c with
  | nil => rfl
  | cons r rest => simp [dispatcher, Yul.Item.cases]

/-! ## Selectors -/

theorem labels_casesFrom (number : Nat) (rs : List Route) :
    (casesFrom number rs).map Yul.Case.label = rs.map fun r => Abi.selector r.signature := by
  induction rs generalizing number with
  | nil => rfl
  | cons r rest ih =>
    rw [casesFrom, List.map_cons, ih]
    rfl

theorem signatures_routes (c : Contract) :
    (routes c).map Route.signature = Abi.functionSignatures c := by
  simp [routes, Abi.functionSignatures, Function.comp_def, Route.ofVariable, Route.ofMethod]

end Emit

namespace Text

/-- The digits of bytes tell the bytes. -/
theorem hexBytes_injective {bs cs : List UInt8} (h : hexBytes bs = hexBytes cs) : bs = cs := by
  have hdigit : ∀ m < 16, ∀ n < 16, hexDigit m = hexDigit n → m = n := by decide
  have hbyte {b c : UInt8} (h : hexByte b = hexByte c) : b = c := by
    simp only [hexByte, List.cons.injEq, and_true] at h
    have hb := b.toNat_lt
    have hc := c.toNat_lt
    have hhigh := hdigit _ (by omega) _ (by omega) h.1
    have hlow := hdigit _ (by omega) _ (by omega) h.2
    exact UInt8.toNat_inj.1 (by omega)
  have hdigits := String.ofList_injective h
  induction bs generalizing cs with
  | nil =>
    cases cs with
    | nil => rfl
    | cons c cs => cases hdigits
  | cons b bs ih =>
    cases cs with
    | nil => cases hdigits
    | cons c cs =>
      simp only [List.flatMap_cons] at hdigits
      obtain ⟨hfirst, hrest⟩ := List.append_inj hdigits rfl
      rw [hbyte hfirst, ih (congrArg String.ofList hrest) hrest]

end Text

namespace Abi

/-- Where no clash is found, no two signatures share a selector, nor one with those seen before. -/
theorem nodup_of_firstClash?_eq_none {seen : List (List UInt8 × String)} {signatures : List String}
    (h : firstClash? seen signatures = none) :
    (signatures.map selectorBytes).Nodup ∧
      ∀ s ∈ signatures, seen.lookup (selectorBytes s) = none := by
  induction signatures generalizing seen with
  | nil => exact ⟨List.nodup_nil, fun s hs => (nomatch hs)⟩
  | cons s rest ih =>
    rw [firstClash?] at h
    split at h
    · cases h
    · rename_i hnew
      obtain ⟨hrest, hseen⟩ := ih h
      have hapart {t : String} (ht : t ∈ rest) :
          (selectorBytes t == selectorBytes s) = false ∧ seen.lookup (selectorBytes t) = none := by
        have hlookup := hseen t ht
        rw [List.lookup_cons] at hlookup
        split at hlookup
        · cases hlookup
        · rename_i hne
          exact ⟨hne, hlookup⟩
      refine ⟨List.nodup_cons.2 ⟨fun hmem => ?_, hrest⟩, fun t ht => ?_⟩
      · obtain ⟨t, ht, heq⟩ := List.mem_map.1 hmem
        have hne := (hapart ht).1
        rw [heq, beq_self_eq_true] at hne
        cases hne
      · rcases List.mem_cons.1 ht with rfl | ht
        · exact hnew
        · exact (hapart ht).2

/-- **A contract that passes the check of its selectors has no two alike.** -/
theorem nodup_selectors_of_checkSelectors {c : Contract} (h : checkSelectors c = .ok ()) :
    ((functionSignatures c).map selector).Nodup := by
  rw [checkSelectors] at h
  split at h
  · cases h
  · split at h
    · cases h
    · rename_i hnone
      have hbytes := (nodup_of_firstClash?_eq_none hnone).1
      have hselector : (functionSignatures c).map selector =
          ((functionSignatures c).map selectorBytes).map fun bytes =>
            "0x" ++ Text.hexBytes bytes := by
        rw [List.map_map]
        rfl
      rw [hselector]
      refine List.Pairwise.map _ (fun bs cs hne heq => hne (Text.hexBytes_injective ?_)) hbytes
      exact (String.append_right_inj "0x").1 heq

end Abi

namespace Emit

open Abi (FunctionEntry)

/-! ## The dispatcher -/

/-- **The functions that do the work** for the entries, in order: the getters of the cells of a
layout that others may see, then the methods that they may call. -/
def workers (layout : Storage.Layout) (c : Contract) : List String :=
  (layout.cells.filter (·.owner.visibility.isExposed)).map (Storage.getter ·.name)
    ++ (Abi.exposedMethods c).map (methodFunction ·.name)

/-- A layout has a cell for each variable, in order. -/
theorem owners_of_placeAll {c : Contract} {earlier : List Storage.Cell} {cursor : Word}
    {vars : List StateVar} {layout : Storage.Layout}
    (h : Storage.placeAll c earlier cursor vars = .ok layout) :
    layout.cells.map Storage.Cell.owner = earlier.map Storage.Cell.owner ++ vars := by
  induction vars generalizing earlier cursor with
  | nil =>
    cases h
    simp
  | cons v rest ih =>
    obtain ⟨⟨location, next⟩, -, hrest⟩ := bind_eq_ok.1 h
    rw [ih hrest]
    simp

theorem workers_eq {c : Contract} {layout : Storage.Layout} (h : Storage.plan c = .ok layout) :
    workers layout c = (routes c).map Route.function := by
  have howners : layout.cells.map Storage.Cell.owner = c.stateVars := owners_of_placeAll h
  have hgetters : (layout.cells.filter (·.owner.visibility.isExposed)).map
      (Storage.getter ·.name) = (Abi.getters c).map (Storage.getter ·.name) := by
    rw [Abi.getters, ← howners, List.filter_map, List.map_map]
    rfl
  rw [workers, hgetters, routes, List.map_append, List.map_map, List.map_map]
  rfl

/-- No function that does the work is the one that refuses money. -/
theorem worker_ne {c : Contract} {r : Route} (h : r ∈ routes c) :
    r.function ≠ "require_no_value" := by
  -- the first letters differ
  have hget (name : String) : Storage.getter name ≠ "require_no_value" := by
    intro heq
    have := congrArg (·.toList.head?) heq
    simp [Storage.getter] at this
  have hfun (name : String) : methodFunction name ≠ "require_no_value" := by
    intro heq
    have := congrArg (·.toList.head?) heq
    simp [methodFunction] at this
  rcases List.mem_append.1 h with h | h
  · obtain ⟨v, -, rfl⟩ := List.mem_map.1 h
    exact hget v.name
  · obtain ⟨m, -, rfl⟩ := List.mem_map.1 h
    exact hfun m.name

/-- What holds of routes and entries holds of routes and entries beside the functions of the
routes. -/
theorem forall₂_zip_function {rel : Route → FunctionEntry → Prop} {allowed : Route → Prop}
    {rs : List Route} {fs : List FunctionEntry} (hallowed : ∀ r ∈ rs, allowed r)
    (h : List.Forall₂ rel rs fs) :
    List.Forall₂ (fun r promise => r.function = promise.1 ∧ allowed r ∧ rel r promise.2) rs
      ((rs.map Route.function).zip fs) := by
  induction h with
  | nil => exact .nil
  | cons hfirst _ ih =>
    obtain ⟨hr, hrest⟩ := List.forall_mem_cons.1 hallowed
    exact .cons ⟨rfl, hr, hfirst⟩ (ih hrest)

/-- **A case keeps the promise of an entry**, around the function that does the work: its code is
the one the entry tells, and it refuses money exactly where the entry only reads. -/
structure Keeps (case : Yul.Case) (promise : String × FunctionEntry) : Prop where
  body : ∃ number, case.body = promise.2.receiving promise.1 number
  refuses : Yul.Stmt.run "require_no_value" [] ∈ case.body ↔ promise.2.stateMutability = "view"

/-- **The dispatcher receives calls as the interface description promises.** For a contract whose
members have the types that resolving gives them and whose variables can be placed: the labels of
the cases are, in order, the selectors of the entries of the description and those of the
signatures; each case keeps the promise of its entry; and where the selectors pass their check, no
two labels are the same. -/
theorem dispatcher_meets_description {c : Contract} {layout : Storage.Layout} (hc : c.Shaped)
    (hplan : Storage.plan c = .ok layout) :
    (dispatchCases c).map Yul.Case.label =
        (Abi.functions (Abi.project c)).map (fun f => Abi.selector f.signature) ∧
      (dispatchCases c).map Yul.Case.label = (Abi.functionSignatures c).map Abi.selector ∧
      (workers layout c).length = (Abi.functions (Abi.project c)).length ∧
      List.Forall₂ Keeps (dispatchCases c)
        ((workers layout c).zip (Abi.functions (Abi.project c))) ∧
      (Abi.checkSelectors c = .ok () → ((dispatchCases c).map Yul.Case.label).Nodup) := by
  have hserve := routes_serve hc
  have hlabels : (casesFrom 1 (routes c)).map Yul.Case.label =
      (Abi.functionSignatures c).map Abi.selector := by
    rw [labels_casesFrom, ← signatures_routes, List.map_map]
    rfl
  rw [dispatchCases_eq, workers_eq hplan]
  refine ⟨?_, hlabels, ?_, ?_, fun hcheck => ?_⟩
  · have hsame : List.Forall₂ (· = ·) ((routes c).map fun r => Abi.selector r.signature)
        ((Abi.functions (Abi.project c)).map fun f => Abi.selector f.signature) := by
      refine List.forall₂_map_left_iff.2 (List.forall₂_map_right_iff.2 (hserve.imp ?_))
      exact fun r f h => congrArg Abi.selector h.signature
    rw [List.forall₂_eq_eq_eq] at hsame
    rw [labels_casesFrom, hsame]
  · rw [List.length_map, hserve.length_eq]
  · refine casesFrom_forall₂ ((forall₂_zip_function (fun r hr => worker_ne hr) hserve).imp ?_) 1
    rintro r ⟨function, f⟩ ⟨hfunction, hne, hserves⟩ number
    obtain rfl : r.function = function := hfunction
    have hbody := (hserves.case_eq number).2
    refine ⟨⟨number, hbody⟩, ?_⟩
    rw [hbody]
    exact f.refuses_iff number hne
  · rw [hlabels]
    exact Abi.nodup_selectors_of_checkSelectors hcheck

/-- A bank with variables of every shape, one of them hidden, a method that changes something and
one that returns a record. -/
def bank : Contract where
  name := "Bank"
  stateVars :=
    [{ name := "title", type := .text },
      { name := "open", type := .boolean, visibility := .hidden },
      { name := "limits", type := .array .number },
      { name := "shares", type := .mapping [.address none, .boolean] .bytes }]
  methods :=
    [{ name := "pay", returns := .void, mutability := .payable,
       params := [⟨"to", .address none⟩, ⟨"note", .text⟩] },
      { name := "head", returns := .record ⟨"Head", [⟨"owner", .address none⟩, ⟨"name", .text⟩]⟩,
        mutability := .view }]

theorem dispatcher_meets_description_bank :
    bank.Shaped ∧ ∃ layout, Storage.plan bank = .ok layout ∧
      workers layout bank =
        ["get_title", "get_limits", "get_shares", "fun_pay", "fun_head"] ∧
      (dispatchCases bank).map Yul.Case.label =
        ["title()", "limits(uint256)", "shares(address,bool)", "pay(address,string)", "head()"].map
          Abi.selector ∧
      List.Forall₂ Keeps (dispatchCases bank)
        ((workers layout bank).zip (Abi.functions (Abi.project bank))) := by
  have hshaped : bank.Shaped := ⟨by decide, by decide, by decide⟩
  obtain ⟨layout, hplan⟩ : ∃ layout, Storage.plan bank = .ok layout := ⟨_, rfl⟩
  obtain ⟨-, hlabels, -, hcases, -⟩ := dispatcher_meets_description hshaped hplan
  refine ⟨hshaped, layout, hplan, ?_, hlabels, hcases⟩
  rw [workers_eq hplan]
  decide

end Emit

end Covenant
