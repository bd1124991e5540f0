import Covenant.Proofs.Names.Renaming
import Covenant.Proofs.Resolution.Classes

/-!
# Reads and writes of a local

A bare name that no constant has stands for the local of that name, and an assignment to a name sets
the local of that name; so a local may be given another name throughout a body, and all that changes
in the resolved body is the name (`locals_bind_alike`). Where a constant has the name of a local the
two part ways: an assignment sets the local, a bare name reads the constant.
-/

namespace Covenant

namespace Resolve

open Source (Expression Chain Link Operand Postfix Suffix ObjectField Statement Mention)

variable {ρ : Equiv.Perm String} {scope : Scope} {returns : Ty}

/-! ## Renamed expressions -/

/-- Constants keep their names and their values. -/
structure ConstantsStay (ρ : Equiv.Perm String) (constants : Table Expr) : Prop where
  names : ∀ x, constants.get? (ρ x) = constants.get? x
  values : ∀ x v, constants.get? x = some v → v.rename ρ = v

/-- A name in front of further steps that is no local is none after renaming. -/
def HeadsFree (ρ : Equiv.Perm String) (scope : Scope) (ms : List Mention) : Prop :=
  ∀ m ∈ ms, m.role = .head → scope.locals.has m.name = false →
    (scope.rename ρ).locals.has m.name = false

/-- Names stay free among the mentions of two parts if they do in each. -/
theorem headsFree_append {ms more : List Mention} :
    HeadsFree ρ scope (ms ++ more) ↔ HeadsFree ρ scope ms ∧ HeadsFree ρ scope more :=
  List.forall_mem_append

/-- Fewer mentions leave fewer names to stay free. -/
theorem HeadsFree.mono {ms more : List Mention} (h : HeadsFree ρ scope more) (hsub : ms ⊆ more) :
    HeadsFree ρ scope ms :=
  fun m hm => h m (hsub hm)

/-- The name in front of the steps of a chain. -/
theorem HeadsFree.has_eq_false {pos p : Position} {x : String} {suffix : Suffix}
    {suffixes : List Suffix} (h : HeadsFree ρ scope (Postfix.mk pos (.name p x)
      (suffix :: suffixes)).mentions) (hlocal : scope.locals.has x = false) :
    (scope.rename ρ).locals.has x = false :=
  h ⟨pos, x, .head⟩ (by simp [Postfix.mentions, Source.Primary.mentions]) rfl hlocal

/-- Signs stand in front of the renamed value. -/
theorem rename_negated (pos : Position) (signs : List Source.Sign) (value : Expr) :
    (negated pos signs value).rename ρ = negated pos signs (value.rename ρ) := by
  induction signs with
  | nil => rfl
  | cons sign signs ih => rw [negated_cons, negated_cons, Expr.rename, ih]

/-- Steps that are all indices still are. -/
theorem indexSuffixes?_rename {suffixes : List Suffix} {es : List Expression}
    (h : indexSuffixes? suffixes = some es) :
    indexSuffixes? (Source.renameSuffixes ρ suffixes) = some (Source.renameEach ρ es) := by
  induction suffixes generalizing es with
  | nil =>
    cases h
    rfl
  | cons suffix suffixes ih =>
    cases suffix with
    | member => cases h
    | call => cases h
    | index pos e =>
      obtain ⟨rest, hrest, rfl⟩ := Option.map_eq_some_iff.1 h
      rw [Source.renameSuffixes, indexSuffixes?, ih hrest]
      rfl

theorem exists_renameSuffixes_cons (suffix : Suffix) (suffixes : List Suffix) :
    ∃ first, Source.renameSuffixes ρ (suffix :: suffixes) =
      first :: Source.renameSuffixes ρ suffixes := by
  rcases suffix with ⟨pos, x⟩ | ⟨pos, e⟩ | ⟨pos, ⟨p, es⟩⟩
  · exact ⟨_, rfl⟩
  · exact ⟨_, rfl⟩
  · exact ⟨_, rfl⟩

/-- Renaming leaves as many expressions. -/
theorem renameEach_ne_nil {es : List Expression} (h : es ≠ []) : Source.renameEach ρ es ≠ [] := by
  cases es with
  | nil => exact absurd rfl h
  | cons => exact List.cons_ne_nil _ _

attribute [local simp] Source.Postfix.mentions Source.Primary.mentions Source.suffixMentions
  Source.eachMentions

mutual
/-- **A renamed expression denotes the renamed value.** -/
theorem Denotes.rename (hstay : ConstantsStay ρ scope.constants) : ∀ {e : Expression} {v : Expr},
    Denotes scope e v → HeadsFree ρ scope e.mentions →
    Denotes (scope.rename ρ) (e.rename ρ) (v.rename ρ)
  | _, _, .chain h, hheads => .chain (h.rename hstay hheads)
  | _, _, .choice hcondition hyes hno, hheads => by
    rw [Expression.mentions, headsFree_append, headsFree_append] at hheads
    exact .choice (hcondition.rename hstay hheads.1.1) (hyes.rename hstay hheads.1.2)
      (hno.rename hstay hheads.2)

/-- A renamed chain stands for the renamed expression, operand by operand. -/
theorem DenotesChain.rename (hstay : ConstantsStay ρ scope.constants) : ∀ {c : Chain} {v : Expr},
    DenotesChain scope c v → HeadsFree ρ scope c.mentions →
    DenotesChain (scope.rename ρ) (c.rename ρ) (v.rename ρ)
  | _, _, .tree hfirst hlinks, hheads => by
    rw [Chain.mentions, headsFree_append] at hheads
    rw [← operatorTree_map (Expr.rename ρ) fun _ _ _ _ => rfl]
    exact .tree (hfirst.rename hstay hheads.1) (hlinks.rename hstay hheads.2)

theorem DenotesLinks.rename (hstay : ConstantsStay ρ scope.constants) :
    ∀ {ls : List Link} {vs : List OperatorLink}, DenotesLinks scope ls vs →
    HeadsFree ρ scope (Source.linkMentions ls) →
    DenotesLinks (scope.rename ρ) (Source.renameLinks ρ ls)
      (vs.map (OperatorLink.map (Expr.rename ρ)))
  | _, _, .nil, _ => .nil
  | _, _, .cons h hrest, hheads => by
    rw [Source.linkMentions, headsFree_append] at hheads
    exact .cons (h.rename hstay hheads.1) (hrest.rename hstay hheads.2)

/-- A renamed operand stands for the renamed expression. -/
theorem DenotesOperand.rename (hstay : ConstantsStay ρ scope.constants) :
    ∀ {o : Operand} {v : Expr}, DenotesOperand scope o v → HeadsFree ρ scope o.mentions →
    DenotesOperand (scope.rename ρ) (o.rename ρ) (v.rename ρ)
  | _, _, .signed h hsigns, hheads => by
    rw [rename_negated]
    refine .signed (h.rename hstay hheads) fun hlast => ?_
    rw [typeOf_rename, hsigns hlast]

/-- **Names and steps, renamed**: a name is still a local or a constant, as it was, and one in front
of steps is still none. -/
theorem DenotesPostfix.rename (hstay : ConstantsStay ρ scope.constants) :
    ∀ {p : Postfix} {v : Expr}, DenotesPostfix scope p v → HeadsFree ρ scope p.mentions →
    DenotesPostfix (scope.rename ρ) (p.rename ρ) (v.rename ρ)
  | _, _, .this, _ => .this
  | _, _, .property, _ => .property
  | _, _, .ownCall h, hheads => .ownCall (h.rename hstay (hheads.mono (by simp)))
  | _, _, .length h, _ => .length h
  | _, _, .propertyCall h, hheads => .propertyCall (h.rename hstay (hheads.mono (by simp)))
  | _, _, @DenotesPostfix.entry _ pos p memberPos x suffix suffixes es vs hindices h hcount,
      hheads => by
    have hrenamed := indexSuffixes?_rename (ρ := ρ) hindices
    have hmentions : Source.eachMentions es ⊆
        (Postfix.mk pos (.this p) (.member memberPos x :: suffix :: suffixes)).mentions := by
      rw [← mentions_of_indexSuffixes hindices]
      exact List.Subset.refl _
    obtain ⟨first, hfirst⟩ := exists_renameSuffixes_cons (ρ := ρ) suffix suffixes
    change DenotesPostfix _ (.mk pos (.this p) (.member memberPos x ::
      Source.renameSuffixes ρ (suffix :: suffixes))) (.entry pos x (Expr.renameEach ρ vs))
    rw [hfirst] at hrenamed ⊢
    refine .entry hrenamed (h.rename hstay (hheads.mono hmentions)) ?_
    rw [Expr.renameEach_eq_map, List.length_map]
    exact hcount
  | _, _, .constant h, _ => by
    rw [hstay.values _ _ h]
    exact .constant ((hstay.names _).trans h)
  | _, _, .variable hconstant h, _ =>
    .variable ((hstay.names _).trans hconstant) (by rw [has_rename, h])
  | _, _, .environment hlocal hspace h, hheads =>
    .environment (hheads.has_eq_false hlocal) hspace h
  | _, _, .hash hlocal hinputs h, hheads =>
    .hash (hheads.has_eq_false hlocal) (renameEach_ne_nil hinputs)
      (h.rename hstay (hheads.mono (by simp)))
  | _, _, .external hlocal hspace hcontract h, hheads =>
    .external (hheads.has_eq_false hlocal) hspace hcontract (h.rename hstay (hheads.mono (by simp)))
  | _, _, .externalCall hlocal hspace hcontract h hargs, hheads =>
    .externalCall (hheads.has_eq_false hlocal) hspace hcontract
      (h.rename hstay (hheads.mono (by simp)))
      (hargs.rename hstay (hheads.mono (by simp)))
  | _, _, .creation hcontract h, hheads =>
    .creation hcontract (h.rename hstay (hheads.mono (by simp)))
  | _, _, .number h, _ => by
    obtain ⟨n, -, -, rfl⟩ := number_eq_ok.1 h
    exact .number h
  | _, _, .text h, _ => by
    obtain ⟨-, rfl⟩ | ⟨-, -, rfl⟩ := text_eq_ok.1 h <;> exact .text h
  | _, _, .truth, _ => .truth
  | _, _, .parens h, hheads => .parens (h.rename hstay (hheads.mono (by simp)))

/-- Renamed expressions stand for the renamed values, one by one. -/
theorem DenotesEach.rename (hstay : ConstantsStay ρ scope.constants) :
    ∀ {es : List Expression} {vs : List Expr}, DenotesEach scope es vs →
    HeadsFree ρ scope (Source.eachMentions es) →
    DenotesEach (scope.rename ρ) (Source.renameEach ρ es) (Expr.renameEach ρ vs)
  | _, _, .nil, _ => .nil
  | _, _, .cons h hrest, hheads => by
    rw [Source.eachMentions, headsFree_append] at hheads
    exact .cons (h.rename hstay hheads.1) (hrest.rename hstay hheads.2)
end

/-! ## Renamed statements -/

theorem soleOperand?_rename {e : Expression} {p : Postfix} (h : soleOperand? e = some p) :
    soleOperand? (e.rename ρ) = some (p.rename ρ) := by
  unfold soleOperand? at h
  split at h
  · cases h
    rfl
  · cases h

/-- An object by itself still is one, with the same keys. -/
theorem soleObject?_rename {e : Expression} {pos : Position} {fields : List ObjectField}
    (h : soleObject? e = some (pos, fields)) :
    soleObject? (e.rename ρ) = some (pos, Source.renameFields ρ fields) := by
  unfold soleObject? at h
  split at h
  · rename_i hsole
    cases h
    rw [soleObject?, soleOperand?_rename hsole]
    rfl
  · cases h

/-- A field of an object literal with its locals renamed. -/
def renameField (ρ : Equiv.Perm String) : ObjectField → ObjectField
  | .valued pos key value => .valued pos key (value.rename ρ)
  | .shorthand pos key =>
    if ρ key = key then .shorthand pos key else .valued pos key (Source.bareName pos (ρ key))

/-- The fields of an object are renamed one by one. -/
theorem renameFields_eq_map (fields : List ObjectField) :
    Source.renameFields ρ fields = fields.map (renameField ρ) := by
  induction fields with
  | nil => rfl
  | cons field fields ih => cases field <;> simp [Source.renameFields, renameField, ih]

/-- The key of a field is no name of a local. -/
@[simp] theorem key_renameField (field : ObjectField) : (renameField ρ field).key = field.key := by
  cases field with
  | valued => rfl
  | shorthand pos key =>
    rw [renameField]
    split <;> rfl

theorem denotes_bareName {pos : Position} {x : String} {v : Expr}
    (h : DenotesPostfix scope (.mk pos (.name pos x) []) v) :
    Denotes scope (Source.bareName pos x) v :=
  (denotes_of_soleOperand rfl).2 h

/-- A shorthand field becomes one with a value: the key stays, the local it mentions is renamed. -/
theorem DenotesField.rename (hstay : ConstantsStay ρ scope.constants) {field : ObjectField}
    {v : Expr} (h : DenotesField scope field v)
    (hheads : HeadsFree ρ scope (Source.fieldMentions [field])) :
    DenotesField (scope.rename ρ) (renameField ρ field) (v.rename ρ) := by
  cases h with
  | valued h => exact .valued (h.rename hstay (hheads.mono (by simp [Source.fieldMentions])))
  | @shorthand pos key v h =>
    have hrenamed : DenotesPostfix (scope.rename ρ) (.mk pos (.name pos (ρ key)) []) (v.rename ρ) :=
      h.rename hstay (hheads.mono (by simp [Source.fieldMentions]))
    rw [renameField]
    split
    · rename_i hkey
      exact .shorthand (by rwa [hkey] at hrenamed)
    · exact .valued (denotes_bareName hrenamed)

/-- The fields of a record stand for the renamed values, under their keys. -/
theorem DenotesRecord.rename (hstay : ConstantsStay ρ scope.constants) {shape : Interface}
    {fields : List ObjectField} {vs : List Expr} (h : DenotesRecord scope shape fields vs)
    (hheads : HeadsFree ρ scope (Source.fieldMentions fields)) :
    DenotesRecord (scope.rename ρ) shape (Source.renameFields ρ fields)
      (vs.map (Expr.rename ρ)) := by
  rw [renameFields_eq_map]
  refine ⟨⟨?_, ?_⟩, ?_⟩
  · rw [List.map_map, show ObjectField.key ∘ renameField ρ = ObjectField.key from
      funext key_renameField]
    exact h.keys.distinct
  · intro field hfield
    obtain ⟨given, hgiven, rfl⟩ := List.mem_map.1 hfield
    rw [key_renameField]
    exact h.keys.known given hgiven
  · rw [List.forall₂_map_right_iff]
    refine h.each.imp fun param v => ?_
    rintro ⟨field, hfield, hkey, hdenotes⟩
    refine ⟨_, List.mem_map_of_mem hfield, (key_renameField field).trans hkey, ?_⟩
    refine hdenotes.rename hstay (hheads.mono ?_)
    rw [fieldMentions_eq_flatMap fields]
    exact fun m hm => List.mem_flatMap.2 ⟨field, hfield, hm⟩

theorem rename_retag (type : Ty) (e : Expr) :
    (retag type e).rename ρ = retag type (e.rename ρ) := by
  unfold retag
  split
  · split <;> rfl
  · rename_i hne
    split
    · rename_i heq
      cases e <;> simp_all [Expr.rename]
    · rfl

/-- What an assignment adds to or takes from is renamed with the rest. -/
theorem rename_assigned (pos : Position) (assignment : Source.Assignment) (current v : Expr) :
    (assigned pos assignment current v).rename ρ =
      assigned pos assignment (current.rename ρ) (v.rename ρ) := by
  cases assignment <;> rfl

theorem literalOf_rename (e : Expr) : literalOf (e.rename ρ) = literalOf e := by
  cases e <;> rfl

/-- An event is emitted under its own name. -/
theorem emittedEvent?_rename {call : Postfix} {x : String} {pos objectsPos : Position}
    {object : Expression} (h : emittedEvent? call = some (x, pos, .mk objectsPos [object])) :
    emittedEvent? (call.rename ρ) = some (x, pos, .mk objectsPos [object.rename ρ]) := by
  unfold emittedEvent? at h
  split at h
  · cases h
    rfl
  · cases h
    rfl
  · cases h

/-- A call of an event mentions what the object it is given mentions. -/
theorem mentions_subset_of_emitted {call : Postfix} {x : String} {pos objectsPos : Position}
    {object : Expression} (h : emittedEvent? call = some (x, pos, .mk objectsPos [object])) :
    object.mentions ⊆ call.mentions := by
  unfold emittedEvent? at h
  split at h <;> cases h <;> simp

/-- **A renamed statement says the renamed one.** -/
theorem States.rename (hstay : ConstantsStay ρ scope.constants) {s : Statement} {t : Stmt}
    {after : Scope} (h : States scope returns s t after)
    (hheads : HeadsFree ρ scope s.readings) :
    States (scope.rename ρ) returns (s.rename ρ) (t.rename ρ) (after.rename ρ) := by
  cases h with
  | blank hfresh htype hword =>
    exact .blank (by rw [has_rename, hfresh]) (by rw [resolveType_rename, htype]) hword
  | annotated hfresh h htype hword =>
    rw [rename_withLocal, Stmt.rename, Option.map_some, rename_retag]
    exact .annotated (by rw [has_rename, hfresh]) (h.rename hstay hheads)
      (by rw [literalOf_rename, resolveType_rename, htype]) hword
  | @inferred _ _ _ _ v hfresh h hword =>
    rw [rename_withLocal, ← typeOf_rename (ρ := ρ) scope v] at *
    exact .inferred (by rw [has_rename, hfresh]) (h.rename hstay hheads) hword
  | exit hvoid => exact .exit hvoid
  | exitWord hword h =>
    rw [Stmt.rename, Option.map_some, rename_retag]
    exact .exitWord hword (h.rename hstay hheads)
  | exitRecord hreturns hobject h =>
    rw [Stmt.rename, Option.map_some, Expr.rename, Expr.renameEach_eq_map]
    refine .exitRecord hreturns (soleObject?_rename hobject) (h.rename hstay ?_)
    rwa [← mentions_of_soleObject hobject]
  | throw hsole h =>
    refine .throw (soleOperand?_rename hsole) (h.rename hstay (hheads.mono ?_))
    simp [Statement.readings, mentions_of_soleOperand hsole]
  | @baseCall _ _ _ _ _ arguments hsole =>
    obtain ⟨argumentsPos, values⟩ := arguments
    exact .baseCall (soleOperand?_rename hsole)
  | emit hsole hcall hevent hknown hobject h =>
    refine .emit (soleOperand?_rename hsole) (soleOperand?_rename hcall)
      (emittedEvent?_rename hevent) hknown (soleObject?_rename hobject)
      (h.rename hstay (hheads.mono ?_))
    simp only [Statement.readings, Source.isBaseCall, hsole, mentions_of_soleOperand hsole]
    rw [← mentions_of_soleObject hobject]
    simpa [mentions_of_soleOperand hcall] using
      List.subset_cons_of_subset _ (mentions_subset_of_emitted hevent)
  | evaluate h =>
    refine .evaluate (h.rename hstay ?_)
    rwa [Statement.readings, isBaseCall_of_denotes h] at hheads
  | setVariable htarget hlocal h =>
    rw [Stmt.rename, rename_retag, rename_assigned]
    refine .setVariable (soleOperand?_rename htarget) (by rw [get?_rename, hlocal])
      (h.rename hstay (hheads.mono ?_))
    simp [Statement.readings]
  | setProperty htarget hproperty hword h =>
    rw [Stmt.rename, rename_retag, rename_assigned]
    refine .setProperty (soleOperand?_rename htarget) hproperty hword
      (h.rename hstay (hheads.mono ?_))
    simp [Statement.readings]
  | setUnknown htarget hproperty h =>
    rw [Stmt.rename, rename_assigned]
    refine .setUnknown (soleOperand?_rename htarget) hproperty (h.rename hstay (hheads.mono ?_))
    simp [Statement.readings]
  | @setEntry _ _ assignment _ _ targetPos p memberPos x suffix suffixes es vs htarget hindices
      heach hcount h =>
    -- the target is an entry by its first index, so the renamed indices must show one as well
    obtain ⟨first, hfirst⟩ := exists_renameSuffixes_cons (ρ := ρ) suffix suffixes
    have hindices' := indexSuffixes?_rename (ρ := ρ) hindices
    have htarget' := soleOperand?_rename (ρ := ρ) htarget
    change _ = some (Postfix.mk targetPos (.this p) (.member memberPos x ::
      Source.renameSuffixes ρ (suffix :: suffixes))) at htarget'
    rw [hfirst] at hindices' htarget'
    rw [Statement.readings, targetMentions_entry htarget hindices, headsFree_append] at hheads
    rw [Stmt.rename, rename_assigned, Expr.rename, ← Expr.renameEach_eq_map]
    refine .setEntry htarget' hindices' (heach.rename hstay hheads.1) ?_ (h.rename hstay hheads.2)
    rw [Expr.renameEach_eq_map, List.length_map]
    exact hcount

/-! ## Renamed bodies -/

theorem rename_after (first : List Stmt) (rest : Resolved) :
    (rest.after first).rename ρ = (rest.rename ρ).after (Stmt.renameAll ρ first) := by
  simp [Resolved.after, Resolved.rename]

/-- A name that a statement does not declare is no local behind it either. -/
theorem States.has_locals {s : Statement} {t : Stmt} {after : Scope} {x : String}
    (h : States scope returns s t after) (hlocal : scope.locals.has x = false)
    (hdeclared : x ∉ s.declared) : after.locals.has x = false := by
  have hput (name : String) (type : Ty) (hne : x ∉ [name]) :
      (scope.withLocal name type).locals.has x = false := by
    have hname : x ≠ name := by simpa using hne
    rw [Scope.withLocal, Table.put, Table.has, Table.get?_cons, if_neg hname]
    exact hlocal
  cases h with
  | blank | annotated | inferred => exact hput _ _ hdeclared
  | _ => exact hlocal

/-- The locals behind a body are those before it and those it declares. -/
theorem Resolves.has_locals {ss : List Statement} {next : Nat} {r : Resolved} {x : String}
    (h : Resolves returns ss scope next r) (hlocal : scope.locals.has x = false)
    (hdeclared : x ∉ Source.declaredAll ss) : r.scope.locals.has x = false := by
  induction h with
  | nil => exact hlocal
  | plain h _ ih =>
    rw [Source.declaredAll, List.mem_append, not_or] at hdeclared
    exact ih (h.has_locals hlocal hdeclared.1) hdeclared.2
  | block _ _ ihBlock ih =>
    rw [Source.declaredAll, List.mem_append, not_or] at hdeclared
    exact ih (ihBlock hlocal hdeclared.1) hdeclared.2
  | ifThen _ _ _ _ ih | ifElse _ _ _ _ _ _ ih =>
    rw [Source.declaredAll, List.mem_append, not_or] at hdeclared
    exact ih hlocal hdeclared.2
  | empty _ ih => exact ih hlocal hdeclared

variable {x y : String}

/-- Where the new name is no local and stands in front of no steps, no such name becomes a local. -/
theorem headsFree_swap {ms : List Mention} (hlocal : scope.locals.has y = false)
    (h : ∀ m ∈ ms, m.name ≠ y) : HeadsFree (Equiv.swap x y) scope ms := by
  intro m hm _ hhead
  have hrenamed := has_rename (ρ := Equiv.swap x y) scope (Equiv.swap x y m.name)
  rw [Equiv.swap_apply_self] at hrenamed
  rw [hrenamed]
  by_cases hx : m.name = x
  · rw [hx, Equiv.swap_apply_left, hlocal]
  · rw [Equiv.swap_apply_of_ne_of_ne hx (h m hm), hhead]

/-- **A local may be given a new name** in a body: neither name is that of a constant or of a
temporary handed out on the way, and the new one is not used. -/
structure Renamable (x y : String) (scope : Scope) (ss : List Statement) (lo hi : Nat) : Prop where
  constants : ConstantsStay (Equiv.swap x y) scope.constants
  unbound : scope.locals.has y = false
  undeclared : y ∉ Source.declaredAll ss
  unmentioned : ∀ m ∈ Source.readingsAll ss, m.name ≠ y
  temporaries : ∀ k, lo ≤ k → k < hi → Equiv.swap x y (Temps.nameOf k) = Temps.nameOf k

/-- Also in a part of the body, or in what follows one. -/
theorem Renamable.part {scope' : Scope} {ss part : List Statement} {lo lo' hi : Nat}
    (h : Renamable x y scope ss lo hi) (hconstants : scope'.constants = scope.constants)
    (hunbound : scope'.locals.has y = false)
    (hdeclared : Source.declaredAll part ⊆ Source.declaredAll ss)
    (hreadings : Source.readingsAll part ⊆ Source.readingsAll ss) (hle : lo ≤ lo') :
    Renamable x y scope' part lo' hi where
  constants := by rw [hconstants]; exact h.constants
  unbound := hunbound
  undeclared hy := h.undeclared (hdeclared hy)
  unmentioned m hm := h.unmentioned m (hreadings hm)
  temporaries k hk := h.temporaries k (Nat.le_trans hle hk)

/-- Names in front of steps that are readings of the body stay free when two names are exchanged. -/
theorem Renamable.headsFree {ss : List Statement} {lo hi : Nat} {ms : List Mention}
    (h : Renamable x y scope ss lo hi) (hms : ms ⊆ Source.readingsAll ss) :
    HeadsFree (Equiv.swap x y) scope ms :=
  headsFree_swap h.unbound fun m hm => h.unmentioned m (hms hm)

attribute [local simp] Source.declaredAll Source.Statement.declared Source.readingsAll
  Source.Statement.readings

/-- **A body is resolved alike under a new name for a local.** -/
theorem Resolves.rename {ss : List Statement} {next hi : Nat} {r : Resolved}
    (h : Resolves returns ss scope next r) (hok : Renamable x y scope ss next hi)
    (hle : r.next ≤ hi) :
    Resolves returns (Source.renameAll (Equiv.swap x y) ss) (scope.rename (Equiv.swap x y)) next
      (r.rename (Equiv.swap x y)) := by
  -- every temporary of the body is numbered below `hi`, also those of the statements to come
  induction h with
  | nil => exact .nil
  | @plain s rest scope after next t r h hrest ih =>
    have hbefore := (normalize_carries after h.inner_free next).le
    have hunbound := h.has_locals hok.unbound fun hy => hok.undeclared (by simp [hy])
    have hsaid := h.rename hok.constants (hok.headsFree (by simp))
    obtain ⟨hnormal, hnext⟩ := normalize_rename h.inner_free hsaid.inner_free hok.temporaries
      (Nat.le_trans hrest.reads.le hle)
    have hafter := ih (hok.part h.constants_eq hunbound (by simp) (by simp) hbefore) hle
    rw [Source.renameAll, rename_after, ← hnormal]
    exact .plain hsaid (by rw [hnext]; exact hafter)
  | @block pos ss rest scope next inner r h hrest ihBlock ih =>
    have hunbound := h.has_locals hok.unbound fun hy => hok.undeclared (by simp [hy])
    have hblock := ihBlock (hok.part rfl hok.unbound (by simp) (by simp) (Nat.le_refl _))
      (Nat.le_trans hrest.reads.le hle)
    have hafter := ih (hok.part h.constants_eq hunbound (by simp) (by simp) h.reads.le) hle
    rw [Source.renameAll, rename_after]
    exact .block hblock hafter
  | @ifThen pos c v yes rest scope next ry r hcondition hyes hrest ihYes ih =>
    have hfree := branch_inner_free hyes.free Stmt.hasConditional_nil pos v
    have hbefore := (normalize_carries scope hfree ry.next).le
    have hend := Nat.le_trans hrest.reads.le hle
    have hcondition' := hcondition.rename hok.constants (hok.headsFree (by simp))
    have hyes' := ihYes (hok.part rfl hok.unbound (by simp) (by simp) (Nat.le_refl _))
      (Nat.le_trans hbefore hend)
    have hlater : Renamable x y scope rest ry.next hi :=
      hok.part rfl hok.unbound (by simp) (by simp) hyes.reads.le
    obtain ⟨hnormal, hnext⟩ := normalize_rename (s := .branch pos v ry.body []) hfree
      (branch_inner_free hyes'.free Stmt.hasConditional_nil _ _) hlater.temporaries hend
    have hafter := ih (hlater.part rfl hok.unbound (by simp) (by simp) hbefore) hle
    rw [Source.renameAll, rename_after, ← hnormal]
    rw [← hnext] at hafter
    exact (Resolves.ifThen hcondition' hyes' hafter :)
  | @ifElse pos c v yes no rest scope next ry rn r hcondition hyes hno hrest ihYes ihNo ih =>
    have hfree := branch_inner_free hyes.free hno.free pos v
    have hbefore := (normalize_carries scope hfree rn.next).le
    have hend := Nat.le_trans hrest.reads.le hle
    have hcondition' := hcondition.rename hok.constants (hok.headsFree (by simp))
    have hyes' := ihYes (hok.part rfl hok.unbound (by simp) (by simp) (Nat.le_refl _))
      (Nat.le_trans (Nat.le_trans hno.reads.le hbefore) hend)
    have hno' := ihNo (hok.part rfl hok.unbound (by simp)
      (by simp +contextual [List.subset_def]) hyes.reads.le)
      (Nat.le_trans hbefore hend)
    have hlater : Renamable x y scope rest rn.next hi := hok.part rfl hok.unbound (by simp)
      (by simp +contextual [List.subset_def]) (Nat.le_trans hyes.reads.le hno.reads.le)
    obtain ⟨hnormal, hnext⟩ := normalize_rename (s := .branch pos v ry.body rn.body) hfree
      (branch_inner_free hyes'.free hno'.free _ _) hlater.temporaries hend
    have hafter := ih (hlater.part rfl hok.unbound (by simp) (by simp) hbefore) hle
    rw [Source.renameAll, rename_after, ← hnormal]
    rw [← hnext] at hafter
    exact (Resolves.ifElse hcondition' hyes' hno' hafter :)
  | empty _ ih =>
    rw [Source.renameAll, Statement.rename]
    exact .empty (ih (hok.part rfl hok.unbound (by simp) (by simp) (Nat.le_refl _)) hle)

/-! ## Parameters -/

/-- A name that no parameter has is no local of the body. -/
theorem parameters_unbound {ps : List Source.Param} {params : List Parameter} {inner : Scope}
    (h : parameters ps scope = .ok (params, inner)) (hlocal : scope.locals.has y = false)
    (hps : ∀ p ∈ ps, p.name ≠ y) : inner.locals.has y = false := by
  induction ps generalizing scope params with
  | nil =>
    cases h
    exact hlocal
  | cons p rest ih =>
    rw [List.forall_mem_cons] at hps
    obtain ⟨-, type, -, -, others, hothers, -⟩ := parameters_cons_eq_ok.1 h
    refine ih hothers ?_ hps.2
    rw [Scope.withLocal, Table.put, Table.has, Table.get?_cons, if_neg hps.1.symm]
    exact hlocal

/-- Renamed parameters are resolved to renamed parameters. -/
theorem parameters_rename {ps : List Source.Param} {params : List Parameter} {inner : Scope}
    (h : parameters ps scope = .ok (params, inner)) :
    parameters (ps.map (Source.Param.rename ρ)) (scope.rename ρ) =
      .ok (params.map (Parameter.rename ρ), inner.rename ρ) := by
  induction ps generalizing scope params with
  | nil =>
    cases h
    rfl
  | cons p rest ih =>
    obtain ⟨hfresh, type, htype, hword, others, hothers, rfl⟩ := parameters_cons_eq_ok.1 h
    refine parameters_cons_eq_ok.2 ⟨?_, type, ?_, hword, _, ih hothers, rfl⟩
    · exact (has_rename scope p.name).trans hfresh
    · exact (resolveType_rename "" p.type).trans htype

/-! ## The bindings of a method -/

/-- A mention of a local: the current value that an assignment goes on from, or a bare name that no
constant has. -/
def IsLocal (constants : Table Expr) (m : Mention) : Prop :=
  m.role = .current ∨ m.role = .value ∧ constants.has m.name = false

/-- **What a mention reads**: the local it names, or what the constant of its name reads. -/
theorem mem_readsOf {constants : Table Expr} {m : Mention} {p : Position × String} :
    p ∈ readsOf constants m ↔ IsLocal constants m ∧ p = (m.pos, m.name) ∨
      m.role = .value ∧ ∃ v, constants.get? m.name = some v ∧ p ∈ v.reads := by
  obtain ⟨pos, name, role⟩ := m
  cases role with
  | head => simp [readsOf, IsLocal]
  | current => simp [readsOf, IsLocal]
  | value =>
    cases hget : constants.get? name <;> simp [readsOf, IsLocal, Table.has, hget]

theorem mem_stmtReads {body : List Stmt} {pos : Position} {name : String} :
    (pos, name) ∈ Stmt.reads body ↔ .var pos name ∈ Stmt.expressionsOf body := by
  rw [Stmt.reads, Stmt.leaves, List.mem_filterMap]
  constructor
  · rintro ⟨e, he, hread⟩
    cases e <;> cases hread
    exact (List.mem_filter.1 he).1
  · exact fun h => ⟨_, List.mem_filter.2 ⟨h, rfl⟩, rfl⟩

theorem mem_stmtWrites {body : List Stmt} {pos : Position} {name : String} :
    (pos, name) ∈ Stmt.writes body ↔ ∃ v, .setVariable pos name v ∈ Stmt.substatementsAll body := by
  rw [Stmt.writes, List.mem_filterMap]
  constructor
  · rintro ⟨t, ht, hwrite⟩
    cases t <;> cases hwrite
    exact ⟨_, ht⟩
  · rintro ⟨v, h⟩
    exact ⟨_, h, rfl⟩

/-- **A new name for a local of a method**: neither name is that of a constant, is read by one, or
belongs to a temporary that the body brings in, and nothing in the method has the new name yet. -/
structure NewName (scope : Scope) (ps : List Source.Param) (ss : List Statement) (lo hi : Nat)
    (x y : String) : Prop where
  oldPlain : scope.constants.has x = false
  newPlain : scope.constants.has y = false
  values : ∀ name v, scope.constants.get? name = some v → ∀ p ∈ v.reads, p.2 ≠ x ∧ p.2 ≠ y
  parameters : ∀ p ∈ ps, p.name ≠ y
  undeclared : y ∉ Source.declaredAll ss
  unmentioned : ∀ m ∈ Source.readingsAll ss, m.name ≠ y
  temporaries : ∀ k, lo ≤ k → k < hi → Temps.nameOf k ≠ x ∧ Temps.nameOf k ≠ y

/-- Two names that are no constants may be exchanged without a constant changing. -/
theorem NewName.constantsStay {ps : List Source.Param} {ss : List Statement} {lo hi : Nat}
    (h : NewName scope ps ss lo hi x y) : ConstantsStay (Equiv.swap x y) scope.constants where
  names name := by
    have hx : scope.constants.get? x = none := by simpa [Table.has] using h.oldPlain
    have hy : scope.constants.get? y = none := by simpa [Table.has] using h.newPlain
    rcases eq_or_ne name x with rfl | hnx
    · rw [Equiv.swap_apply_left, hx, hy]
    rcases eq_or_ne name y with rfl | hny
    · rw [Equiv.swap_apply_right, hx, hy]
    · rw [Equiv.swap_apply_of_ne_of_ne hnx hny]
  values name v hv := Expr.rename_eq_self fun p hp =>
    Equiv.swap_apply_of_ne_of_ne (h.values name v hv p hp).1 (h.values name v hv p hp).2

/-- **Reads and writes of a name go to one local, unless a constant has the name.** In a method or
constructor that is accepted, every mention of a local is a reading of the local of that name, and a
local is read nowhere else, up to the values of constants that are mentioned and the temporaries;
every assignment to a name sets the local of that name, and a local is set nowhere else, up to the
temporaries. So to give a local a new name in the source is to give it that name in the result. -/
theorem locals_bind_alike {ps : List Source.Param} {ss : List Statement} {next : Nat}
    {params : List Parameter} {inner : Scope} {r : Resolved}
    (hparams : parameters ps scope.withoutLocals = .ok (params, inner))
    (hbody : body returns ss inner next = .ok r) :
    (∀ m ∈ Source.readingsAll ss, IsLocal scope.constants m →
      .var m.pos m.name ∈ Stmt.expressionsOf r.body) ∧
    (∀ pos name, .var pos name ∈ Stmt.expressionsOf r.body →
      (∃ m ∈ Source.readingsAll ss, IsLocal scope.constants m ∧ m.pos = pos ∧ m.name = name) ∨
      (∃ m ∈ Source.readingsAll ss, m.role = .value ∧
        ∃ v, scope.constants.get? m.name = some v ∧ (pos, name) ∈ v.reads) ∨
      ∃ k, next ≤ k ∧ k < r.next ∧ name = Temps.nameOf k) ∧
    (∀ w ∈ Source.writingsAll ss, ∃ v, .setVariable w.1 w.2 v ∈ Stmt.substatementsAll r.body) ∧
    (∀ pos name v, .setVariable pos name v ∈ Stmt.substatementsAll r.body →
      (pos, name) ∈ Source.writingsAll ss ∨
        ∃ k, next ≤ k ∧ k < r.next ∧ name = Temps.nameOf k) ∧
    ∀ x y, NewName scope ps ss next r.next x y →
      parameters (ps.map (Source.Param.rename (Equiv.swap x y))) scope.withoutLocals =
          .ok (params.map (Parameter.rename (Equiv.swap x y)), inner.rename (Equiv.swap x y)) ∧
        body returns (Source.renameAll (Equiv.swap x y) ss) (inner.rename (Equiv.swap x y)) next =
          .ok (r.rename (Equiv.swap x y)) := by
  have hresolves := body_eq_ok.1 hbody
  have hconstants : inner.constants = scope.constants := by
    injection (parameters_withoutLocals hparams :)
  have hreads := hresolves.reads
  have hwrites := hresolves.writes
  rw [hconstants] at hreads
  -- Readings and writings are compared through the pairs of place and name that resolution keeps.
  refine ⟨fun m hm hlocal => ?_, fun pos name hvar => ?_, fun w hw => ?_, fun pos name v hset => ?_,
    fun x y hnew => ⟨parameters_rename (ρ := Equiv.swap x y) hparams, ?_⟩⟩
  · exact mem_stmtReads.1 (hreads.kept _
      (List.mem_flatMap.2 ⟨m, hm, mem_readsOf.2 (.inl ⟨hlocal, rfl⟩)⟩))
  · rcases hreads.known _ (mem_stmtReads.2 hvar) with hasked | ⟨k, h1, h2, hname⟩
    · obtain ⟨m, hm, hread⟩ := List.mem_flatMap.1 hasked
      rcases mem_readsOf.1 hread with ⟨hlocal, heq⟩ | hconstant
      · cases heq
        exact .inl ⟨m, hm, hlocal, rfl, rfl⟩
      · exact .inr (.inl ⟨m, hm, hconstant⟩)
    · exact .inr (.inr ⟨k, h1, h2, Option.some.inj hname⟩)
  · exact mem_stmtWrites.1 (hwrites.kept w hw)
  · exact (hwrites.known _ (mem_stmtWrites.2 ⟨v, hset⟩)).imp id
      fun ⟨k, h1, h2, hname⟩ => ⟨k, h1, h2, Option.some.inj hname⟩
  · -- A new name is bound nowhere in the body, so exchanging it with the old one commutes with
    -- resolution.
    have hok : Renamable x y inner ss next r.next :=
      { constants := by rw [hconstants]; exact hnew.constantsStay
        unbound := parameters_unbound hparams rfl hnew.parameters
        undeclared := hnew.undeclared
        unmentioned := hnew.unmentioned
        temporaries := fun k h1 h2 => Equiv.swap_apply_of_ne_of_ne (hnew.temporaries k h1 h2).1
          (hnew.temporaries k h1 h2).2 }
    exact body_eq_ok.2 (hresolves.rename hok (Nat.le_refl _))

/-! ## A method with a parameter that is read and set -/

/-- The parameters of `tally(x: number, late: boolean)`. -/
def tallyParams : List Source.Param :=
  [{ pos := { line := 1 }, name := "x", type := .mk { line := 1 } "number" [] 0 },
    { pos := { line := 2 }, name := "late", type := .mk { line := 2 } "boolean" [] 0 }]

/-- The expression `late ? x : 0`. -/
def tallyChoice : Expression :=
  .choice { line := 5 }
    (.mk { line := 6 }
      (.mk { line := 6 } [] (.mk { line := 6 } (.name { line := 6 } "late") [])) [])
    (Source.bareName { line := 7 } "x")
    (.chain { line := 8 } (.mk { line := 8 }
      (.mk { line := 8 } [] (.mk { line := 8 } (.number { line := 8 } "0") [])) []))

/-- The body `x += limit; return late ? x : 0;`, where `limit` is a constant. -/
def tallyBody : List Statement :=
  [.assign { line := 3 } (Source.bareName { line := 3 } "x") .increase
      (Source.bareName { line := 4 } "limit"),
    .returns { line := 5 } (some tallyChoice)]

/-- A scope with one constant. -/
def tallyScope : Scope :=
  { constants := [("limit", .literal {} .number "5")] }

/-- The scope of the body: the parameters are its locals. -/
def tallyInner : Scope :=
  { tallyScope with locals := [("late", .boolean), ("x", .number)] }

/-- What the body becomes: the conditional is taken out, and `cond_0` stands for it. -/
def tallyResolved : Resolved where
  body :=
    [.setVariable { line := 3 } "x"
        (.binary { line := 3 } .add (.var { line := 3 } "x") (.literal {} .number "5")),
      .declare { line := 5 } "cond_0" .number (some (.literal { line := 8 } .number "0")),
      .branch { line := 5 } (.var { line := 6 } "late")
        [.setVariable { line := 5 } "cond_0" (.var { line := 7 } "x")] [],
      .exit { line := 5 } (some (.var { line := 5 } "cond_0"))]
  scope := tallyInner
  next := 1

theorem tallyBody_resolves : Resolves .number tallyBody tallyInner 0 tallyResolved := by
  have hlate : Denotes tallyInner (Source.bareName { line := 6 } "late") _ :=
    denotes_bareName (.variable rfl rfl)
  have hchoice : Denotes tallyInner tallyChoice (.conditional { line := 5 }
      (.var { line := 6 } "late") (.var { line := 7 } "x")
      (.literal { line := 8 } .number "0")) := by
    cases hlate with
    | chain hlate =>
      exact .choice hlate (denotes_bareName (.variable rfl rfl))
        ((denotes_of_soleOperand rfl).2 (.number rfl))
  have hlimit : Denotes tallyInner (Source.bareName { line := 4 } "limit") _ :=
    denotes_bareName (.constant rfl)
  have hset : States tallyInner .number (.assign { line := 3 } (Source.bareName { line := 3 } "x")
      .increase (Source.bareName { line := 4 } "limit")) _ _ := .setVariable rfl rfl hlimit
  have hexit : States tallyInner .number (.returns { line := 5 } (some tallyChoice)) _ _ :=
    .exitWord rfl hchoice
  exact .plain hset (.plain hexit .nil)

/-- In a body that reads and sets a parameter, the parameter may have another name. -/
theorem locals_bind_alike_tally :
    parameters tallyParams tallyScope.withoutLocals =
      .ok ([⟨"x", .number⟩, ⟨"late", .boolean⟩], tallyInner) ∧
    body .number tallyBody tallyInner 0 = .ok tallyResolved ∧
    NewName tallyScope tallyParams tallyBody 0 1 "x" "amount" ∧
    body .number (Source.renameAll (Equiv.swap "x" "amount") tallyBody)
        (tallyInner.rename (Equiv.swap "x" "amount")) 0 =
      .ok (tallyResolved.rename (Equiv.swap "x" "amount")) := by
  have hparams : parameters tallyParams tallyScope.withoutLocals =
      .ok ([⟨"x", .number⟩, ⟨"late", .boolean⟩], tallyInner) := by rfl
  have hbody := body_eq_ok.2 tallyBody_resolves
  have hnew : NewName tallyScope tallyParams tallyBody 0 1 "x" "amount" := by
    refine ⟨by decide, by decide, ?_, by decide, by decide, by decide, ?_⟩
    · intro name v hv p hp
      rw [tallyScope, Table.get?_cons] at hv
      split at hv
      · cases hv
        cases hp
      · cases hv
    · intro k _ hk
      obtain rfl : k = 0 := by omega
      decide
  exact ⟨hparams, hbody, hnew, ((locals_bind_alike hparams hbody).2.2.2.2 _ _ hnew).2⟩

end Resolve

end Covenant
