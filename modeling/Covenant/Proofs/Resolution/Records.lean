import Covenant.Proofs.Resolution.Statements
import Mathlib.Data.List.Nodup

/-!
# Records from object literals

An object literal gives a record by its keys. They have to be the names of the declared fields, each
given once (`Completes`), and then the record holds the given values in the order of the
declaration. So the order in which the literal is written does not matter
(`record_fields_any_order`): two fields of one type are never swapped by writing them the other way
round.
-/

namespace Covenant

namespace Source

/-- **The expression that a field is given**: the one behind its key, or else the bare name of the
key. -/
def ObjectField.written : ObjectField → Expression
  | valued _ _ value => value
  | shorthand pos key => .chain pos (.mk pos (.mk pos [] (.mk pos (.name pos key) [])) [])

end Source

namespace Resolve

open Source (ObjectField)

variable {scope : Scope} {shape : Interface} {fields fields' : List ObjectField}
  {values : List Expr}

theorem expression_written (scope : Scope) (field : ObjectField) :
    expression scope field.written = fieldValue scope field := by
  cases field with
  | valued pos key value => rfl
  | shorthand pos key =>
    have hname : postfixed scope (.mk pos (.name pos key) []) = name scope pos key := by
      rw [postfixed]
      rfl
    rw [fieldValue, ObjectField.written, expression, chain, operand, hname, links]
    cases name scope pos key with
    | ok value => simp [bind, Except.bind, pure, Except.pure, operatorTree, climb]
    | error fault => rfl

theorem DenotesField.written {field : ObjectField} {value : Expr}
    (h : DenotesField scope field value) : Denotes scope field.written value :=
  denotes_of_expression ((expression_written scope field).trans (fieldValue_eq_ok.2 h))

/-! ## Keys -/

/-- **The keys of an object literal are the names of the declared fields**, each given once. -/
structure Completes (shape : Interface) (fields : List ObjectField) : Prop where
  distinct : (fields.map ObjectField.key).Nodup
  mem_iff : ∀ key, key ∈ fields.map ObjectField.key ↔ key ∈ shape.fieldNames

theorem Completes.keysFit (h : Completes shape fields) : KeysFit shape fields :=
  ⟨h.distinct, fun field hfield => (h.mem_iff field.key).1 (List.mem_map_of_mem hfield)⟩

theorem KeysFit.perm (h : KeysFit shape fields) (hperm : fields.Perm fields') :
    KeysFit shape fields' :=
  ⟨(hperm.map _).nodup_iff.1 h.distinct, fun field hfield => h.known field (hperm.mem_iff.2 hfield)⟩

/-- Every declared field of a record was given, so its keys are all the names. -/
theorem DenotesRecord.completes (h : DenotesRecord scope shape fields values) :
    Completes shape fields := by
  refine ⟨h.keys.distinct, fun key => ⟨fun hkey => ?_, fun hkey => ?_⟩⟩
  · obtain ⟨field, hfield, rfl⟩ := List.mem_map.1 hkey
    exact h.keys.known field hfield
  · obtain ⟨param, hparam, rfl⟩ := List.mem_map.1 hkey
    obtain ⟨value, -, field, hfield, hname, -⟩ := exists_of_mem_left h.each hparam
    exact hname ▸ List.mem_map_of_mem hfield

/-! ## Values -/

/-- **What a literal gives does not depend on the order of its fields.** -/
theorem DenotesRecord.perm (h : DenotesRecord scope shape fields values)
    (hperm : fields.Perm fields') : DenotesRecord scope shape fields' values where
  keys := h.keys.perm hperm
  each := h.each.imp fun _ _ ⟨field, hfield, hgiven⟩ => ⟨field, hperm.mem_iff.1 hfield, hgiven⟩

/-- A field that is given a value has no other one, since no other field has its key. -/
theorem DenotesRecord.value_of_mem (h : DenotesRecord scope shape fields values)
    {field : ObjectField} (hfield : field ∈ fields) : ∃ value, DenotesField scope field value := by
  obtain ⟨param, hparam, hname⟩ := List.mem_map.1 (h.keys.known field hfield)
  obtain ⟨value, -, given, hgiven, hkey, hvalue⟩ := exists_of_mem_left h.each hparam
  have heq : given = field :=
    List.inj_on_of_nodup_map h.keys.distinct hgiven hfield (hkey.trans hname)
  exact ⟨value, heq ▸ hvalue⟩

/-- A literal that gives every field a value that can be resolved gives a record. -/
theorem Completes.exists_record (h : Completes shape fields)
    (hvalues : ∀ field ∈ fields, ∃ value, DenotesField scope field value) :
    ∃ values, DenotesRecord scope shape fields values := by
  have heach : ∀ params : List Parameter, (∀ param ∈ params, param.name ∈ shape.fieldNames) →
      ∃ values, List.Forall₂ (fun (param : Parameter) value => ∃ field ∈ fields,
        field.key = param.name ∧ DenotesField scope field value) params values := by
    intro params hparams
    induction params with
    | nil => exact ⟨[], .nil⟩
    | cons param rest ih =>
      obtain ⟨values, hrest⟩ := ih fun other hother => hparams other (List.mem_cons_of_mem _ hother)
      obtain ⟨field, hfield, hkey⟩ :=
        List.mem_map.1 ((h.mem_iff param.name).2 (hparams param List.mem_cons_self))
      obtain ⟨value, hvalue⟩ := hvalues field hfield
      exact ⟨value :: values, .cons ⟨field, hfield, hkey, hvalue⟩ hrest⟩
  obtain ⟨values, hvalues⟩ := heach shape.fields fun param hparam => List.mem_map_of_mem hparam
  exact ⟨values, h.keysFit, hvalues⟩

/-- **The fields of an object literal may stand in any order.** Two literals with the same fields,
however ordered, give the same record or none. What a literal gives are the values of the declared
fields in their order, each resolved from what was written for its name. And it gives a record
exactly where its keys are the names of the declared fields, each given once, and what is written
for each can be resolved. -/
theorem record_fields_any_order (scope : Scope) (pos : Position) (shape : Interface)
    {fields fields' : List ObjectField} (hperm : fields.Perm fields') :
    (∀ values, recordFields scope pos shape fields = .ok values ↔
      recordFields scope pos shape fields' = .ok values) ∧
    (∀ values, recordFields scope pos shape fields = .ok values →
      List.Forall₂ (fun (param : Parameter) value => ∃ field ∈ fields, field.key = param.name ∧
        expression scope field.written = .ok value) shape.fields values) ∧
    ((∃ values, recordFields scope pos shape fields = .ok values) ↔
      Completes shape fields ∧
        ∀ field ∈ fields, ∃ value, expression scope field.written = .ok value) := by
  simp only [recordFields_eq_ok, expression_written, fieldValue_eq_ok]
  refine ⟨fun values => ⟨fun h => h.perm hperm, fun h => h.perm hperm.symm⟩,
    fun values h => h.each, ?_, ?_⟩
  · rintro ⟨values, h⟩
    exact ⟨h.completes, fun field hfield => h.value_of_mem hfield⟩
  · rintro ⟨hcompletes, hvalues⟩
    exact hcompletes.exists_record hvalues

/-- A transfer of an amount between two addresses. -/
def moved : Interface where
  name := "Moved"
  fields :=
    [{ name := "from", type := .address none }, { name := "to", type := .address none },
      { name := "amount", type := .number }]

/-- The literal `{ amount, to: from, from: to }`, which gives each address for the other. -/
def crossed : List ObjectField :=
  [.shorthand {} "amount", .valued {} "to" (ObjectField.shorthand {} "from").written,
    .valued {} "from" (ObjectField.shorthand {} "to").written]

theorem record_fields_any_order_crossed :
    crossed.Perm crossed.reverse ∧
      recordFields { locals := [("from", .address none), ("to", .address none),
        ("amount", .number)] } {} moved crossed.reverse
        = .ok [.var {} "to", .var {} "from", .var {} "amount"] := by
  have hperm : crossed.Perm crossed.reverse := crossed.reverse_perm.symm
  refine ⟨hperm, ((record_fields_any_order _ _ _ hperm).1 _).1 (recordFields_eq_ok.2 ⟨?_, ?_⟩)⟩
  · exact ⟨by decide, by decide⟩
  -- The addresses stand behind keys, one for the other, and the amount is given by its name alone.
  · exact .cons ⟨_, .tail _ (.tail _ (.head _)), rfl,
        .valued (DenotesField.shorthand (.variable rfl rfl)).written⟩
      (.cons ⟨_, .tail _ (.head _), rfl,
          .valued (DenotesField.shorthand (.variable rfl rfl)).written⟩
        (.cons ⟨_, .head _, rfl, .shorthand (.variable rfl rfl)⟩ .nil))

end Resolve

end Covenant
