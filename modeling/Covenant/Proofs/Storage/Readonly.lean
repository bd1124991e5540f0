import Covenant.Proofs.Code.Pieces
import Covenant.Proofs.Computations
import Covenant.Proofs.Storage.Slots

/-!
# The sources of readonly properties

A readonly property of one word is sound if its value has exactly one source and no method assigns
it. A contract has a layout only if all of them are sound (`readonlySound_of_plan`), and if all are
sound, the layout does not fail for one of them (`failsWith_plan`). The cell of a readonly property
tells its source: a literal is written into the code, any other value is set at construction
(`Placed`).
-/

namespace Covenant

/-! ## Reported failures -/

/-- **The failure is reported as one of the source of a readonly property.** -/
def Failure.IsImmutableSource : Failure → Prop
  | .fault f => f.diagnostic.code = .immutableSource
  | _ => False

/-- The invalid shapes that are about the source of a readonly property. -/
def Malformed.isImmutableSource : Malformed → Bool
  | lateReadonlyWrite _ | readonlyWrite _ _ | immutableSource _ _ => true
  | _ => false

namespace Failure

theorem isImmutableSource_malformed {pos : Position} {what : Malformed} :
    (malformed pos what).IsImmutableSource ↔ what.isImmutableSource = true := by
  cases what with
  | immutableSource property sources =>
    refine iff_of_true ?_ rfl
    show (Diagnostic.immutableSource _ _ _).code = _
    unfold Diagnostic.immutableSource
    split <;> rfl
  | _ =>
    simp only [malformed, IsImmutableSource, Fault.malformed, Fault.diagnostic,
      Malformed.diagnostic, Malformed.isImmutableSource, Diagnostic.structural, Diagnostic.failure,
      Diagnostic.note, Diagnostic.suggest, Diagnostic.withHelp, Diagnostic.missingField]
    decide

@[simp] theorem not_isImmutableSource_unsupported {pos : Position} {what : Unsupported} :
    ¬ (unsupported pos what).IsImmutableSource := by
  show ¬ (Diagnostic.unsupported _ _ _).code = _
  simp only [Diagnostic.unsupported, Diagnostic.failure, Diagnostic.about, Diagnostic.withHelp]
  decide

@[simp] theorem not_isImmutableSource_unresolved {pos : Position} {kind : NameKind} {name : String}
    {candidates : List String} : ¬ (unresolved pos kind name candidates).IsImmutableSource := by
  show ¬ (Diagnostic.unresolved _ _ _ _).code = _
  unfold Diagnostic.unresolved
  dsimp only
  split <;> simp only [Diagnostic.failure, Diagnostic.about, Diagnostic.suggest] <;> decide

@[simp] theorem not_isImmutableSource_unknownEvent {pos : Position} {name : String}
    {declared : List String} :
    ¬ (fault { pos, cause := .unknownEvent name declared }).IsImmutableSource := by
  show ¬ (Diagnostic.unknownEvent _ _ _).code = _
  unfold Diagnostic.unknownEvent
  dsimp only
  split <;>
    simp only [Diagnostic.failure, Diagnostic.about, Diagnostic.suggest, Diagnostic.withHelp] <;>
    decide

@[simp] theorem not_isImmutableSource_overlong {text : String} :
    ¬ (overlong text).IsImmutableSource :=
  id

@[simp] theorem not_isImmutableSource_incomplete : ¬ incomplete.IsImmutableSource :=
  id

end Failure

/-! ## Sound properties -/

/-- A readonly property of one word: neither an array nor a mapping. -/
def StateVar.isReadonlyWord (v : StateVar) : Bool :=
  match v.type with
  | .mapping _ _ | .array _ => false
  | _ => v.immutable

theorem StateVar.isReadonlyWord_eq {v : StateVar}
    (hmapping : ∀ keys value, v.type = .mapping keys value → False)
    (harray : ∀ item, v.type = .array item → False) : v.isReadonlyWord = v.immutable := by
  unfold isReadonlyWord
  split
  · exact (hmapping _ _ ‹_›).elim
  · exact (harray _ ‹_›).elim
  · rfl

namespace Storage

/-- **A property is sound**: its value has exactly one source, and no method assigns it. -/
structure SoundSource (c : Contract) (v : StateVar) : Prop where
  one : (sources c v).length = 1
  unassigned : ∀ m ∈ c.methods, assignments v.name m.body = []

instance (c : Contract) (v : StateVar) : Decidable (SoundSource c v) :=
  decidable_of_iff ((sources c v).length = 1 ∧
      ∀ m ∈ c.methods, (assignments v.name m.body).isEmpty = true)
    ⟨fun h => ⟨h.1, fun m hm => List.isEmpty_iff.1 (h.2 m hm)⟩,
      fun h => ⟨h.one, fun m hm => List.isEmpty_iff.2 (h.unassigned m hm)⟩⟩

/-- The one source of a readonly property is a literal. -/
def HasLiteral (c : Contract) (v : StateVar) : Prop :=
  v.isReadonlyWord = true ∧ ∃ pos type text, sources c v = [.literal pos type text]

/-- **All readonly properties of a contract are sound.** -/
def ReadonlySound (c : Contract) : Prop :=
  ∀ v ∈ c.stateVars, v.isReadonlyWord = true → SoundSource c v

instance (c : Contract) : Decidable (ReadonlySound c) :=
  List.decidableBAll _ _

/-- No method assigns a property that has no writer. -/
theorem firstWriter?_eq_none {c : Contract} {name : String} :
    firstWriter? c name = none ↔ ∀ m ∈ c.methods, assignments name m.body = [] := by
  simp [firstWriter?, List.findSome?_eq_none_iff]

/-- What is assigned to a property, at any depth of a body. -/
theorem mem_assignments {name : String} {body : List Stmt} {value : Expr} :
    value ∈ assignments name body ↔
      ∃ pos, .setProperty pos name value ∈ Stmt.substatementsAll body := by
  constructor
  · intro h
    obtain ⟨s, hs, h⟩ := List.mem_filterMap.1 h
    split at h
    · split at h
      · rename_i hname
        cases h
        exact ⟨_, hname ▸ hs⟩
      · cases h
    · cases h
  · rintro ⟨pos, h⟩
    exact List.mem_filterMap.2 ⟨_, h, if_pos rfl⟩

/-! ## Placing a property -/

/-- **The location of a property by its source.** A literal is written into the code, and any other
source is evaluated at construction. -/
inductive Placed (c : Contract) (v : StateVar) : Location → Prop
  | kept {location} (hv : v.isReadonlyWord = false) (h : ¬ location.IsImmutable) :
      Placed c v location
  | inlined {pos type text word} (hv : v.isReadonlyWord = true) (hsound : SoundSource c v)
      (hsource : sources c v = [.literal pos type text])
      (hword : Emit.literalWord pos type text = .ok word) :
      Placed c v (.inlined (.literal pos type text) word)
  | staged {source index} (hv : v.isReadonlyWord = true) (hsound : SoundSource c v)
      (hsource : sources c v = [source])
      (hother : ∀ pos type text, source ≠ .literal pos type text) :
      Placed c v (.staged source index)

namespace Placed

variable {c : Contract} {v : StateVar} {location : Location}

/-- **A readonly word that was placed has a sound source.** -/
theorem sound (h : Placed c v location) (hv : v.isReadonlyWord = true) : SoundSource c v := by
  cases h with
  | kept hkept => exact absurd hv (by simp [hkept])
  | inlined _ hsound => exact hsound
  | staged _ hsound => exact hsound

theorem isReadonlyWord (h : Placed c v location) (himmutable : location.IsImmutable) :
    v.isReadonlyWord = true := by
  cases h with
  | kept _ hkept => exact absurd himmutable hkept
  | inlined hv => exact hv
  | staged hv => exact hv

/-- Exactly the properties whose source is a literal are written into the code. -/
theorem isInlined_iff (h : Placed c v location) : location.isInlined = true ↔ HasLiteral c v := by
  cases h with
  | kept hv hkept =>
    refine iff_of_false (fun hinlined => ?_) fun hliteral => ?_
    · cases location <;> first | exact hkept trivial | cases hinlined
    · exact absurd hliteral.1 (by simp [hv])
  | inlined hv _ hsource => exact iff_of_true rfl ⟨hv, _, _, _, hsource⟩
  | staged hv _ hsource hother =>
    refine iff_of_false Bool.false_ne_true fun hliteral => ?_
    obtain ⟨-, pos, type, text, hliteral⟩ := hliteral
    exact hother pos type text (List.cons.inj (hsource.symm.trans hliteral)).1

end Placed

section Place

variable {c : Contract} {cells : List Cell} {v : StateVar}

/-- A readonly property has a location only if it is sound. -/
theorem placed_of_placeImmutable {location : Location} (hv : v.isReadonlyWord = true)
    (h : placeImmutable c cells v = .ok location) : Placed c v location := by
  unfold placeImmutable at h
  split at h
  · split at h <;> cases h
  · rename_i hwriter hsources
    obtain ⟨word, hword, h⟩ := bind_eq_ok.1 h
    cases pure_eq_ok.1 h
    have hsound : SoundSource c v := ⟨by rw [hsources]; rfl, firstWriter?_eq_none.1 hwriter⟩
    exact .inlined hv hsound hsources hword
  · rename_i source hother hwriter hsources
    cases h
    have hsound : SoundSource c v := ⟨by rw [hsources]; rfl, firstWriter?_eq_none.1 hwriter⟩
    exact .staged hv hsound hsources hother
  · cases h

/-- What is found for a variable fits its type and its sources. -/
theorem placed_of_place {cursor next : Word} {location : Location}
    (h : place c cells cursor v = .ok (location, next)) : Placed c v location := by
  unfold place at h
  split at h
  · rename_i htype
    cases h
    exact .kept (by simp [StateVar.isReadonlyWord, htype]) id
  · rename_i htype
    obtain ⟨-, -, h⟩ := bind_eq_ok.1 h
    obtain ⟨-, -, h⟩ := bind_eq_ok.1 h
    cases h
    exact .kept (by simp [StateVar.isReadonlyWord, htype]) id
  · rename_i hmapping harray
    have hword := StateVar.isReadonlyWord_eq hmapping harray
    split at h
    · rename_i himmutable
      obtain ⟨found, hfound, h⟩ := bind_eq_ok.1 h
      cases h
      exact placed_of_placeImmutable (hword.trans himmutable) hfound
    · rename_i himmutable
      obtain ⟨-, -, h⟩ := bind_eq_ok.1 h
      cases h
      exact .kept (hword.trans (Bool.eq_false_iff.2 himmutable)) id

/-- So it does for all variables, by induction on them. -/
theorem placed_of_placeAll {cursor : Word} {rest : List StateVar} {layout : Layout}
    (hcells : ∀ cell ∈ cells, Placed c cell.owner cell.location)
    (h : placeAll c cells cursor rest = .ok layout) :
    ∀ cell ∈ layout.cells, Placed c cell.owner cell.location := by
  induction rest generalizing cells cursor with
  | nil =>
    cases h
    exact hcells
  | cons v rest ih =>
    rw [placeAll] at h
    obtain ⟨⟨location, next⟩, hplace, h⟩ := bind_eq_ok.1 h
    refine ih (List.forall_mem_append.2 ⟨hcells, ?_⟩) h
    exact List.forall_mem_singleton.2 (placed_of_place hplace)

end Place

section Plan

variable {c : Contract} {layout : Layout}

theorem placed_of_plan (h : plan c = .ok layout) :
    ∀ cell ∈ layout.cells, Placed c cell.owner cell.location :=
  placed_of_placeAll (fun _ h => absurd h List.not_mem_nil) h

/-- **A contract with a layout is sound.** -/
theorem readonlySound_of_plan (h : plan c = .ok layout) : ReadonlySound c := by
  intro v hv hword
  rw [← plan_owners h] at hv
  obtain ⟨cell, hcell, rfl⟩ := List.mem_map.1 hv
  exact (placed_of_plan h cell hcell).sound hword

/-- The property that a name means: among several the last one. -/
def lastVar? (c : Contract) (name : String) : Option StateVar :=
  c.stateVars.reverse.find? (·.name = name)

/-- A name means the property in the cell that is found under it. -/
theorem lastVar?_eq (h : plan c = .ok layout) (name : String) :
    lastVar? c name =
      (layout.cells.reverse.find? (·.name = name)).map Cell.owner := by
  rw [lastVar?, ← plan_owners h, ← List.map_reverse, List.find?_map]
  rfl

/-- The location under a name is that of the last variable of this name. -/
theorem placed_of_location? (h : plan c = .ok layout) {name : String} {location : Location}
    (hlocation : layout.location? name = some location) :
    ∃ v, lastVar? c name = some v ∧ v.name = name ∧ v ∈ c.stateVars ∧ Placed c v location := by
  obtain ⟨cell, hcell, rfl⟩ := Option.map_eq_some_iff.1 hlocation
  have hmem := List.mem_reverse.1 (List.mem_of_find?_eq_some hcell)
  have hname : cell.name = name := by simpa using List.find?_some hcell
  refine ⟨cell.owner, by rw [lastVar?_eq h, hcell, Option.map_some], hname, ?_,
    placed_of_plan h cell hmem⟩
  rw [← plan_owners h]
  exact List.mem_map_of_mem hmem

/-- The property that a name means has a location. -/
theorem exists_location? (h : plan c = .ok layout) {v : StateVar}
    (hv : lastVar? c v.name = some v) :
    ∃ location, layout.location? v.name = some location ∧ Placed c v location := by
  rw [lastVar?_eq h] at hv
  obtain ⟨cell, hcell, hv⟩ := Option.map_eq_some_iff.1 hv
  have hmem := List.mem_reverse.1 (List.mem_of_find?_eq_some hcell)
  exact ⟨cell.location, by rw [Layout.location?, hcell, Option.map_some],
    hv ▸ placed_of_plan h cell hmem⟩

end Plan

/-! ## Failures of a layout -/

/-- **A computation does not fail for the source of a readonly property.** -/
abbrev Blameless {α : Type} (x : Except Failure α) : Prop :=
  FailsWith (fun e => ¬ e.IsImmutableSource) x

theorem blameless_malformed {α : Type} {pos : Position} {what : Malformed}
    (h : what.isImmutableSource = false) :
    Blameless (.error (.malformed pos what) : Except Failure α) :=
  failsWith_error.2 (by simp [Failure.isImmutableSource_malformed, h])

theorem blameless_unsupported {α : Type} {pos : Position} {what : Unsupported} :
    Blameless (throw (.unsupported pos what) : Except Failure α) :=
  failsWith_throw.2 Failure.not_isImmutableSource_unsupported

theorem blameless_literalWord {pos : Position} {type : Ty} {text : String} :
    Blameless (Emit.literalWord pos type text) := by
  have htext : Blameless (Emit.textWord text) := by
    unfold Emit.textWord
    split_ifs <;> simp
  unfold Emit.literalWord
  split
  · simp
  · simp
  · split_ifs
    · simp
    · exact blameless_malformed rfl
  · split_ifs
    · simp
    · exact htext
  · exact htext

section

variable {c : Contract} {cells : List Cell} {v : StateVar}

/-- With a sound source no place is refused for it. -/
theorem blameless_placeImmutable (h : SoundSource c v) :
    Blameless (placeImmutable c cells v) := by
  have hwriter : firstWriter? c v.name = none := firstWriter?_eq_none.2 h.unassigned
  obtain ⟨source, hsource⟩ := List.length_eq_one_iff.1 h.one
  unfold placeImmutable
  rw [hwriter, hsource]
  cases source with
  | literal pos type text => exact blameless_literalWord.bind fun _ _ => failsWith_pure
  | _ => exact failsWith_ok

theorem blameless_claim {slot : Word} : Blameless (claim cells v slot) := by
  unfold claim
  split
  · exact blameless_malformed rfl
  · exact failsWith_ok

/-- A variable with a sound source is refused for other reasons only. -/
theorem blameless_place {cursor : Word} (h : v.isReadonlyWord = true → SoundSource c v) :
    Blameless (place c cells cursor v) := by
  unfold place
  split
  · exact failsWith_ok
  · exact blameless_claim.bind fun _ _ => blameless_claim.bind fun _ _ => failsWith_pure
  · rename_i hmapping harray
    split
    · rename_i himmutable
      have hword := StateVar.isReadonlyWord_eq hmapping harray
      exact (blameless_placeImmutable (h (hword.trans himmutable))).bind fun _ _ => failsWith_pure
    · exact blameless_claim.bind fun _ _ => failsWith_pure

/-- **The layout of a sound contract does not fail for a readonly property.** -/
theorem blameless_plan (h : ReadonlySound c) : Blameless (plan c) := by
  have hall (vars : List StateVar) : ∀ cells cursor,
      (∀ v ∈ vars, v.isReadonlyWord = true → SoundSource c v) →
        Blameless (placeAll c cells cursor vars) := by
    induction vars with
    | nil => exact fun _ _ _ => failsWith_ok
    | cons v rest ih =>
      intro cells cursor hvars
      rw [List.forall_mem_cons] at hvars
      rw [placeAll]
      exact (blameless_place hvars.1).bind fun _ _ => ih _ _ hvars.2
  exact hall c.stateVars [] 0 h

end

end Storage

end Covenant
