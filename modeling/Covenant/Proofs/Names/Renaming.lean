import Covenant.Proofs.Execution.Locals
import Covenant.Proofs.Names.Accesses
import Covenant.Resolve.Classes
import Mathlib.Logic.Equiv.Basic

/-!
# Renaming locals

A permutation of names renames the locals of a source text, where they are declared, assigned to or
stand for a value, and the locals of a resolved one. Names in front of further steps and the keys of
object literals stay; the shorthand `key` is written out as `key: name` where its local gets another
name. Resolving a renamed text gives the renamed result, rule by rule (`Denotes.rename`,
`States.rename`) and so for whole bodies (`Resolves.rename`), as long as constants, temporaries and
the names in front of further steps stay out of the way.
-/

namespace Covenant

/-! ## Sources -/

namespace Source

/-- The expression that is a bare name. -/
def bareName (pos : Position) (name : String) : Expression :=
  .chain pos (.mk pos (.mk pos [] (.mk pos (.name pos name) [])) [])

mutual
/-- **An expression with its locals renamed.** -/
def Expression.rename (ρ : Equiv.Perm String) : Expression → Expression
  | .chain pos value => .chain pos (value.rename ρ)
  | .choice pos condition yes no =>
    .choice pos (condition.rename ρ) (yes.rename ρ) (no.rename ρ)

/-- A chain with its locals renamed. -/
def Chain.rename (ρ : Equiv.Perm String) : Chain → Chain
  | .mk pos first links => .mk pos (first.rename ρ) (renameLinks ρ links)

/-- Links with their locals renamed. -/
def renameLinks (ρ : Equiv.Perm String) : List Link → List Link
  | [] => []
  | .mk pos operator operand :: rest =>
    .mk pos operator (operand.rename ρ) :: renameLinks ρ rest

/-- A value behind signs with its locals renamed. -/
def Operand.rename (ρ : Equiv.Perm String) : Operand → Operand
  | .mk pos signs value => .mk pos signs (value.rename ρ)

/-- A primary and its steps with their locals renamed: a name in front of steps is no local. -/
def Postfix.rename (ρ : Equiv.Perm String) : Postfix → Postfix
  | .mk pos (.name p name) [] => .mk pos (.name p (ρ name)) []
  | .mk pos primary suffixes => .mk pos (primary.rename ρ) (renameSuffixes ρ suffixes)

/-- A primary with the locals within it renamed. -/
def Primary.rename (ρ : Equiv.Perm String) : Primary → Primary
  | .creation pos className (.mk p values) => .creation pos className (.mk p (renameEach ρ values))
  | .object pos fields => .object pos (renameFields ρ fields)
  | .parens pos inner => .parens pos (inner.rename ρ)
  | primary => primary

/-- Steps with the locals of their indices and arguments renamed. -/
def renameSuffixes (ρ : Equiv.Perm String) : List Suffix → List Suffix
  | [] => []
  | .member pos name :: rest => .member pos name :: renameSuffixes ρ rest
  | .index pos value :: rest => .index pos (value.rename ρ) :: renameSuffixes ρ rest
  | .call pos (.mk p values) :: rest =>
    .call pos (.mk p (renameEach ρ values)) :: renameSuffixes ρ rest

/-- Expressions with their locals renamed. -/
def renameEach (ρ : Equiv.Perm String) : List Expression → List Expression
  | [] => []
  | e :: es => e.rename ρ :: renameEach ρ es

/-- Fields with the locals of their values renamed; the keys stay. -/
def renameFields (ρ : Equiv.Perm String) : List ObjectField → List ObjectField
  | [] => []
  | .valued pos key value :: rest => .valued pos key (value.rename ρ) :: renameFields ρ rest
  | .shorthand pos key :: rest =>
    (if ρ key = key then .shorthand pos key else .valued pos key (bareName pos (ρ key))) ::
      renameFields ρ rest
end

mutual
/-- **A statement with its locals renamed**, where they are declared, set and read. -/
def Statement.rename (ρ : Equiv.Perm String) : Statement → Statement
  | .block pos statements => .block pos (renameAll ρ statements)
  | .declaration pos kind name type value =>
    .declaration pos kind (ρ name) type (value.map (Expression.rename ρ))
  | .ifThen pos condition yes => .ifThen pos (condition.rename ρ) (yes.rename ρ)
  | .ifElse pos condition yes no =>
    .ifElse pos (condition.rename ρ) (yes.rename ρ) (no.rename ρ)
  | .returns pos value => .returns pos (value.map (Expression.rename ρ))
  | .throw pos value => .throw pos (value.rename ρ)
  | .evaluate pos value => .evaluate pos (value.rename ρ)
  | .assign pos target assignment value =>
    .assign pos (target.rename ρ) assignment (value.rename ρ)
  | .empty pos => .empty pos

/-- A body with its locals renamed. -/
def renameAll (ρ : Equiv.Perm String) : List Statement → List Statement
  | [] => []
  | s :: ss => s.rename ρ :: renameAll ρ ss
end

/-- A parameter with its name renamed. -/
def Param.rename (ρ : Equiv.Perm String) (p : Param) : Param :=
  { p with name := ρ p.name }

mutual
/-- The locals that a statement declares, also those in its branches. -/
def Statement.declared : Statement → List String
  | .block _ statements => declaredAll statements
  | .declaration _ _ name _ _ => [name]
  | .ifThen _ _ yes => yes.declared
  | .ifElse _ _ yes no => yes.declared ++ no.declared
  | _ => []

/-- The locals that a body declares. -/
def declaredAll : List Statement → List String
  | [] => []
  | s :: ss => s.declared ++ declaredAll ss
end

end Source

/-! ## Contracts -/

mutual
/-- **An expression of a contract with its locals renamed.** -/
def Expr.rename (ρ : Equiv.Perm String) : Expr → Expr
  | .var pos name => .var pos (ρ name)
  | .entry pos property indices => .entry pos property (Expr.renameEach ρ indices)
  | .binary pos op left right => .binary pos op (left.rename ρ) (right.rename ρ)
  | .not pos value => .not pos (value.rename ρ)
  | .external pos contract address => .external pos contract (address.rename ρ)
  | .deploy pos contract args => .deploy pos contract (Expr.renameEach ρ args)
  | .call pos target receiver args =>
    .call pos target (receiver.rename ρ) (Expr.renameEach ρ args)
  | .conditional pos condition yes no =>
    .conditional pos (condition.rename ρ) (yes.rename ρ) (no.rename ρ)
  | .record pos shape fields => .record pos shape (Expr.renameEach ρ fields)
  | .hash pos inputs => .hash pos (Expr.renameEach ρ inputs)
  | e => e

/-- Expressions of a contract with their locals renamed. -/
def Expr.renameEach (ρ : Equiv.Perm String) : List Expr → List Expr
  | [] => []
  | e :: es => e.rename ρ :: Expr.renameEach ρ es
end

mutual
/-- **A statement of a contract with its locals renamed.** -/
def Stmt.rename (ρ : Equiv.Perm String) : Stmt → Stmt
  | .setProperty pos property value => .setProperty pos property (value.rename ρ)
  | .declare pos name type value => .declare pos (ρ name) type (value.map (Expr.rename ρ))
  | .setVariable pos name value => .setVariable pos (ρ name) (value.rename ρ)
  | .setEntry pos property indices value =>
    .setEntry pos property (indices.map (Expr.rename ρ)) (value.rename ρ)
  | .exit pos value => .exit pos (value.map (Expr.rename ρ))
  | .branch pos condition yes no =>
    .branch pos (condition.rename ρ) (Stmt.renameAll ρ yes) (Stmt.renameAll ρ no)
  | .throw pos message => .throw pos (message.rename ρ)
  | .emit pos event args => .emit pos event (args.map (Expr.rename ρ))
  | .evaluate pos value => .evaluate pos (value.rename ρ)
  | .skip pos => .skip pos

/-- A body of a contract with its locals renamed. -/
def Stmt.renameAll (ρ : Equiv.Perm String) : List Stmt → List Stmt
  | [] => []
  | s :: ss => s.rename ρ :: Stmt.renameAll ρ ss
end

/-- A parameter of a contract with its name renamed. -/
def Parameter.rename (ρ : Equiv.Perm String) (p : Parameter) : Parameter :=
  { p with name := ρ p.name }

/-- A scope with its locals renamed. -/
def Scope.rename (ρ : Equiv.Perm String) (scope : Scope) : Scope :=
  { scope with locals := scope.locals.map fun entry => (ρ entry.1, entry.2) }

/-- What a body becomes, with its locals renamed. -/
def Resolve.Resolved.rename (ρ : Equiv.Perm String) (r : Resolved) : Resolved :=
  { body := Stmt.renameAll ρ r.body, scope := r.scope.rename ρ, next := r.next }

variable {ρ : Equiv.Perm String}

namespace Expr

theorem renameEach_eq_map (es : List Expr) : renameEach ρ es = es.map (rename ρ) := by
  induction es with
  | nil => rfl
  | cons e es ih => rw [renameEach, ih, List.map_cons]

/-- Only a reading of a local changes itself, anything else in its parts. -/
theorem rename_eq {e : Expr} (h : e.local? = none) :
    e.rename ρ = e.withParts (e.parts.map (rename ρ)) := by
  cases e with
  | var => cases h
  | _ => simp [rename, withParts, parts, renameEach_eq_map]

theorem local?_withParts (e : Expr) (es : List Expr) : (e.withParts es).local? = e.local? := by
  unfold withParts
  split <;> rfl

theorem isConditional_rename (e : Expr) : (e.rename ρ).isConditional = e.isConditional := by
  cases e <;> rfl

/-- The parts of an expression are renamed one by one. -/
theorem parts_rename (e : Expr) : (e.rename ρ).parts = e.parts.map (rename ρ) := by
  cases e <;> simp [rename, parts, renameEach_eq_map]

/-- Parts may be replaced before or after the renaming. -/
theorem rename_withParts {e : Expr} {es : List Expr} (h : e.local? = none)
    (hlength : es.length = e.parts.length) :
    (e.withParts es).rename ρ = (e.rename ρ).withParts (es.map (rename ρ)) := by
  rw [rename_eq (by rw [local?_withParts, h]), parts_withParts hlength, rename_eq h]
  match e, es, hlength with
  | entry _ _ _, _, _ => rfl
  | binary _ _ _ _, [_, _], _ => rfl
  | not _ _, [_], _ => rfl
  | external _ _ _, [_], _ => rfl
  | deploy _ _ _, _, _ => rfl
  | call _ _ _ _, _ :: _, _ => rfl
  | conditional _ _ _ _, [_, _, _], _ => rfl
  | record _ _ _, _, _ => rfl
  | hash _ _, _, _ => rfl
  | literal _ _ _, [], _ => rfl
  | storage _ _, [], _ => rfl
  | this _, [], _ => rfl
  | environment _ _ _, [], _ => rfl
  | length _ _, [], _ => rfl
  | missing, [], _ => rfl

/-- An expression whose locals keep their names stays as it is. -/
theorem rename_eq_self {e : Expr} (h : ∀ p ∈ e.reads, ρ p.2 = p.2) : e.rename ρ = e := by
  induction e using Expr.induction with
  | h e ih =>
    cases hlocal : e.local? with
    | none =>
      have hread : e.read? = none := by
        cases e with
        | var => cases hlocal
        | _ => rfl
      rw [reads_eq hread] at h
      have hparts : e.parts.map (rename ρ) = e.parts := by
        refine (List.map_congr_left fun part hpart => ih part hpart fun p hp => ?_).trans
          (List.map_id _)
        exact h p (List.mem_flatMap.2 ⟨part, hpart, hp⟩)
      rw [rename_eq hlocal, hparts, withParts_parts]
    | some x =>
      cases e with
      | var pos x => rw [rename, h (pos, x) (List.mem_singleton.2 rfl)]
      | _ => cases hlocal

end Expr

namespace Stmt

@[simp] theorem renameAll_append (first second : List Stmt) :
    renameAll ρ (first ++ second) = renameAll ρ first ++ renameAll ρ second := by
  induction first with
  | nil => rfl
  | cons s first ih => rw [List.cons_append, renameAll, ih, renameAll, List.cons_append]

/-- The operands of a statement are renamed one by one. -/
theorem operands_rename (s : Stmt) : (s.rename ρ).operands = s.operands.map (Expr.rename ρ) := by
  match s with
  | declare _ _ _ none | declare _ _ _ (some _) | exit _ none | exit _ (some _) => rfl
  | setProperty _ _ _ | setVariable _ _ _ | branch _ _ _ _ | throw _ _ | emit _ _ _ => rfl
  | evaluate _ _ | skip _ => rfl
  | setEntry _ _ indices value => simp [rename, operands]

theorem rename_withOperands {s : Stmt} {es : List Expr} (h : es.length = s.operands.length) :
    (s.withOperands es).rename ρ = (s.rename ρ).withOperands (es.map (Expr.rename ρ)) := by
  match s, es, h with
  | setProperty _ _ _, [_], _ => rfl
  | declare _ _ _ none, [], _ => rfl
  | declare _ _ _ (some _), [_], _ => rfl
  | setVariable _ _ _, [_], _ => rfl
  | setEntry _ _ indices value, es, h =>
    simp only [operands, List.length_append, List.length_singleton] at h
    obtain ⟨last, hlast⟩ : ∃ last, es.drop indices.length = [last] :=
      List.length_eq_one_iff.1 (by rw [List.length_drop]; omega)
    simp [withOperands, rename, hlast, ← List.map_take, ← List.map_drop]
  | exit _ none, [], _ => rfl
  | exit _ (some _), [_], _ => rfl
  | branch _ _ _ _, [_], _ => rfl
  | throw _ _, [_], _ => rfl
  | emit _ _ _, _, _ => rfl
  | evaluate _ _, [_], _ => rfl
  | skip _, [], _ => rfl

end Stmt

namespace Resolve

variable {scope : Scope}

/-! ## Scopes and types -/

/-- A local is found under its new name. -/
theorem get?_rename (scope : Scope) (x : String) :
    (scope.rename ρ).locals.get? (ρ x) = scope.locals.get? x := by
  rw [Scope.rename]
  induction scope.locals with
  | nil => rfl
  | cons entry rest ih =>
    obtain ⟨name, type⟩ := entry
    simp [Table.get?_cons, ih]

theorem has_rename (scope : Scope) (x : String) :
    (scope.rename ρ).locals.has (ρ x) = scope.locals.has x := by
  rw [Table.has, get?_rename, Table.has]

theorem rename_withLocal (scope : Scope) (x : String) (type : Ty) :
    (scope.withLocal x type).rename ρ = (scope.rename ρ).withLocal (ρ x) type :=
  rfl

/-- Renaming keeps the type of an expression. -/
theorem typeOf_rename (scope : Scope) (e : Expr) :
    typeOf (scope.rename ρ) (e.rename ρ) = typeOf scope e := by
  induction e using Expr.induction with
  | h e ih =>
    cases e with
    | var pos x => rw [Expr.rename, typeOf, typeOf, get?_rename]
    | conditional pos condition yes no => exact ih yes (by simp [Expr.parts])
    | _ => rfl

mutual
theorem resolveType_rename (literal : String) : ∀ written : Source.TypeRef,
    resolveType (scope.rename ρ) literal written = resolveType scope literal written
  | .mk _ _ _ _ => by
    rw [resolveType, resolveType, resolveEach_rename]
    rfl

theorem resolveEach_rename : ∀ written : List Source.TypeRef,
    resolveEach (scope.rename ρ) written = resolveEach scope written
  | [] => rfl
  | _ :: _ => by rw [resolveEach, resolveEach, resolveType_rename, resolveEach_rename]
end

/-! ## Conditionals -/

/-- Temporaries keep their names, both those at hand and those to be handed out up to a number. -/
structure TempsStay (ρ : Equiv.Perm String) (hi : Nat) (t : Temps) : Prop where
  types : ∀ x, t.types.get? (ρ x) = t.types.get? x
  names : ∀ k, t.next ≤ k → k < hi → ρ (Temps.nameOf k) = Temps.nameOf k

theorem TempsStay.typeOf {hi : Nat} {t : Temps} (h : TempsStay ρ hi t) (e : Expr) :
    t.typeOf (scope.rename ρ) (e.rename ρ) = t.typeOf scope e := by
  cases e with
  | var pos x =>
    have htype := typeOf_rename (ρ := ρ) scope (.var pos x)
    rw [Expr.rename] at htype ⊢
    rw [Temps.typeOf, Temps.typeOf, h.types, htype]
  | _ => exact typeOf_rename scope _

/-- The type of a temporary is the same after renaming. -/
theorem TempsStay.branchType {hi : Nat} {t : Temps} (h : TempsStay ρ hi t) (yes no : Expr) :
    t.branchType (scope.rename ρ) (yes.rename ρ) (no.rename ρ) = t.branchType scope yes no := by
  rw [Temps.branchType, Temps.branchType, h.typeOf, h.typeOf]

/-- A temporary that is handed out below the bound keeps its name. -/
theorem TempsStay.take {hi : Nat} {t : Temps} (h : TempsStay ρ hi t) (hlt : t.next < hi)
    (type : Ty) : TempsStay ρ hi (t.take type) where
  types x := by
    have hname := h.names t.next (Nat.le_refl _) hlt
    have hiff : ρ x = Temps.nameOf t.next ↔ x = Temps.nameOf t.next := by
      conv_lhs => rw [← hname, EmbeddingLike.apply_eq_iff_eq]
    simp only [Temps.take, Table.put, Table.get?_cons, h.types, hiff]
  names k hk := h.names k (by simp only [Temps.take] at hk; omega)

/-- The statements and what is left of an expression are renamed; the temporaries are the same. -/
structure HoistsAlike (ρ : Equiv.Perm String) (scope : Scope) (hi : Nat) (e : Expr) (t : Temps) :
    Prop where
  eq : hoist (scope.rename ρ) (e.rename ρ) t = (Stmt.renameAll ρ (hoist scope e t).1,
    (hoist scope e t).2.1.rename ρ, (hoist scope e t).2.2)
  stay : TempsStay ρ hi (hoist scope e t).2.2

theorem hoistEach_rename_of {hi : Nat} {es : List Expr}
    (h : ∀ e ∈ es, ∀ t, TempsStay ρ hi t → (hoist scope e t).2.2.next ≤ hi →
      HoistsAlike ρ scope hi e t) {t : Temps} (ht : TempsStay ρ hi t)
    (hle : (hoistEach scope es t).2.2.next ≤ hi) :
    hoistEach (scope.rename ρ) (es.map (Expr.rename ρ)) t =
        (Stmt.renameAll ρ (hoistEach scope es t).1,
          (hoistEach scope es t).2.1.map (Expr.rename ρ), (hoistEach scope es t).2.2) ∧
      TempsStay ρ hi (hoistEach scope es t).2.2 := by
  induction es generalizing t with
  | nil => exact ⟨rfl, ht⟩
  | cons e es ih =>
    rw [List.forall_mem_cons] at h
    rw [hoistEach] at hle ⊢
    have hrest := hoistEach_carries scope es (hoist scope e t).2.2
    have hfirst := h.1 t ht (Nat.le_trans hrest.le hle)
    obtain ⟨heq, hstay⟩ := ih h.2 hfirst.stay hle
    refine ⟨?_, hstay⟩
    rw [List.map_cons, hoistEach, hfirst.eq]
    simp only [heq, Stmt.renameAll_append, List.map_cons]

/-- **Taking the conditionals out goes with renaming**, as long as temporaries keep their names. -/
theorem hoist_rename {hi : Nat} (e : Expr) {t : Temps} (ht : TempsStay ρ hi t)
    (hle : (hoist scope e t).2.2.next ≤ hi) : HoistsAlike ρ scope hi e t := by
  induction e using Expr.induction_conditional generalizing t with
  | plain e hconditional ih =>
    cases hlocal : e.local? with
    | some x =>
      cases e with
      | var pos x => exact ⟨rfl, ht⟩
      | _ => cases hlocal
    | none =>
      rw [hoist_eq hconditional] at hle
      obtain ⟨heq, hstay⟩ := hoistEach_rename_of (fun part hpart t => ih part hpart) ht hle
      constructor
      · rw [hoist_eq (by rw [Expr.isConditional_rename, hconditional]), Expr.parts_rename, heq,
          hoist_eq hconditional, Expr.rename_withParts hlocal (length_hoistEach _ _ _)]
      · rw [hoist_eq hconditional]
        exact hstay
  | conditional pos condition yes no ihCondition ihYes ihNo =>
    -- each of the three ends no later than the temporary that is taken for the choice
    have hleYes := (hoist_carries scope yes (hoist scope condition t).2.2).le
    have hleNo := (hoist_carries scope no
      (hoist scope yes (hoist scope condition t).2.2).2.2).le
    have hlt : (hoist scope no (hoist scope yes (hoist scope condition t).2.2).2.2).2.2.next <
      hi := hle
    have hcondition := ihCondition ht (by omega)
    have hyes := ihYes hcondition.stay (by omega)
    have hno := ihNo hyes.stay (by omega)
    have hname := hno.stay.names _ (Nat.le_refl _) hle
    constructor
    · simp only [Expr.rename, hoist, hcondition.eq, hyes.eq, hno.eq, hno.stay.branchType,
        Stmt.renameAll_append, Stmt.renameAll, Stmt.rename, Option.map_some, hname]
    · exact hno.stay.take hle _

/-- **A statement whose branches are free of conditionals is normalized alike under new names.** -/
theorem normalize_rename {hi next : Nat} {s : Stmt} (hinner : Stmt.hasConditional s.inner = false)
    (hinner' : Stmt.hasConditional (s.rename ρ).inner = false)
    (hnames : ∀ k, next ≤ k → k < hi → ρ (Temps.nameOf k) = Temps.nameOf k)
    (hle : (normalize scope next s).2 ≤ hi) :
    (normalize (scope.rename ρ) next (s.rename ρ)).1 = Stmt.renameAll ρ (normalize scope next s).1 ∧
      (normalize (scope.rename ρ) next (s.rename ρ)).2 = (normalize scope next s).2 := by
  have hstay : TempsStay ρ hi { next } := ⟨fun _ => rfl, hnames⟩
  rw [normalize_eq hinner] at hle ⊢
  obtain ⟨heq, -⟩ := hoistEach_rename_of (fun e _ t => hoist_rename e) hstay hle
  rw [normalize_eq hinner', Stmt.operands_rename, heq, Stmt.renameAll_append, Stmt.renameAll,
    Stmt.rename_withOperands (length_hoistEach _ _ _)]
  exact ⟨rfl, rfl⟩

end Resolve

end Covenant
