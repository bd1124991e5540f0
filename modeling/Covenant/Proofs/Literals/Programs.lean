import Covenant.Proofs.Build.Contracts
import Covenant.Proofs.Literals.Sources
import Covenant.Proofs.Literals.Words

/-!
# The literals of a program

Every literal of an accepted program is a word, but for those of constants: the type written for a
constant is given to its literal whatever the literal is. So a literal that is no word is that of a
constant with such a type, at that type or at one that a text can take (`literals_are_words`).
-/

namespace Covenant

namespace Build

open Resolve

/-- **A constant is misannotated**: the type that is written for it is given to a literal that is no
word of the type. -/
def Misannotated (files : List SourceFile) (exports : Exports) (type : Ty) (text : String) : Prop :=
  ¬WordLiteral type text ∧ ∃ f ∈ files, ∃ d ∈ f.program.constants, d.type.isSome ∧
    ∃ declared pos, (f.path, declared) ∈ exports ∧
      (d.name, .literal pos type text) ∈ declared.constants

/-- A text takes the type of its place, if that is one of bytes or an address. -/
def TakesType (given type : Ty) : Prop :=
  given = type ∨ given = .text ∧ (type = .bytes ∨ ∃ contract, type = .address contract)

/-- **A literal is accounted for**: it is a word, or stems from a misannotated constant. -/
def Accounted (files : List SourceFile) (exports : Exports) (type : Ty) (text : String) : Prop :=
  WordLiteral type text ∨ ∃ given, Misannotated files exports given text ∧ TakesType given type

/-- Every literal in the constants of a table is accounted for. -/
def ConstantsAccounted (files : List SourceFile) (exports : Exports) (t : Table Expr) : Prop :=
  ∀ entry ∈ t, Literals (Accounted files exports) entry.2.leaves

variable {files : List SourceFile} {exports more : Exports} {t : Table Expr}

theorem Accounted.mono (hmore : ∀ entry ∈ exports, entry ∈ more) {type : Ty} {text : String}
    (h : Accounted files exports type text) : Accounted files more type text := by
  refine h.imp id ?_
  rintro ⟨given, ⟨hword, f, hf, d, hd, htype, declared, pos, hdeclared, hmem⟩, htakes⟩
  exact ⟨given, ⟨hword, f, hf, d, hd, htype, declared, pos, hmore _ hdeclared, hmem⟩, htakes⟩

theorem ConstantsAccounted.mono (hmore : ∀ entry ∈ exports, entry ∈ more)
    (h : ConstantsAccounted files exports t) : ConstantsAccounted files more t :=
  fun entry hentry => (h entry hentry).mono fun _ _ => Accounted.mono hmore

/-- A text that is accounted for stays so at the types that it can take. -/
theorem Accounted.of_text {type : Ty} {text : String}
    (hword : WordLiteral .text text → WordLiteral type text) (htakes : TakesType .text type)
    (h : Accounted files exports .text text) : Accounted files exports type text := by
  refine h.imp hword ?_
  rintro ⟨given, hmis, rfl | ⟨rfl, -⟩⟩
  · exact ⟨.text, hmis, htakes⟩
  · exact ⟨.text, hmis, htakes⟩

theorem ConstantsAccounted.admits (h : ConstantsAccounted files exports t) :
    Admits (Accounted files exports) t where
  number n hn := .inl ⟨n, hn, rfl⟩
  address _ _ := .inl trivial
  text _ hsize := .inl hsize
  truth value := .inl (by cases value <;> simp [WordLiteral])
  asBytes _ := .of_text .inr (.inr ⟨rfl, .inl rfl⟩)
  asAddress _ contract := .of_text (fun _ => trivial) (.inr ⟨rfl, .inr ⟨contract, rfl⟩⟩)
  constants := h

/-! ## Constants -/

variable {scope inner : Scope}

/-- A constant without a written type is what its expression denotes, and so is one that is no
literal. -/
theorem constantValue_literals {P : Ty → String → Prop} {d : Source.ConstantDecl} {v : Expr}
    (hP : Admits P scope.constants) (h : constantValue scope d = .ok v) :
    d.type.isSome ∧ (∃ pos type text, type.isWord ∧ v = .literal pos type text) ∨
      Literals P v.leaves := by
  rw [constantValue, check_eq_ok] at h
  obtain ⟨value, hvalue, h⟩ := bind_eq_ok.1 h.2
  rw [check_eq_ok] at h
  have hliterals := (denotes_of_expression hvalue).literals hP
  replace h := h.2
  split at h
  · rename_i hwritten
    unfold annotate at h
    split at h
    · obtain ⟨type, -, h⟩ := bind_eq_ok.1 h
      split at h
      · cases pure_eq_ok.1 h
        exact .inl ⟨by rw [hwritten]; rfl, _, _, _, ‹_›, rfl⟩
      · exact absurd h throw_ne_ok
    · cases h
      exact .inr hliterals
  · cases pure_eq_ok.1 h
    exact .inr hliterals

/-- The constants found before stay. -/
theorem mem_constants {ds : List Source.ConstantDecl} {found : Table Expr}
    (h : constants scope ds found = .ok t) {entry : String × Expr} (hentry : entry ∈ found) :
    entry ∈ t := by
  induction ds generalizing found with
  | nil =>
    cases h
    exact hentry
  | cons d ds ih =>
    rw [constants, check_eq_ok] at h
    obtain ⟨v, -, h⟩ := bind_eq_ok.1 h.2
    exact ih h (List.mem_cons_of_mem _ hentry)

/-- **The constants of a file are accounted for**, where those it imports are. -/
theorem constants_accounted {f : SourceFile} (hf : f ∈ files) {declared : Declarations}
    (hdeclared : (f.path, declared) ∈ exports)
    (h : constants scope f.program.constants [] = .ok declared.constants)
    (hscope : ConstantsAccounted files exports scope.constants) :
    ConstantsAccounted files exports declared.constants := by
  suffices hall : ∀ ds found, (∀ d ∈ ds, d ∈ f.program.constants) →
      ConstantsAccounted files exports found →
      constants scope ds found = .ok declared.constants →
      ConstantsAccounted files exports declared.constants from
    hall _ [] (fun _ hd => hd) (fun _ h => (nomatch h)) h
  intro ds
  induction ds with
  | nil =>
    intro found _ hfound h
    cases h
    exact hfound
  | cons d ds ih =>
    intro found hds hfound h
    rw [List.forall_mem_cons] at hds
    rw [constants, check_eq_ok] at h
    obtain ⟨v, hv, h⟩ := bind_eq_ok.1 h.2
    refine ih _ hds.2 (List.forall_mem_cons.2 ⟨?_, hfound⟩) h
    have hvisible : ConstantsAccounted files exports (scope.constants.putAll found) :=
      List.forall_mem_append.2 ⟨hfound, hscope⟩
    rcases constantValue_literals hvisible.admits hv with ⟨htype, pos, type, text, -, rfl⟩ | hv
    · have hmem := mem_constants h List.mem_cons_self
      refine .literal (Classical.or_iff_not_imp_left.2 fun hword => ⟨type, ⟨hword, ?_⟩, .inl rfl⟩)
      exact ⟨f, hf, d, hds.1, htype, declared, pos, hdeclared, hmem⟩
    · exact hv

/-! ## Files -/

/-- All constants that are known are accounted for. -/
structure KnownAccounted (files : List SourceFile) (k : Known) : Prop where
  exports : ∀ file ∈ k.exports, ConstantsAccounted files k.exports file.2.constants
  scopes : ∀ f ∈ k.files, ConstantsAccounted files k.exports f.scope.constants

theorem KnownAccounted.declareFile {base : Scope} (hbase : base.constants = []) {k k' : Known}
    {f : SourceFile} (hf : f ∈ files) (hk : KnownAccounted files k)
    (h : declareFile base k f = .ok k') : KnownAccounted files k' := by
  obtain ⟨imported, declared, scope, events, himported, hdeclared, -, rfl⟩ := declareFile_eq_ok h
  obtain ⟨-, hconstants, hinner⟩ := declarations_eq_ok hdeclared
  have himports : ConstantsAccounted files k.exports imported.constants :=
    imports_constants (fun e => Literals (Accounted files k.exports) e.leaves) hk.exports
      (by rw [hbase]; exact fun _ h => (nomatch h)) himported
  -- the file itself may misannotate, and is exported when its constants are looked at
  have hmore : ∀ entry ∈ k.exports, entry ∈ k.exports.put f.path declared :=
    fun _ => List.mem_cons_of_mem _
  have hown : ConstantsAccounted files (k.exports.put f.path declared) declared.constants :=
    constants_accounted hf List.mem_cons_self hconstants (himports.mono hmore)
  refine ⟨List.forall_mem_cons.2 ⟨hown, fun file hfile => (hk.exports file hfile).mono hmore⟩,
    List.forall_mem_append.2 ⟨fun g hg => (hk.scopes g hg).mono hmore, ?_⟩⟩
  rw [List.forall_mem_singleton, hinner]
  exact List.forall_mem_append.2 ⟨hown, himports.mono hmore⟩

/-- **Every literal of an accepted program is written as a word**, unless it is the literal of a
misannotated constant, at the type given to it or at one that a text takes from its place. -/
theorem literals_are_words {registry : Registry} {warnings : List Fault}
    (h : resolveFiles files = .ok (registry, warnings)) :
    ∃ known, files.foldlM (declareFile (baseScope files)) {} = .ok known ∧
      ∀ c ∈ registry.contracts, ∀ pos type text, .literal pos type text ∈ c.expressions →
        Emit.WrittenAsWord pos type text ∨
        ∃ given, Misannotated files known.exports given text ∧ TakesType given type := by
  obtain ⟨-, known, hknown, hbuilt⟩ := resolveFiles_builtIn h
  have haccounted : KnownAccounted files known :=
    foldlM_keeps (KnownAccounted files) (fun f hf _ _ => KnownAccounted.declareFile rfl hf)
      ⟨fun _ h => absurd h List.not_mem_nil, fun _ h => absurd h List.not_mem_nil⟩ hknown
  refine ⟨known, hknown, fun c hc pos type text hmem => ?_⟩
  obtain ⟨f, hf, written, properties, -, -, hbuilt⟩ := hbuilt c hc
  have hliteral := hbuilt.literals (haccounted.scopes f hf).admits pos type text hmem
  exact hliteral.imp (Emit.writtenAsWord · pos) id

/-! ## Two files -/

/-- An expression that is one primary. -/
def primary (value : Source.Primary) : Source.Expression :=
  .chain {} (.mk {} (.mk {} [] (.mk {} value [])) [])

/-- A constant of a file. -/
def constantElement (name : String) (type : Option String) (value : Source.Primary) :
    Source.Element where
  pos := {}
  exported := true
  body := .constant
    { pos := {}
      kind := .constWord
      name
      type := type.map (.mk {} · [] 0)
      value := primary value }

/-- A property with an initial value. -/
def propertyMember (name type : String) (value : Source.Primary) : Source.ClassMember where
  pos := {}
  modifiers := []
  body := .property
    { pos := {}
      name
      type := some (.mk {} type [] 0)
      initializer := some (.value (primary value)) }

/-- The constants `CAP = 7`, `TAG: bytes = "gold"` and `OPEN: boolean = 5`, of which the last is
misannotated. -/
def limitsFile : SourceFile where
  path := "limits.ts"
  program :=
    { pos := {}
      elements :=
        [constantElement "CAP" none (.number {} "7"),
          constantElement "TAG" (some "bytes") (.text {} "gold"),
          constantElement "OPEN" (some "boolean") (.number {} "5")] }
  imports := []

/-- A class whose properties start with these constants and with a text. -/
def vaultFile : SourceFile where
  path := "vault.ts"
  program :=
    { pos := {}
      elements := [
        { pos := {}
          exported := true
          body := .classDecl
            { pos := {}
              name := "Vault"
              bases := []
              members :=
                [propertyMember "cap" "number" (.name {} "CAP"),
                  propertyMember "tag" "bytes" (.name {} "TAG"),
                  propertyMember "open" "boolean" (.name {} "OPEN"),
                  propertyMember "motto" "bytes" (.text {} "in trust")] } }] }
  imports :=
    [({ pos := {}, clause := .names ["CAP", "TAG", "OPEN"], source := "./limits" }, "limits.ts")]

/-- Both files are accepted, with the literals as they are written. -/
theorem vault_literals :
    ((resolveFiles [limitsFile, vaultFile]).toOption.map fun r =>
      r.1.contracts.map fun c => c.expressions.map literalOf) =
        some [["7", "gold", "5", "in trust"]] := by
  decide +kernel

theorem literals_are_words_vault :
    ∃ registry warnings known,
      resolveFiles [limitsFile, vaultFile] = .ok (registry, warnings) ∧
      (registry.contracts.map fun c => c.expressions.map literalOf) =
        [["7", "gold", "5", "in trust"]] ∧
      [limitsFile, vaultFile].foldlM (declareFile (baseScope [limitsFile, vaultFile])) {} =
        .ok known ∧
      ∀ c ∈ registry.contracts, ∀ pos type text, .literal pos type text ∈ c.expressions →
        Emit.WrittenAsWord pos type text ∨
        ∃ given, Misannotated [limitsFile, vaultFile] known.exports given text ∧
          TakesType given type := by
  obtain ⟨⟨registry, warnings⟩, hok, hliterals⟩ := Option.map_eq_some_iff.1 vault_literals
  have hok := toOption_eq_some.1 hok
  obtain ⟨known, hknown, hwords⟩ := literals_are_words hok
  exact ⟨registry, warnings, known, hok, hliterals, hknown, hwords⟩

end Build

end Covenant
