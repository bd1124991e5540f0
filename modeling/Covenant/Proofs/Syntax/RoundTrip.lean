import Covenant.Proofs.Computations
import Covenant.Proofs.Syntax.Completeness
import Covenant.Proofs.Syntax.Legibility

/-!
# Printed trees are read back

An expression of a file that was read, printed as the value of a constant, is read as the same
expression up to positions, and a type of it, printed as the type of a field, as the same type
(`parse_printed`). The keys of objects are identifiers there, since they are printed without quotes,
and no object ends in the text of an opening brace: in front of the closing one it is read as such,
so that what was accepted with a comma behind the text is refused without (`printed_text_refused`).
-/

namespace Covenant

namespace Source

open Lexer

/-! ## Files of one declaration -/

section Declarations

variable {file source : String} {fuel : Nat} {ls : List Lexeme} {d : Declaration}

/-- **A text is read as a program** where its lexemes are. -/
theorem parse_of_accepts {p : Program} (hcuts : Cuts source.toList ls)
    (h : Accepts (reader (34 * (ls.length + 1)) (.node .program)) ls [] (Alike Eq p)) :
    ∃ program, parse file source = .ok program ∧ Alike Eq p program := by
  obtain ⟨stream, hscan, hstream⟩ := hcuts (Position.start file)
  have hlength : stream.tokens.length = ls.length := by rw [← hstream, List.length_map]
  obtain ⟨s, program, hread, hrest, -, hprogram⟩ := h (.ofStream stream)
    (by rw [List.append_nil]; exact hstream)
  have hempty : s.rest.isEmpty = true := by
    rw [ReadState.lexemes, List.map_eq_nil_iff] at hrest
    rw [hrest]
    rfl
  have hnode : readNode rule (34 * (ls.length + 1)) .program (.ofStream stream) =
      (s, .found program) := hread
  refine ⟨program, ?_, hprogram⟩
  rw [parse, show scan file source = .ok stream from hscan, ok_bind]
  simp only [readAll, hlength, hnode, hempty, if_true]

/-- No mark of an export is read in front of other words. -/
theorem accepts_unmarked (h : ∀ l ∈ ls.head?, l.value ≠ "export") :
    Accepts (reader fuel (.opt (before (word "export") (.opt (word "default"))))) [] ls
      (· = none) :=
  readOptional_misses (misses_map (misses_seq (misses_word h))) (Nat.zero_le _)

/-- No declaration starts behind the last token. -/
theorem misses_element : Misses (reader fuel (.node .element)) 0 [] := by
  refine misses_node fun fuel => misses_firstOf ?_ (Nat.zero_le _)
  simp only [List.forall_mem_cons, List.not_mem_nil, false_implies, implies_true, and_true]
  refine ⟨misses_map (misses_node fun fuel => misses_map (misses_behind forall_head_nil)),
    misses_map (misses_seq_second (@accepts_unmarked fuel [] forall_head_nil)
      (misses_firstOf ?_ (Nat.zero_le _)))⟩
  simp only [List.forall_mem_cons, List.not_mem_nil, false_implies, implies_true, and_true]
  exact ⟨misses_map (misses_node fun fuel => misses_map (misses_behind forall_head_nil)),
    misses_map (misses_node fun fuel => misses_map (misses_behind forall_head_nil)),
    misses_map (misses_node fun fuel => misses_map (misses_seq (misses_oneOf forall_head_nil)))⟩

/-- The declarations that may be exported, in the order in which they are tried. -/
def declarations : List (Rule Declaration) :=
  [.map .interfaceDecl (.node .interfaceDecl), .map .classDecl (.node .classDecl),
    .map .constant (.node .constant)]

/-- A declaration that is not exported. -/
theorem accepts_element (himport : ∀ l ∈ ls.head?, l.value ≠ "import")
    (hexport : ∀ l ∈ ls.head?, l.value ≠ "export")
    (h : Chooses fuel declarations ls [] (Alike Eq d)) :
    Accepts (reader (fuel + 1) (.node .element)) ls [] (Alike Eq (Element.mk default false d)) := by
  refine accepts_node (accepts_firstOf (chooses_tail (k := 0) (misses_map (misses_node fun fuel =>
    misses_map (misses_behind ?_))) (Nat.zero_le _) (chooses_head (accepts_map
      (accepts_seq (accepts_unmarked ?_) (accepts_firstOf h)) ?_))))
  · rwa [List.append_nil]
  · rwa [List.append_nil]
  · rintro ⟨mark, body⟩ ⟨rfl, hbody⟩ pos
    exact .element hbody

/-- **A text of one declaration is read as a file with it.** -/
theorem parse_declaration (hcuts : Cuts source.toList ls)
    (himport : ∀ l ∈ ls.head?, l.value ≠ "import") (hexport : ∀ l ∈ ls.head?, l.value ≠ "export")
    (h : ∀ fuel, 8 * ls.length ≤ fuel → Chooses fuel declarations ls [] (Alike Eq d)) :
    ∃ program, parse file source = .ok program ∧
      Alike Eq (Program.mk default [Element.mk default false d]) program := by
  refine parse_of_accepts hcuts ?_
  obtain ⟨fuel, hfuel, hle⟩ : ∃ fuel, 34 * (ls.length + 1) = fuel + 2 ∧ 8 * ls.length ≤ fuel :=
    ⟨34 * ls.length + 32, by omega, by omega⟩
  rw [hfuel]
  refine accepts_node (accepts_map (accepts_once (accepts_element himport hexport (h fuel hle))
    misses_element (Nat.zero_le _)) ?_)
  rintro _ ⟨element, rfl, helement⟩ pos
  exact .program (.cons helement .nil)

end Declarations

/-! ## An expression as a constant -/

/-- **A file with one constant.** -/
def constantFile (e : Expression) : Program :=
  ⟨default, [⟨default, false, .constant ⟨default, .constWord, "x", none, e⟩⟩]⟩

/-- The tokens of a constant. -/
def constantLexemes (e : Expression) : List Lexeme :=
  .word "const" :: .word "x" :: .operator "=" :: (e.lexemes ++ [.mark ";"])

theorem cuts_constant {e : Expression} (h : ∀ n ∈ e.nodes, n.Printable) :
    Cuts ("const x = " ++ e.render ++ ";").toList (constantLexemes e) := by
  have htext : ("const x = " ++ e.render ++ ";").toList = "const".toList ++ ' ' ::
      ("x".toList ++ ' ' :: ("=".toList ++ ' ' :: (e.render.toList ++ [';']))) := by
    simp
  have hvalue := e.prints h [';'] [.mark ";"] rfl (cuts_mark ";" rfl (by decide) cuts_nil)
  rw [htext]
  exact cuts_identifier (by decide : isIdentifier "const" = true) rfl (cuts_blank
    (cuts_identifier (by decide : isIdentifier "x" = true) rfl
      (cuts_between (by decide : "=" ∈ operators) hvalue)))

theorem accepts_constant {e : Expression} (h : ∀ n ∈ e.nodes, n.Readable) {fuel : Nat}
    (hfuel : 8 * e.lexemes.length ≤ fuel) :
    Accepts (reader (fuel + 1) (.node .constant)) (constantLexemes e) []
      (Alike Eq (ConstantDecl.mk default .constWord "x" none e)) := by
  have htype : Accepts (reader fuel typeAfterColon) []
      (.operator "=" :: (e.lexemes ++ [.mark ";"]) ++ []) (· = none) :=
    readOptional_misses (misses_behind (forall_head (by decide))) (Nat.zero_le _)
  have hclose : Accepts (reader fuel (.opt (word ";"))) [.mark ";"] [] fun _ => True :=
    (readOptional_accepts (accepts_word rfl)).mono fun _ _ => trivial
  have hvalue := e.readBack h fuel ([.mark ";"] ++ []) hfuel (.mark (by decide) fun _ => by decide)
  refine accepts_node (accepts_map (accepts_first (accepts_oneOf rfl) (accepts_first
    (accepts_anyOf rfl) (accepts_seq htype (accepts_behind rfl
      (accepts_before hvalue hclose))))) ?_)
  rintro ⟨kind, name, type, value⟩ ⟨rfl, rfl, rfl, hvalue⟩ pos
  exact .constant .none hvalue

/-- **An expression that is printed as what it is and read as what it is comes back.** -/
theorem parse_constant {e : Expression} (hprint : ∀ n ∈ e.nodes, n.Printable)
    (hread : ∀ n ∈ e.nodes, n.Readable) (file : String) :
    ∃ program, parse file ("const x = " ++ e.render ++ ";") = .ok program ∧
      Alike Eq (constantFile e) program := by
  refine parse_declaration (cuts_constant hprint) (forall_head (by decide))
    (forall_head (by decide)) fun fuel hfuel => ?_
  simp only [constantLexemes, List.length_cons, List.length_append] at hfuel
  obtain ⟨fuel, rfl⟩ : ∃ f, fuel = f + 1 := ⟨fuel - 1, by omega⟩
  exact chooses_tail (k := 0) (misses_map (misses_node fun fuel => misses_map (misses_behind
      (forall_head (by decide))))) (Nat.zero_le _)
    (chooses_tail (k := 0) (misses_map (misses_node fun fuel => misses_map (misses_behind
      (forall_head (by decide))))) (Nat.zero_le _)
    (chooses_head (accepts_map (accepts_constant hread (by omega)) fun _ h =>
      .constantDeclaration h)))

/-! ## A type as a field -/

/-- **A file with one interface of one field.** -/
def interfaceFile (t : TypeRef) : Program :=
  ⟨default, [⟨default, false, .interfaceDecl ⟨default, "X", [⟨default, "f", t⟩]⟩⟩]⟩

/-- The tokens of the field. -/
def fieldLexemes (t : TypeRef) : List Lexeme :=
  .word "f" :: .mark ":" :: (t.lexemes ++ [.mark ";"])

/-- The tokens of the interface. -/
def interfaceLexemes (t : TypeRef) : List Lexeme :=
  .word "interface" :: .word "X" :: .mark "\x7b" :: (fieldLexemes t ++ [.mark "\x7d"])

theorem cuts_interface {t : TypeRef} (h : ∀ n ∈ t.nodes, n.Legible) :
    Cuts ("interface X \x7b f: " ++ t.render ++ "; \x7d").toList (interfaceLexemes t) := by
  have htext : ("interface X \x7b f: " ++ t.render ++ "; \x7d").toList = "interface".toList ++
      ' ' :: ("X".toList ++ ' ' :: '\x7b' :: ' ' :: ("f".toList ++ ':' :: ' ' ::
        (t.render.toList ++ [';', ' ', '\x7d']))) := by
    simp
  have htype : Cuts (t.render.toList ++ [';', ' ', '\x7d'])
      (t.lexemes ++ [.mark ";"] ++ [.mark "\x7d"]) := by
    rw [List.append_assoc]
    exact t.prints h _ _ rfl (cuts_mark ";" rfl (by decide) (cuts_blank
      (cuts_mark "\x7d" rfl (by decide) cuts_nil)))
  rw [htext]
  exact cuts_identifier (by decide : isIdentifier "interface" = true) rfl (cuts_blank
    (cuts_identifier (by decide : isIdentifier "X" = true) rfl (cuts_blank
      (cuts_mark "\x7b" rfl (by decide) (cuts_blank
        (cuts_identifier (by decide : isIdentifier "f" = true) rfl
          (cuts_mark ":" rfl (by decide) (cuts_blank htype))))))))

theorem accepts_field {t : TypeRef} {fuel : Nat} (hfuel : 8 * t.lexemes.length ≤ fuel) :
    Accepts (reader (fuel + 1) (.node .interfaceField)) (fieldLexemes t) [.mark "\x7d"]
      (Alike Eq (InterfaceField.mk default "f" t)) := by
  have hends : Follows typeEnds false ([.mark ";"] ++ [.mark "\x7d"]) :=
    .mark (by decide) fun _ => by decide
  have htype := t.readBack fuel _ hfuel hends
  have hclose : Accepts (reader fuel (.opt (oneOf [(";", ()), (",", ())]))) [.mark ";"]
      [.mark "\x7d"] fun _ => True :=
    (readOptional_accepts (accepts_oneOf rfl)).mono fun _ _ => trivial
  refine accepts_node (accepts_map (accepts_first (accepts_bare (accepts_anyOf rfl)
    (misses_word (forall_head (by decide))) (Nat.zero_le _))
    (accepts_behind rfl (accepts_before htype hclose))) ?_)
  rintro ⟨name, type⟩ ⟨rfl, htype⟩ pos
  exact .interfaceField htype

theorem accepts_interface {t : TypeRef} {fuel : Nat} (hfuel : 8 * t.lexemes.length ≤ fuel) :
    Accepts (reader (fuel + 2) (.node .interfaceDecl)) (interfaceLexemes t) []
      (Alike Eq (InterfaceDecl.mk default "X" [InterfaceField.mk default "f" t])) := by
  have hend : Misses (reader (fuel + 1) (.node .interfaceField)) 0 [.mark "\x7d"] :=
    misses_node fun fuel => misses_map (misses_seq (misses_map (misses_seq
      (misses_anyOf (forall_head (by decide))))))
  refine accepts_node (accepts_map (accepts_behind rfl (accepts_first (accepts_anyOf rfl)
    (accepts_behind rfl (accepts_closed rfl
      (accepts_once (accepts_field hfuel) hend (Nat.zero_le _)))))) ?_)
  rintro ⟨name, fields⟩ ⟨rfl, field, rfl, hfield⟩ pos
  exact .interfaceDecl (.cons hfield .nil)

/-- **A legible type comes back.** -/
theorem parse_field {t : TypeRef} (h : ∀ n ∈ t.nodes, n.Legible) (file : String) :
    ∃ program, parse file ("interface X \x7b f: " ++ t.render ++ "; \x7d") = .ok program ∧
      Alike Eq (interfaceFile t) program := by
  refine parse_declaration (cuts_interface h) (forall_head (by decide)) (forall_head (by decide))
    fun fuel hfuel => ?_
  simp only [interfaceLexemes, fieldLexemes, List.length_cons, List.length_append] at hfuel
  obtain ⟨fuel, rfl⟩ : ∃ f, fuel = f + 2 := ⟨fuel - 2, by omega⟩
  exact chooses_head (accepts_map (accepts_interface (by omega)) fun _ h =>
    .interfaceDeclaration h)

/-! ## Files that were read -/

/-- **Printing and reading agree.** The expressions and types of a file that was read come back, up
to positions, from what is printed of them: expressions whose objects have identifiers for keys and
are closed, and all types. -/
theorem parse_printed {file source : String} {program : Program}
    (h : parse file source = .ok program) :
    (∀ e, Node.expression e ∈ program.nodes →
      (∀ n ∈ e.nodes, n.hasPlainKeys = true ∧ n.isClosed = true) → ∀ file',
      ∃ program', parse file' ("const x = " ++ e.render ++ ";") = .ok program' ∧
        Alike Eq (constantFile e) program') ∧
    ∀ t, Node.type t ∈ program.nodes → ∀ file',
      ∃ program', parse file' ("interface X \x7b f: " ++ t.render ++ "; \x7d") = .ok program' ∧
        Alike Eq (interfaceFile t) program' := by
  have hlegible := parse_legible h
  refine ⟨fun e he hkeys file' => ?_, fun t ht file' => parse_field (hlegible _ ht) file'⟩
  exact parse_constant (fun n hn => ⟨hlegible _ he n hn, (hkeys n hn).1⟩)
    (fun n hn => ⟨hlegible _ he n hn, (hkeys n hn).2⟩) file'

/-- The expression that a node is. -/
def Node.expression? : Node → Option Expression
  | .expression e => some e
  | _ => none

/-- The type that a node is. -/
def Node.type? : Node → Option TypeRef
  | .type t => some t
  | _ => none

theorem mem_of_findSome?_expression {ns : List Node} {e : Expression}
    (h : ns.findSome? Node.expression? = some e) : Node.expression e ∈ ns := by
  obtain ⟨n, hn, he⟩ := List.exists_of_findSome?_eq_some h
  cases n <;> cases he
  exact hn

theorem mem_of_findSome?_type {ns : List Node} {t : TypeRef}
    (h : ns.findSome? Node.type? = some t) : Node.type t ∈ ns := by
  obtain ⟨n, hn, ht⟩ := List.exists_of_findSome?_eq_some h
  cases n <;> cases ht
  exact hn

theorem parse_printed_choice :
    ∃ program e t, parse "a.ts"
        "const y: Map<string, number[]>[] = -a.b[0] >= 1 ? new C(\x7b k: !v, w, \x7d) : 'q\"\\n';" =
          .ok program ∧
      Node.expression e ∈ program.nodes ∧
      (∀ n ∈ e.nodes, n.hasPlainKeys = true ∧ n.isClosed = true) ∧ Node.type t ∈ program.nodes ∧
      (∃ program', parse "b.ts" ("const x = " ++ e.render ++ ";") = .ok program' ∧
        Alike Eq (constantFile e) program') ∧
      ∃ program', parse "b.ts" ("interface X \x7b f: " ++ t.render ++ "; \x7d") = .ok program' ∧
        Alike Eq (interfaceFile t) program' := by
  have hcheck :
      ((parse "a.ts"
        "const y: Map<string, number[]>[] = -a.b[0] >= 1 ? new C(\x7b k: !v, w, \x7d) : 'q\"\\n';"
          ).toOption.bind fun program =>
        (program.nodes.findSome? Node.expression?).bind fun e =>
          (program.nodes.findSome? Node.type?).map fun _ =>
            e.nodes.all fun n => n.hasPlainKeys && n.isClosed) = some true := by
    decide +kernel
  simp only [Option.bind_eq_some_iff, Option.map_eq_some_iff, toOption_eq_some, List.all_eq_true,
    Bool.and_eq_true] at hcheck
  obtain ⟨program, hparse, e, he, t, ht, hkeys⟩ := hcheck
  have he := mem_of_findSome?_expression he
  have ht := mem_of_findSome?_type ht
  obtain ⟨hexpressions, htypes⟩ := parse_printed hparse
  exact ⟨program, e, t, hparse, he, hkeys, ht, hexpressions e he hkeys "b.ts", htypes t ht "b.ts"⟩

/-- **A text can be printed where it is taken for a brace**: with a comma behind it the object is
accepted, and as it is printed, without, it is not. -/
theorem printed_text_refused :
    ∃ program e, parse "a.ts" "const x = \x7b a: \"\x7b\", \x7d;" = .ok program ∧
      Node.expression e ∈ program.nodes ∧ (∀ n ∈ e.nodes, n.hasPlainKeys = true) ∧
      "const x = " ++ e.render ++ ";" = "const x = \x7b a: \"\x7b\" \x7d;" ∧
      ∃ error, parse "a.ts" ("const x = " ++ e.render ++ ";") = .error error := by
  have hcheck :
      ((parse "a.ts" "const x = \x7b a: \"\x7b\", \x7d;").toOption.bind fun program =>
        (program.nodes.findSome? Node.expression?).map fun e =>
          e.nodes.all Node.hasPlainKeys &&
            (decide ("const x = " ++ e.render ++ ";" = "const x = \x7b a: \"\x7b\" \x7d;") &&
              (parse "a.ts" ("const x = " ++ e.render ++ ";")).toOption.isNone)) = some true := by
    decide +kernel
  simp only [Option.bind_eq_some_iff, Option.map_eq_some_iff, toOption_eq_some, List.all_eq_true,
    Bool.and_eq_true, decide_eq_true_eq] at hcheck
  obtain ⟨program, hparse, e, he, hkeys, htext, hrefused⟩ := hcheck
  refine ⟨program, e, hparse, mem_of_findSome?_expression he, hkeys, htext, ?_⟩
  cases h : parse "a.ts" ("const x = " ++ e.render ++ ";") with
  | error error => exact ⟨error, rfl⟩
  | ok program => simp [h, Except.toOption] at hrefused

end Source

end Covenant
