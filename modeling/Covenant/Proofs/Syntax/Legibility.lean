import Covenant.Proofs.Computations
import Covenant.Proofs.Syntax.Nodes
import Covenant.Proofs.Syntax.Reading

/-!
# What is read can be read again

Every node of a tree that was read is legible: its words are spelled as such, and none would have
been taken for something else (`parse_legible`). Where the words come from is a matter of what the
grammars match. Two facts lie in the order in which parts are tried: a name is no truth value, since
these are tried before names, and no operand starts with a text that is a sign, since signs are read
as often as they are found. For both the run itself is followed (`primary_finds`, `operand_finds`).
-/

namespace Covenant

namespace Source

/-! ## Lists of nodes -/

/-- What occurs in a node, with the node itself. -/
def Node.nodes : Node → List Node
  | .type t => t.nodes
  | .expression e => e.nodes
  | .operand o => o.nodes
  | .suffix s => s.nodes
  | .primary p => p.nodes

/-- A node occurs in itself. -/
theorem Node.mem_nodes (n : Node) : n ∈ n.nodes := by
  cases n with
  | type t =>
    cases t
    exact List.mem_cons_self
  | expression e => cases e <;> exact List.mem_cons_self
  | operand o =>
    cases o
    exact List.mem_cons_self
  | suffix s => cases s <;> exact List.mem_cons_self
  | primary p => cases p <;> exact List.mem_cons_self

/-- **Some nodes are legible**, with all that occurs in them. -/
def Legible (ns : List Node) : Prop :=
  ∀ n ∈ ns, ∀ m ∈ n.nodes, m.Legible

section Lists

variable {α : Type} {ns ms : List Node} {n : Node}

theorem forall_mem_none {p : α → Prop} : ∀ a ∈ (none : Option α), p a :=
  fun a h => absurd h (Option.not_mem_none a)

@[simp] theorem legible_nil : Legible [] :=
  List.forall_mem_nil _

/-- Rows of nodes are legible together if each is. -/
@[simp] theorem legible_append : Legible (ns ++ ms) ↔ Legible ns ∧ Legible ms :=
  List.forall_mem_append

/-- The nodes of several parts are legible if those of each part are. -/
@[simp] theorem legible_flatMap {f : α → List Node} {as : List α} :
    Legible (as.flatMap f) ↔ ∀ a ∈ as, Legible (f a) := by
  simp only [Legible, List.mem_flatMap]
  constructor
  · exact fun h a ha n hn => h n ⟨a, ha, hn⟩
  · rintro h n ⟨a, ha, hn⟩
    exact h a ha n hn

/-- The nodes of an optional part are legible if those of the part are. -/
@[simp] theorem legible_elim {f : α → List Node} {o : Option α} :
    Legible (o.elim [] f) ↔ ∀ a ∈ o, Legible (f a) := by
  cases o <;> simp

/-- A node in front of what occurs in it. -/
theorem legible_cons (hnodes : n.nodes = n :: ns) :
    Legible (n :: ns) ↔ n.Legible ∧ Legible ns := by
  constructor
  · intro h
    rw [Legible, List.forall_mem_cons] at h
    exact ⟨h.1 n n.mem_nodes, h.2⟩
  · rintro ⟨hn, hns⟩
    refine List.forall_mem_cons.2 ⟨?_, hns⟩
    rw [hnodes]
    exact List.forall_mem_cons.2 ⟨hn, fun m hm => hns m hm m m.mem_nodes⟩

end Lists

/-! ## What a production gives -/

/-- What occurs in what a production builds. -/
def Nonterminal.nodes : {α : Type} → Nonterminal α → α → List Node
  | _, .program => Program.nodes
  | _, .element => fun e => e.body.nodes
  | _, .imports => fun _ => []
  | _, .interfaceDecl => fun d => d.fields.flatMap fun f => f.type.nodes
  | _, .interfaceField => fun f => f.type.nodes
  | _, .constant => ConstantDecl.nodes
  | _, .classDecl => fun d => d.members.flatMap fun m => m.body.nodes
  | _, .classMember => fun m => m.body.nodes
  | _, .constructor => Constructor.nodes
  | _, .method => Method.nodes
  | _, .property => Property.nodes
  | _, .initializer => Initializer.nodes
  | _, .arrow => Arrow.nodes
  | _, .param => Param.nodes
  | _, .typeRef => TypeRef.nodes
  | _, .block => Block.nodes
  | _, .statement => Statement.nodes
  | _, .declaration => Statement.nodes
  | _, .conditional => Statement.nodes
  | _, .returns => Statement.nodes
  | _, .throws => Statement.nodes
  | _, .exprStatement => Statement.nodes
  | _, .expression => Expression.nodes
  | _, .chain => Chain.nodes
  | _, .link => Link.nodes
  | _, .operand => Operand.nodes
  | _, .postfixed => Postfix.nodes
  | _, .suffix => Suffix.nodes
  | _, .arguments => Arguments.nodes
  | _, .primary => Primary.nodes
  | _, .creation => Primary.nodes
  | _, .objectLiteral => Primary.nodes
  | _, .objectField => ObjectField.nodes

/-- The text that a primary is. -/
def Primary.text? : Primary → Option String
  | .text _ value => some value
  | _ => none

/-- The text that a production starts with, if it builds a primary or steps behind one. -/
def Nonterminal.text? : {α : Type} → Nonterminal α → α → Option String
  | _, .postfixed, .mk _ p _ => p.text?
  | _, .primary, p => p.text?
  | _, .creation, p => p.text?
  | _, .objectLiteral, p => p.text?
  | _, _, _ => none

/-- **What a production gives** for tokens that are spelled right: legible nodes. Where it gives a
text, that is the first token. -/
def Gives {α : Type} (name : Nonterminal α) (ts : List Token) (_ : Position) (a : α) : Prop :=
  (∀ t ∈ ts, t.Spelled) →
    Legible (name.nodes a) ∧ ∀ value ∈ name.text? a, ∃ t ∈ ts.head?, t.value = value

section Keeps

variable {α β : Type} {g : Rule α} {g' : Rule β} {Q : α → Prop} {Q' : β → Prop}

/-- **A grammar keeps to a property**: what it matches has it. -/
def Keeps (g : Rule α) (Q : α → Prop) : Prop :=
  ∀ ts next a, (∀ t ∈ ts, t.Spelled) → g.Matches Gives ts next a → Q a

theorem keeps_any : Keeps g fun _ => True :=
  fun _ _ _ _ _ => trivial

/-- A token of a class stands for its value, and is spelled right. -/
theorem keeps_anyOf (kind : TokenKind) :
    Keeps (anyOf kind) fun value => ∃ t : Token, t.Spelled ∧ t.kind = kind ∧ t.value = value := by
  rintro _ _ value hspelled ⟨t, rfl, h⟩
  obtain ⟨hkind, hvalue⟩ := Option.ite_none_right_eq_some.1 h
  exact ⟨t, hspelled t List.mem_cons_self, hkind, Option.some.inj hvalue⟩

/-- An identifier is spelled like one: a token of that class was cut as a word. -/
theorem keeps_identifier : Keeps identifier fun name => Lexer.isIdentifier name = true := by
  intro ts next name hspelled h
  obtain ⟨t, ht, hkind, rfl⟩ := keeps_anyOf .identifier ts next name hspelled h
  exact ht.1 hkind

/-- Two grammars in a row keep to their properties side by side, each on its own tokens. -/
theorem keeps_seq (h : Keeps g Q) (h' : Keeps g' Q') :
    Keeps (.seq g g') fun p => Q p.1 ∧ Q' p.2 := by
  rintro _ next p hspelled ⟨us, vs, rfl, hg, hg'⟩
  rw [List.forall_mem_append] at hspelled
  exact ⟨h us _ _ hspelled.1 hg, h' vs _ _ hspelled.2 hg'⟩

/-- What an optional grammar gives has the property, if it gives something. -/
theorem keeps_opt (h : Keeps g Q) : Keeps (.opt g) fun o => ∀ a ∈ o, Q a := by
  rintro ts next o hspelled (⟨-, rfl⟩ | ⟨a, ha, rfl⟩)
  · exact forall_mem_none
  · rintro _ ⟨⟩
    exact h ts next a hspelled ha

/-- Every item of a repetition has the property. -/
theorem keeps_star (h : Keeps g Q) : Keeps (.star g) fun as => ∀ a ∈ as, Q a := by
  intro ts next as hspelled hrow
  induction hrow with
  | nil => exact List.forall_mem_nil _
  | cons head _ ih =>
    rw [List.forall_mem_append] at hspelled
    exact List.forall_mem_cons.2 ⟨h _ _ _ hspelled.1 head, ih hspelled.2⟩

/-- What is built of values with a property has the property that the building gives it. -/
theorem keeps_map {f : α → β} (h : Keeps g Q) (hf : ∀ a, Q a → Q' (f a)) :
    Keeps (.map f g) Q' := by
  rintro ts next _ hspelled ⟨a, ha, rfl⟩
  exact hf a (h ts next a hspelled ha)

/-- A choice keeps to a property that every alternative keeps to. -/
theorem keeps_firstOf {gs : List (Rule α)} (h : ∀ g ∈ gs, Keeps g Q) : Keeps (firstOf gs) Q := by
  intro ts next a hspelled hmatches
  change (gs.foldr Alternatives.cons .none).Matches Gives ts next a at hmatches
  induction gs with
  | nil => exact hmatches.elim
  | cons g gs ih =>
    rw [List.forall_mem_cons] at h
    rcases hmatches with hmatches | hmatches
    · exact h.1 ts next a hspelled hmatches
    · exact ih h.2 hmatches

/-- What is only checked in front of a grammar does not count. -/
theorem keeps_after (h : Keeps g' Q') : Keeps (after g g') Q' :=
  keeps_map (keeps_seq keeps_any h) fun _ h => h.2

/-- What is only checked behind a grammar does not count. -/
theorem keeps_before (h : Keeps g Q) : Keeps (before g g') Q :=
  keeps_map (keeps_seq h keeps_any) fun _ h => h.1

/-- Every item between commas has the property. -/
theorem keeps_commaList (h : Keeps g Q) : Keeps (commaList g) fun as => ∀ a ∈ as, Q a :=
  keeps_map (keeps_seq h (keeps_star (keeps_after h))) fun _ h => List.forall_mem_cons.2 h

/-- Every item of a list that may be empty has the property. -/
theorem keeps_looseList (h : Keeps g Q) : Keeps (looseList g) fun as => ∀ a ∈ as, Q a := by
  refine keeps_map (keeps_opt (keeps_before (keeps_commaList h))) ?_
  rintro (_ | as) h
  · exact List.forall_mem_nil _
  · exact h as rfl

/-- A production that is named gives legible nodes. -/
theorem keeps_node {name : Nonterminal α} : Keeps (.node name) fun a => Legible (name.nodes a) :=
  fun _ _ _ hspelled h => (h hspelled).1

theorem keeps_params : Keeps params fun ps => ∀ p ∈ ps, Legible p.nodes :=
  keeps_before (keeps_looseList keeps_node)

theorem keeps_typeAfterColon : Keeps typeAfterColon fun o => ∀ t ∈ o, Legible t.nodes :=
  keeps_opt (keeps_after keeps_node)

/-! ## The productions -/

/-- The nodes that a production builds are legible, wherever it starts. -/
def Writes (name : Nonterminal α) : Prop :=
  Keeps (rule name) fun build => ∀ pos, Legible (name.nodes (build pos))

/-- The nodes of a file are those of its elements. -/
theorem program_writes : Writes .program :=
  keeps_map (keeps_star keeps_node) fun _ h _ => legible_flatMap.2 h

theorem element_writes : Writes .element := by
  refine keeps_firstOf ?_
  simp only [List.forall_mem_cons, List.not_mem_nil, false_implies, implies_true, and_true]
  refine ⟨keeps_map keeps_any fun _ _ _ => legible_nil,
    keeps_map (keeps_seq keeps_any (keeps_firstOf (Q := fun d => Legible d.nodes) ?_))
      fun _ h _ => h.2⟩
  simp only [List.forall_mem_cons, List.not_mem_nil, false_implies, implies_true, and_true]
  exact ⟨keeps_map keeps_node fun _ h => h, keeps_map keeps_node fun _ h => h,
    keeps_map keeps_node fun _ h => h⟩

/-- An import has no nodes: its names and its module are taken as they are. -/
theorem imports_writes : Writes .imports :=
  keeps_map keeps_any fun _ _ _ => legible_nil

theorem interfaceDecl_writes : Writes .interfaceDecl :=
  keeps_map (keeps_after (keeps_seq keeps_any (keeps_after (keeps_before (keeps_star keeps_node)))))
    fun _ h _ => legible_flatMap.2 h.2

theorem interfaceField_writes : Writes .interfaceField :=
  keeps_map (keeps_seq keeps_any (keeps_after (keeps_before keeps_node))) fun _ h _ => h.2

/-- In a constant there are the nodes of its type and of its value. -/
theorem constant_writes : Writes .constant :=
  keeps_map (keeps_seq keeps_any (keeps_seq keeps_any (keeps_seq keeps_typeAfterColon
    (keeps_after (keeps_before keeps_node)))))
    fun _ h _ => legible_append.2 ⟨legible_elim.2 h.2.2.1, h.2.2.2⟩

theorem classDecl_writes : Writes .classDecl :=
  keeps_map (keeps_after (keeps_seq keeps_any (keeps_seq keeps_any
    (keeps_after (keeps_before (keeps_star keeps_node))))))
    fun _ h _ => legible_flatMap.2 h.2.2

/-- Modifiers have no nodes, so a member is as legible as its body. -/
theorem classMember_writes : Writes .classMember := by
  refine keeps_map (keeps_seq keeps_any (keeps_before
    (keeps_firstOf (Q := fun m => Legible m.nodes) ?_))) fun _ h _ => h.2
  simp only [List.forall_mem_cons, List.not_mem_nil, false_implies, implies_true, and_true]
  exact ⟨keeps_map keeps_node fun _ h => h, keeps_map keeps_node fun _ h => h,
    keeps_map keeps_node fun _ h => h⟩

theorem constructor_writes : Writes .constructor :=
  keeps_map (keeps_after (keeps_after (keeps_seq keeps_params keeps_node)))
    fun _ h _ => legible_append.2 ⟨legible_flatMap.2 h.1, h.2⟩

/-- In a method there are the nodes of its parameters, its type and its body. -/
theorem method_writes : Writes .method :=
  keeps_map (keeps_seq keeps_any (keeps_seq keeps_params
    (keeps_seq keeps_typeAfterColon keeps_node)))
    fun _ h _ => legible_append.2 ⟨legible_flatMap.2 h.2.1,
      legible_append.2 ⟨legible_elim.2 h.2.2.1, h.2.2.2⟩⟩

/-- In a property there are the nodes of its type and of its initializer. -/
theorem property_writes : Writes .property :=
  keeps_map (keeps_seq keeps_any (keeps_seq keeps_typeAfterColon
    (keeps_opt (keeps_after keeps_node))))
    fun _ h _ => legible_append.2 ⟨legible_elim.2 h.2.1, legible_elim.2 h.2.2⟩

theorem initializer_writes : Writes .initializer := by
  refine keeps_map (keeps_firstOf (Q := fun i => Legible i.nodes) ?_) fun _ h _ => h
  simp only [List.forall_mem_cons, List.not_mem_nil, false_implies, implies_true, and_true]
  exact ⟨keeps_map keeps_node fun _ h => h, keeps_map keeps_node fun _ h => h⟩

theorem arrow_writes : Writes .arrow := by
  refine keeps_map (keeps_after (keeps_seq keeps_params (keeps_seq keeps_typeAfterColon
    (keeps_after (keeps_firstOf (Q := fun b => Legible b.nodes) ?_)))))
    fun _ h _ => legible_append.2 ⟨legible_flatMap.2 h.1,
      legible_append.2 ⟨legible_elim.2 h.2.1, h.2.2⟩⟩
  simp only [List.forall_mem_cons, List.not_mem_nil, false_implies, implies_true, and_true]
  exact ⟨keeps_map keeps_node fun _ h => h, keeps_map keeps_node fun _ h => h⟩

/-- In a parameter there are the nodes of its type. -/
theorem param_writes : Writes .param :=
  keeps_map (keeps_seq keeps_any (keeps_after keeps_node)) fun _ h _ => h.2

/-- The name of a type is an identifier, and its arguments are types of their own. -/
theorem typeRef_writes : Writes .typeRef := by
  refine keeps_map (keeps_seq keeps_identifier (keeps_seq
    (keeps_opt (keeps_after (keeps_before (keeps_commaList keeps_node)))) keeps_any)) ?_
  rintro ⟨name, arguments, brackets⟩ ⟨hname, harguments, -⟩ pos
  refine (legible_cons (n := .type _) rfl).2 ⟨hname, ?_⟩
  rw [typesNodes_eq, legible_flatMap]
  cases arguments with
  | none => exact List.forall_mem_nil _
  | some ts => exact harguments ts rfl

theorem block_writes : Writes .block := by
  refine keeps_map (keeps_after (keeps_before (keeps_star keeps_node))) fun statements h pos => ?_
  change Legible (statementsNodes statements)
  rw [statementsNodes_eq]
  exact legible_flatMap.2 h

/-- Each kind of statement is legible, and the empty one has no nodes. -/
theorem statement_writes : Writes .statement := by
  refine keeps_firstOf ?_
  simp only [List.forall_mem_cons, List.not_mem_nil, false_implies, implies_true, and_true]
  exact ⟨keeps_map keeps_node fun _ h _ => h, keeps_map keeps_node fun _ h _ => h,
    keeps_map keeps_node fun _ h _ => h, keeps_map keeps_node fun _ h _ => h,
    keeps_map keeps_node fun _ h _ => h, keeps_map keeps_node fun _ h _ => h,
    keeps_map keeps_any fun _ _ _ => legible_nil⟩

theorem declaration_writes : Writes .declaration :=
  keeps_map (keeps_seq keeps_any (keeps_seq keeps_any (keeps_seq keeps_typeAfterColon
    (keeps_before (keeps_opt (keeps_after keeps_node))))))
    fun _ h _ => legible_append.2 ⟨legible_elim.2 h.2.2.1, legible_elim.2 h.2.2.2⟩

/-- Both branches of a conditional are legible, if there is a second one. -/
theorem conditional_writes : Writes .conditional := by
  refine keeps_map (keeps_after (keeps_after (keeps_seq (keeps_before keeps_node)
    (keeps_seq keeps_node (keeps_opt (keeps_after keeps_node)))))) ?_
  rintro ⟨condition, yes, _ | no⟩ ⟨hcondition, hyes, hno⟩ pos
  · exact legible_append.2 ⟨hcondition, hyes⟩
  · exact legible_append.2 ⟨hcondition, legible_append.2 ⟨hyes, hno no rfl⟩⟩

theorem returns_writes : Writes .returns :=
  keeps_map (keeps_after (keeps_before (keeps_opt keeps_node))) fun _ h _ => legible_elim.2 h

theorem throws_writes : Writes .throws :=
  keeps_map (keeps_after (keeps_before keeps_node)) fun _ h _ => h

/-- The target of an assignment is an expression like the value. -/
theorem exprStatement_writes : Writes .exprStatement := by
  refine keeps_map (keeps_seq keeps_node (keeps_before
    (keeps_opt (keeps_seq keeps_any keeps_node)))) ?_
  rintro ⟨target, _ | ⟨assignment, value⟩⟩ ⟨htarget, hvalue⟩ pos
  · exact htarget
  · exact legible_append.2 ⟨htarget, (hvalue _ rfl).2⟩

/-- A choice has the nodes of its chain and of both branches. -/
theorem expression_writes : Writes .expression := by
  refine keeps_map (keeps_seq keeps_node (keeps_opt (keeps_after
    (keeps_seq keeps_node (keeps_after keeps_node))))) ?_
  rintro ⟨condition, _ | ⟨yes, no⟩⟩ ⟨hcondition, hbranches⟩ pos
  · exact (legible_cons (n := .expression _) rfl).2 ⟨trivial, hcondition⟩
  · exact (legible_cons (n := .expression _) rfl).2 ⟨trivial,
      legible_append.2 ⟨hcondition, legible_append.2 (hbranches _ rfl)⟩⟩

/-- A chain is as legible as its operands: the operators have no nodes. -/
theorem chain_writes : Writes .chain := by
  refine keeps_map (keeps_seq keeps_node (keeps_star keeps_node)) ?_
  rintro ⟨first, links⟩ ⟨hfirst, hlinks⟩ pos
  refine legible_append.2 ⟨hfirst, ?_⟩
  rw [linksNodes_eq]
  exact legible_flatMap.2 hlinks

/-- In a link there are the nodes of its operand. -/
theorem link_writes : Writes .link :=
  keeps_map (keeps_seq keeps_any keeps_node) fun _ h _ => h.2

/-- A primary and the steps behind it are legible by themselves. -/
theorem postfixed_writes : Writes .postfixed := by
  refine keeps_map (keeps_seq keeps_node (keeps_star keeps_node)) ?_
  rintro ⟨primary, suffixes⟩ ⟨hprimary, hsuffixes⟩ pos
  refine legible_append.2 ⟨hprimary, ?_⟩
  rw [suffixesNodes_eq]
  exact legible_flatMap.2 hsuffixes

/-- The name of a member is an identifier. -/
theorem suffix_writes : Writes .suffix := by
  refine keeps_firstOf ?_
  simp only [List.forall_mem_cons, List.not_mem_nil, false_implies, implies_true, and_true]
  refine ⟨keeps_map (keeps_after keeps_identifier) fun name h pos => ?_,
    keeps_map (keeps_after (keeps_before keeps_node)) fun value h pos => ?_,
    keeps_map keeps_node fun arguments h pos => ?_⟩
  · exact (legible_cons (n := .suffix _) rfl).2 ⟨h, legible_nil⟩
  · exact (legible_cons (n := .suffix _) rfl).2 ⟨trivial, h⟩
  · exact (legible_cons (n := .suffix _) rfl).2 ⟨trivial, h⟩

theorem arguments_writes : Writes .arguments := by
  refine keeps_map (keeps_after (keeps_before (keeps_looseList keeps_node))) fun values h pos => ?_
  change Legible (expressionsNodes values)
  rw [expressionsNodes_eq]
  exact legible_flatMap.2 h

/-- The name of a class that is created is an identifier. -/
theorem creation_writes : Writes .creation :=
  keeps_map (keeps_after (keeps_seq keeps_identifier keeps_node))
    fun _ h _ => (legible_cons (n := .primary _) rfl).2 h

/-- An object is a node of its own, beside those of its fields. -/
theorem objectLiteral_writes : Writes .objectLiteral := by
  refine keeps_map (keeps_after (keeps_before (keeps_looseList keeps_node))) fun fields h pos => ?_
  refine (legible_cons (n := .primary _) rfl).2 ⟨trivial, ?_⟩
  rw [fieldsNodes_eq]
  exact legible_flatMap.2 h

/-- A field without a value has no nodes. -/
theorem objectField_writes : Writes .objectField := by
  refine keeps_map (keeps_seq keeps_any (keeps_opt (keeps_after keeps_node))) ?_
  rintro ⟨key, _ | value⟩ ⟨-, hvalue⟩ pos
  · exact legible_nil
  · exact hvalue value rfl

end Keeps

/-! ## The order in which parts are tried -/

section Order

variable {α β : Type} {s : ReadState} {accept : Token → Option β}
  {production : {α : Type} → Nonterminal α → ReadState → ReadState × Outcome α}

/-- What is known of the next token is known of the first one that is taken. -/
theorem Finds.and_head {R : List Token → Position → α → Prop} {r : ReadState × Outcome α}
    {C : Token → Prop} (h : Finds R s r) (hs : ∀ t ∈ s.rest.head?, C t) :
    Finds (fun ts next a => R ts next a ∧ ∀ t ∈ ts.head?, C t) s r := by
  obtain ⟨p, _ | a | e⟩ := r
  · exact h
  · obtain ⟨ts, hrest, hfinish, hts⟩ := h
    refine ⟨ts, hrest, hfinish, hts, fun t ht => hs t ?_⟩
    rw [hrest, List.head?_append, ht]
    rfl
  · trivial

/-- An alternative of one token is tried before the others: where it is not taken, the next token is
not of its kind. -/
theorem choice_finds_token {R : List Token → Position → α → Prop} {f : β → α}
    {tail : Alternatives Nonterminal α}
    (htail : ∀ best s, Finds R s (tail.run production best s))
    (best : Option (SyntaxError × Nat)) (s : ReadState) :
    Finds (fun ts next a => (∃ t b, ts = [t] ∧ accept t = some b ∧ f b = a) ∨
      (R ts next a ∧ ∀ t ∈ ts.head?, accept t = none)) s
      ((Alternatives.cons (.map f (.token accept)) tail).run production best s) := by
  have hnone (hs : ∀ t ∈ s.rest.head?, accept t = none) :=
    ((htail best s).and_head hs).mono fun ts next a h =>
      (.inr h : (∃ t b, ts = [t] ∧ accept t = some b ∧ f b = a) ∨ _)
  obtain ⟨rest, finish, depth, deepest, deepestDepth⟩ := s
  rw [Alternatives.run, Grammar.run, Grammar.run]
  cases rest with
  | nil => exact hnone forall_mem_none
  | cons t rest =>
    dsimp only
    cases ht : accept t with
    | none =>
      refine hnone ?_
      rintro _ ⟨⟩
      exact ht
    | some b => exact ⟨[t], by simp, by simp, .inl ⟨t, b, rfl, ht, rfl⟩⟩

/-- Tokens of a kind are read as often as they are found. -/
theorem readMany_token_refuses {limit : Nat} (hlimit : s.rest.length < limit) :
    ∀ t ∈ (readMany ((Grammar.token accept).run production) limit s).1.rest.head?,
      accept t = none := by
  induction limit generalizing s with
  | zero => cases hlimit
  | succ limit ih =>
    obtain ⟨rest, finish, depth, deepest, deepestDepth⟩ := s
    rw [readMany, Grammar.run]
    cases rest with
    | nil => simp
    | cons t rest =>
      dsimp only
      cases ht : accept t with
      | none => simpa using ht
      | some b => exact ih (by simpa using hlimit)

section Productions

variable (hproduction : ∀ {α : Type} (name : Nonterminal α) (s : ReadState),
  Finds (Gives name) s (production name s))
include hproduction

/-- No operand starts with a text that is read as a sign. -/
theorem operand_finds (s : ReadState) :
    Finds (fun ts next build => Gives .operand ts next (build (startOf next ts))) s
      ((rule .operand).run production s) := by
  have hsigns : Finds (fun _ _ _ => True) s ((Grammar.star (oneOf signWords)).run production s) :=
    (Grammar.run_finds hproduction _ s).mono fun _ _ _ _ => trivial
  have hvalue (p : ReadState) (signs : List Sign)
      (hrun : (Grammar.star (oneOf signWords)).run production s = (p, .found signs)) :
      Finds (fun ts next value => Gives .postfixed ts next value ∧
        ∀ t ∈ ts.head?, signWords.lookup t.value = none) p (production .postfixed p) := by
    have hrefuses : ∀ t ∈ ((Grammar.star (oneOf signWords)).run production s).1.rest.head?,
        signWords.lookup t.value = none :=
      readMany_token_refuses (Nat.lt_succ_self s.rest.length)
    rw [hrun] at hrefuses
    exact (hproduction .postfixed p).and_head hrefuses
  have hseq : Finds _ s
      ((Grammar.seq (.star (oneOf signWords)) (.node .postfixed)).run production s) :=
    Grammar.run_seq_finds hsigns hvalue
  refine (Grammar.run_map_finds hseq).mono ?_
  rintro _ next _ ⟨⟨signs, value⟩, ⟨us, vs, rfl, -, hvalue, hrefused⟩, rfl⟩ hspelled
  rw [List.forall_mem_append] at hspelled
  obtain ⟨hlegible, htext⟩ := hvalue hspelled.2
  refine ⟨(legible_cons (n := .operand _) rfl).2 ⟨?_, hlegible⟩, forall_mem_none⟩
  obtain ⟨pos, primary, suffixes⟩ := value
  cases primary with
  | text pos value =>
    obtain ⟨t, ht, rfl⟩ := htext _ rfl
    exact Option.isSome_eq_false_iff.2 (Option.isNone_iff_eq_none.2 (hrefused t ht))
  | _ => rfl

/-- No name is a truth value or the current object. -/
theorem primary_finds (s : ReadState) :
    Finds (fun ts next build => Gives .primary ts next (build (startOf next ts))) s
      ((rule .primary).run production s) := by
  refine (Alternatives.run_cons_finds (Grammar.run_finds hproduction _ s) (fun best s =>
    Alternatives.run_cons_finds (Grammar.run_finds hproduction _ s)
      (choice_finds_token (choice_finds_token (choice_finds_token (choice_finds_token
        (choice_finds_token (Alternatives.run_finds hproduction _)))))) best) none).mono ?_
  intro ts next build h hspelled
  have hparens : Keeps (.map (fun inner pos => .parens pos inner)
      (after (word "(") (before (.node .expression) (word ")")))) fun build : Position → Primary =>
      ∀ pos, Legible (build pos).nodes ∧ (build pos).text? = none :=
    keeps_map (keeps_after (keeps_before keeps_node)) fun inner h pos =>
      ⟨(legible_cons (n := .primary _) rfl).2 ⟨trivial, h⟩, rfl⟩
  have hlone {p : Primary} (hnodes : p.nodes = [.primary p]) (hp : (Node.primary p).Legible) :
      Legible p.nodes := by
    rw [hnodes]
    exact (legible_cons (n := .primary p) hnodes).2 ⟨hp, legible_nil⟩
  -- in the order of the alternatives; a token that one takes is refused by those before it
  rcases h with ⟨p, hp, rfl⟩ | ⟨p, hp, rfl⟩ | ⟨t, literal, rfl, haccept, rfl⟩ |
    ⟨⟨t, value, rfl, haccept, rfl⟩ | ⟨⟨t, value, rfl, -, rfl⟩ | ⟨⟨t, -, rfl, -, rfl⟩ |
    ⟨⟨t, name, rfl, haccept, rfl⟩ | ⟨hinner | hinner, -⟩, hthis⟩, htruth⟩, -⟩, -⟩
  · exact hp hspelled
  · exact hp hspelled
  · obtain ⟨hkind, hliteral⟩ := Option.ite_none_right_eq_some.1 haccept
    cases hliteral
    exact ⟨hlone rfl ((hspelled t List.mem_cons_self).2 hkind), forall_mem_none⟩
  · obtain ⟨-, hvalue⟩ := Option.ite_none_right_eq_some.1 haccept
    cases hvalue
    refine ⟨hlone rfl trivial, ?_⟩
    rintro _ ⟨⟩
    exact ⟨t, rfl, rfl⟩
  · exact ⟨hlone rfl trivial, forall_mem_none⟩
  · exact ⟨hlone rfl trivial, forall_mem_none⟩
  · obtain ⟨hkind, hname⟩ := Option.ite_none_right_eq_some.1 haccept
    cases hname
    refine ⟨hlone rfl ⟨(hspelled t List.mem_cons_self).1 hkind, htruth t rfl, fun hvalue => ?_⟩,
      forall_mem_none⟩
    cases (if_pos hvalue).symm.trans (hthis t rfl)
  · obtain ⟨hlegible, htext⟩ := hparens ts next build hspelled hinner (startOf next ts)
    exact ⟨hlegible, fun value hvalue => by cases htext.symm.trans hvalue⟩
  · exact hinner.elim

/-- **What the grammar of a production finds, the production gives.** -/
theorem rule_finds {α : Type} (name : Nonterminal α) (s : ReadState) :
    Finds (fun ts next build => Gives name ts next (build (startOf next ts))) s
      ((rule name).run production s) := by
  have hgives {α : Type} {name : Nonterminal α} (h : Writes name)
      (htext : Keeps (rule name) fun build => ∀ pos, name.text? (build pos) = none) :
      Finds (fun ts next build => Gives name ts next (build (startOf next ts))) s
        ((rule name).run production s) := by
    refine ((rule name).run_finds hproduction s).mono fun ts next build hmatches hspelled =>
      ⟨h ts next build hspelled hmatches _, ?_⟩
    rw [htext ts next build hspelled hmatches]
    exact forall_mem_none
  have hplain {α : Type} {name : Nonterminal α} (h : Writes name)
      (htext : ∀ a, name.text? a = none) :
      Finds (fun ts next build => Gives name ts next (build (startOf next ts))) s
        ((rule name).run production s) :=
    hgives h fun _ _ _ _ _ _ => htext _
  -- Only a primary and what starts with one can be a text; creations and object literals are
  -- primaries that never are, and the other rules build no primary.
  cases name with
  | program => exact hplain program_writes fun _ => rfl
  | element => exact hplain element_writes fun _ => rfl
  | imports => exact hplain imports_writes fun _ => rfl
  | interfaceDecl => exact hplain interfaceDecl_writes fun _ => rfl
  | interfaceField => exact hplain interfaceField_writes fun _ => rfl
  | constant => exact hplain constant_writes fun _ => rfl
  | classDecl => exact hplain classDecl_writes fun _ => rfl
  | classMember => exact hplain classMember_writes fun _ => rfl
  | constructor => exact hplain constructor_writes fun _ => rfl
  | method => exact hplain method_writes fun _ => rfl
  | property => exact hplain property_writes fun _ => rfl
  | initializer => exact hplain initializer_writes fun _ => rfl
  | arrow => exact hplain arrow_writes fun _ => rfl
  | param => exact hplain param_writes fun _ => rfl
  | typeRef => exact hplain typeRef_writes fun _ => rfl
  | block => exact hplain block_writes fun _ => rfl
  | statement => exact hplain statement_writes fun _ => rfl
  | declaration => exact hplain declaration_writes fun _ => rfl
  | conditional => exact hplain conditional_writes fun _ => rfl
  | returns => exact hplain returns_writes fun _ => rfl
  | throws => exact hplain throws_writes fun _ => rfl
  | exprStatement => exact hplain exprStatement_writes fun _ => rfl
  | expression => exact hplain expression_writes fun _ => rfl
  | chain => exact hplain chain_writes fun _ => rfl
  | link => exact hplain link_writes fun _ => rfl
  | operand => exact operand_finds hproduction s
  | postfixed =>
    refine ((rule .postfixed).run_finds hproduction s).mono ?_
    rintro _ next build hmatches hspelled
    refine ⟨postfixed_writes _ next build hspelled hmatches _, ?_⟩
    -- The text of a postfixed expression is the text of the primary it starts with.
    obtain ⟨⟨primary, suffixes⟩, ⟨us, vs, rfl, hprimary, -⟩, rfl⟩ := hmatches
    rw [List.forall_mem_append] at hspelled
    intro value hvalue
    obtain ⟨t, ht, htext⟩ := (hprimary hspelled.1).2 value hvalue
    refine ⟨t, ?_, htext⟩
    rw [List.head?_append, ht]
    rfl
  | suffix => exact hplain suffix_writes fun _ => rfl
  | arguments => exact hplain arguments_writes fun _ => rfl
  | primary => exact primary_finds hproduction s
  | creation => exact hgives creation_writes (keeps_map keeps_any fun _ _ _ => rfl)
  | objectLiteral => exact hgives objectLiteral_writes (keeps_map keeps_any fun _ _ _ => rfl)
  | objectField => exact hplain objectField_writes fun _ => rfl

end Productions

end Order

/-- **Everything that occurs in a file that was read is legible.** -/
theorem parse_legible {file source : String} {program : Program}
    (h : parse file source = .ok program) : Legible program.nodes := by
  obtain ⟨stream, hscan, hread⟩ := bind_eq_ok.1 h
  have hgives : Gives .program stream.tokens stream.finish program :=
    readAll_eq_ok_of_finds (readNode_finds_of_run rule_finds · _) hread
  exact (hgives (spelled_of_scan hscan)).1

end Source

end Covenant
