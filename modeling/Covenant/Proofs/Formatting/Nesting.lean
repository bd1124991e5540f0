import Covenant.Proofs.Formatting.Lines
import Covenant.Yul.Object

/-!
# The text of objects

An object is written form by form, and every form closes the braces that it opens. What stands
between the braces, that is names, numerals and comments, holds no braces of its own if it is inert;
so no line closes what was not opened (`Stmt.turns_lines`), and formatting never cuts a depth off. A
comment between two dashes is a title: it begins a section, and inert texts make no other one. So
the lines of an object read as its sections do (`Object.reads`).
-/

namespace Covenant

namespace Text

/-- None of some characters stands in a text. -/
def Avoids (chars : List Char) (text : String) : Prop :=
  ∀ c ∈ text.toList, c ∉ chars

instance (chars : List Char) (text : String) : Decidable (Avoids chars text) :=
  List.decidableBAll (fun c => c ∉ chars) text.toList

section Avoids

variable {chars more : List Char} {s t : String} {ss : List String}

@[simp] theorem avoids_append : Avoids chars (s ++ t) ↔ Avoids chars s ∧ Avoids chars t := by
  unfold Avoids
  rw [String.toList_append, List.forall_mem_append]

theorem Avoids.mono (hsubset : chars ⊆ more) (h : Avoids more s) : Avoids chars s :=
  fun c hc hin => h c hc (hsubset hin)

theorem avoids_intercalate (hs : Avoids chars s) (h : ∀ t ∈ ss, Avoids chars t) :
    Avoids chars (s.intercalate ss) := by
  induction ss with
  | nil => exact fun c hc => absurd hc List.not_mem_nil
  | cons first rest ih =>
    rw [List.forall_mem_cons] at h
    cases rest with
    | nil => exact h.1
    | cons second rest =>
      rw [String.intercalate_cons_cons, avoids_append, avoids_append]
      exact ⟨⟨h.1, hs⟩, ih h.2⟩

end Avoids

end Text

namespace Yul

open Text (Avoids avoids_append avoids_intercalate)

variable {d d' d'' : Nat} {s t : String}

/-! ## Depths of a text -/

/-- Without braces the depth stays. -/
theorem depthBehind?_of_avoids {text : List Char} (h : ∀ c ∈ text, c ∉ ['\x7b', '\x7d']) (d : Nat) :
    depthBehind? d text = some d := by
  induction text with
  | nil => rfl
  | cons c text ih =>
    rw [List.forall_mem_cons, List.mem_cons, List.mem_singleton, not_or] at h
    rw [depthBehind?_cons, depthStep?, if_neg h.1.1, if_neg h.1.2]
    exact ih h.2

theorem depthBehind?_of_isBlank {text : List Char} (h : ∀ c ∈ text, Text.isBlank c = true)
    (d : Nat) : depthBehind? d text = some d := by
  have hbrace : ∀ c ∈ ['\x7b', '\x7d'], Text.isBlank c = false := by
    rw [List.forall_mem_cons, List.forall_mem_singleton]
    decide
  refine depthBehind?_of_avoids (fun c hc hin => ?_) d
  exact absurd (h c hc) (by rw [hbrace c hin]; exact Bool.false_ne_true)

/-- Blanks around a text do not change the depth behind it. -/
theorem depthBehind?_trimChars (d : Nat) (text : List Char) :
    depthBehind? d (Text.trimChars text) = depthBehind? d text := by
  have hfront (cs : List Char) :
      depthBehind? d (cs.dropWhile Text.isBlank) = depthBehind? d cs := by
    have hblank := depthBehind?_of_isBlank
      (fun c hc => List.all_eq_true.1 (List.all_takeWhile (p := Text.isBlank) (l := cs)) c hc) d
    conv_rhs => rw [← List.takeWhile_append_dropWhile (p := Text.isBlank) (l := cs)]
    rw [depthBehind?_append, hblank, Option.bind_some]
  have hback (cs : List Char) :
      depthBehind? d (cs.reverse.dropWhile Text.isBlank).reverse = depthBehind? d cs := by
    have hblank : ∀ c ∈ (cs.reverse.takeWhile Text.isBlank).reverse, Text.isBlank c = true := by
      intro c hc
      exact List.all_eq_true.1 List.all_takeWhile c (List.mem_reverse.1 hc)
    have hsplit : (cs.reverse.dropWhile Text.isBlank).reverse
        ++ (cs.reverse.takeWhile Text.isBlank).reverse = cs := by
      rw [← List.reverse_append, List.takeWhile_append_dropWhile, List.reverse_reverse]
    conv_rhs => rw [← hsplit]
    rw [depthBehind?_append]
    cases depthBehind? d (cs.reverse.dropWhile Text.isBlank).reverse with
    | none => rfl
    | some between => rw [Option.bind_some, depthBehind?_of_isBlank hblank]
  rw [Text.trimChars, Text.trimWhere, hback, hfront]

/-! ## Inert texts -/

/-- **A text that is inert**: it holds no brace, breaks no line and can be no part of a title. -/
abbrev Inert (text : String) : Prop :=
  Avoids ['\x7b', '\x7d', '\n', '/', '-'] text

/-- A text without braces, line breaks and comments. -/
abbrev Quiet (text : String) : Prop :=
  Avoids ['\x7b', '\x7d', '\n', '/'] text

theorem Inert.quiet (h : Inert s) : Quiet s :=
  h.mono (by decide)

/-- **A text leads from one depth to another**, within lines and without comments. -/
structure Turns (d d' : Nat) (text : String) : Prop where
  plain : Avoids ['\n', '/'] text
  depth : depthBehind? d text.toList = some d'

/-- Two texts turn the depth one after the other. -/
theorem Turns.append (h : Turns d d' s) (h' : Turns d' d'' t) : Turns d d'' (s ++ t) where
  plain := avoids_append.2 ⟨h.plain, h'.plain⟩
  depth := by
    rw [String.toList_append, depthBehind?_append, h.depth]
    exact h'.depth

/-- A quiet text leaves the depth as it is. -/
theorem turns_of_quiet (h : Quiet s) (d : Nat) : Turns d d s where
  plain := h.mono (by decide)
  depth := depthBehind?_of_avoids (h.mono (by decide)) d

/-- A brace behind a text opens a body. -/
theorem Turns.opened (h : Turns d d' s) : Turns d (d' + 1) (s ++ " \x7b") :=
  h.append ⟨by decide, rfl⟩

/-- A brace on a line of its own closes a body. -/
theorem turns_close (h : Quiet s) (d : Nat) : Turns (d + 1) d (s ++ "\x7d") :=
  (turns_of_quiet h (d + 1)).append ⟨by decide, rfl⟩

theorem depthBehind?_intercalate (d : Nat) (lines : List String) :
    depthBehind? d (" ".intercalate lines).toList = depthBehind? d (String.join lines).toList := by
  induction lines generalizing d with
  | nil => rfl
  | cons first rest ih =>
    cases rest with
    | nil =>
      rw [String.join_cons, String.join_nil, String.append_empty]
      rfl
    | cons second rest =>
      rw [String.intercalate_cons_cons, String.join_cons, String.toList_append,
        String.toList_append, String.toList_append, depthBehind?_append, depthBehind?_append,
        depthBehind?_append]
      cases depthBehind? d first.toList with
      | none => rfl
      | some between => exact ih between

theorem avoids_join {chars : List Char} {lines : List String} :
    Avoids chars (String.join lines) ↔ ∀ line ∈ lines, Avoids chars line := by
  induction lines with
  | nil => simp [Avoids]
  | cons line lines ih => rw [String.join_cons, avoids_append, ih, List.forall_mem_cons]

/-- Lines between braces, on one line. -/
theorem turns_braced {lines : List String} (h : Turns (d + 1) (d + 1) (String.join lines)) :
    Turns d d (braced lines) := by
  have hlines : Turns (d + 1) (d + 1) (" ".intercalate lines) :=
    ⟨avoids_intercalate (by decide) (avoids_join.1 h.plain),
      (depthBehind?_intercalate _ lines).trans h.depth⟩
  have hopen : Turns d (d + 1) "\x7b " := ⟨by decide, rfl⟩
  have hclose : Turns (d + 1) d " \x7d" := ⟨by decide, rfl⟩
  exact (hopen.append hlines).append hclose

/-! ## Expressions and statements -/

namespace Expr

mutual
/-- **The words of an expression**, as they are written: what stands there besides the names it
applies. -/
def words : Expr → List String
  | literal numeral => [numeral]
  | quoted name => [Text.quote name]
  | var name => [name]
  | call _ args => wordsAll args

/-- The words of several expressions. -/
def wordsAll : List Expr → List String
  | [] => []
  | e :: es => e.words ++ wordsAll es
end

mutual
/-- **What is made of inert texts is inert.** -/
theorem inert_render : ∀ {e : Expr}, (∀ name ∈ e.calls, Inert name) →
    (∀ word ∈ e.words, Inert word) → Inert e.render
  | literal _, _, hwords | quoted _, _, hwords | var _, _, hwords =>
    hwords _ (List.mem_singleton.2 rfl)
  | call function args, hcalls, hwords => by
    rw [calls, List.forall_mem_cons] at hcalls
    have hargs := avoids_intercalate (s := ", ") (by decide) (inert_renderAll hcalls.2 hwords)
    rw [render]
    simp only [avoids_append]
    exact ⟨⟨⟨hcalls.1, by decide⟩, hargs⟩, by decide⟩

theorem inert_renderAll : ∀ {es : List Expr}, (∀ name ∈ callsAll es, Inert name) →
    (∀ word ∈ wordsAll es, Inert word) → ∀ text ∈ renderAll es, Inert text
  | [], _, _ => List.forall_mem_nil _
  | e :: es, hcalls, hwords => by
    rw [callsAll, List.forall_mem_append] at hcalls
    rw [wordsAll, List.forall_mem_append] at hwords
    exact List.forall_mem_cons.2
      ⟨inert_render hcalls.1 hwords.1, inert_renderAll hcalls.2 hwords.2⟩
end

end Expr

namespace Stmt

mutual
/-- **The words of a statement**: the names it gives to variables, and the words of its
expressions. -/
def words : Stmt → List String
  | evaluate value => value.words
  | declare names (some value) => names ++ value.words
  | declare names none => names
  | assign name value => name :: value.words
  | block body => wordsAll body
  | ifThen condition body => condition.words ++ wordsAll body
  | guard condition action => condition.words ++ action.words
  | ifZero condition zero other => condition.words ++ wordsAll zero ++ wordsAll other
  | loop condition step body => condition.words ++ step.words ++ wordsAll body
  | leave => []
  | stop => []

/-- The words of several statements. -/
def wordsAll : List Stmt → List String
  | [] => []
  | s :: ss => s.words ++ wordsAll ss
end

theorem quiet_names {names : List String} (h : ∀ name ∈ names, Inert name) :
    Quiet (", ".intercalate names) :=
  avoids_intercalate (by decide) fun name hname => (h name hname).quiet

theorem turns_line (h : Turns d d' s) : Turns d d' (String.join [s]) := by
  rwa [String.join_cons, String.join_nil, String.append_empty]

/-- A body between an opening line and a closing one. -/
theorem turns_body {front back : String} {lines : List String} (hfront : Turns d (d + 1) front)
    (hlines : Turns (d + 1) (d + 1) (String.join lines)) (hback : Turns (d + 1) d back) :
    Turns d d (String.join (front :: lines ++ [back])) := by
  rw [String.join_append, String.join_cons, String.join_cons, String.join_nil, String.append_empty]
  exact (hfront.append hlines).append hback

mutual
/-- **A statement closes what it opens**, and is written without comments. -/
theorem turns_lines : ∀ {s : Stmt} {step margin : String}, Quiet step → Quiet margin →
    (∀ name ∈ s.calls, Inert name) → (∀ word ∈ s.words, Inert word) →
    ∀ d, Turns d d (String.join (s.lines step margin))
  | evaluate _, _, _, _, hmargin, hcalls, hwords, d =>
    turns_line (turns_of_quiet (avoids_append.2
      ⟨hmargin, (Expr.inert_render hcalls hwords).quiet⟩) d)
  | declare names none, _, _, _, hmargin, _, hwords, d => by
    have hnames := quiet_names hwords
    rw [lines]
    refine turns_line (turns_of_quiet ?_ d)
    simp only [avoids_append]
    exact ⟨⟨hmargin, by decide⟩, hnames⟩
  | declare names (some value), _, _, _, hmargin, hcalls, hwords, d => by
    rw [words, List.forall_mem_append] at hwords
    have hnames := quiet_names hwords.1
    have hvalue := (Expr.inert_render hcalls hwords.2).quiet
    rw [lines]
    refine turns_line (turns_of_quiet ?_ d)
    simp only [avoids_append]
    exact ⟨⟨⟨⟨hmargin, by decide⟩, hnames⟩, by decide⟩, hvalue⟩
  | assign name value, _, _, _, hmargin, hcalls, hwords, d => by
    rw [words, List.forall_mem_cons] at hwords
    have hvalue := (Expr.inert_render hcalls hwords.2).quiet
    rw [lines]
    refine turns_line (turns_of_quiet ?_ d)
    simp only [avoids_append]
    exact ⟨⟨⟨hmargin, hwords.1.quiet⟩, by decide⟩, hvalue⟩
  | block body, _, _, hstep, hmargin, hcalls, hwords, d => by
    have hbody := turns_linesAll hstep (avoids_append.2 ⟨hmargin, hstep⟩) hcalls hwords (d + 1)
    have hopen : Turns d (d + 1) "\x7b" := ⟨by decide, rfl⟩
    rw [lines]
    exact turns_body ((turns_of_quiet hmargin d).append hopen) hbody (turns_close hmargin d)
  | ifThen condition body, _, _, hstep, hmargin, hcalls, hwords, d => by
    rw [calls, List.forall_mem_append] at hcalls
    rw [words, List.forall_mem_append] at hwords
    have hcondition := (Expr.inert_render hcalls.1 hwords.1).quiet
    have hbody := turns_linesAll hstep (avoids_append.2 ⟨hmargin, hstep⟩) hcalls.2 hwords.2 (d + 1)
    have hhead : Quiet "if " := by decide
    rw [lines]
    refine turns_body (Turns.opened (turns_of_quiet ?_ d)) hbody (turns_close hmargin d)
    simp only [avoids_append]
    exact ⟨⟨hmargin, hhead⟩, hcondition⟩
  | guard condition action, _, _, _, hmargin, hcalls, hwords, d => by
    rw [calls, List.forall_mem_append] at hcalls
    rw [words, List.forall_mem_append] at hwords
    have hcondition := (Expr.inert_render hcalls.1 hwords.1).quiet
    -- The guarded action is written on the same line, with no step and no margin of its own.
    have haction : Turns (d + 1) (d + 1) (String.join (action.lines "" "")) :=
      turns_lines (by decide) (by decide) hcalls.2 hwords.2 (d + 1)
    rw [lines]
    refine turns_line (Turns.append (turns_of_quiet ?_ d) (turns_braced haction))
    simp only [avoids_append]
    exact ⟨⟨⟨hmargin, by decide⟩, hcondition⟩, by decide⟩
  | ifZero condition zero other, _, _, hstep, hmargin, hcalls, hwords, d => by
    rw [calls, List.forall_mem_append, List.forall_mem_append] at hcalls
    rw [words, List.forall_mem_append, List.forall_mem_append] at hwords
    obtain ⟨⟨hcondition, hzero⟩, hother⟩ := hcalls
    have hmore := avoids_append.2 ⟨hmargin, hstep⟩
    have hzero := turns_linesAll hstep hmore hzero hwords.1.2 (d + 1)
    have hother := turns_linesAll hstep hmore hother hwords.2 (d + 1)
    have hcondition := (Expr.inert_render hcondition hwords.1.1).quiet
    have hcase : Turns d (d + 1) "case 0 \x7b" := ⟨by decide, rfl⟩
    have hdefault : Turns d (d + 1) "default \x7b" := ⟨by decide, rfl⟩
    -- Two blocks at one depth: the first is closed before the second is opened.
    have hswitch := turns_of_quiet (avoids_append.2 ⟨avoids_append.2
      ⟨hmargin, (by decide : Quiet "switch ")⟩, hcondition⟩) d
    have hfirst := turns_body ((turns_of_quiet hmargin d).append hcase) hzero
      (turns_close hmargin d)
    have hsecond := turns_body ((turns_of_quiet hmargin d).append hdefault) hother
      (turns_close hmargin d)
    rw [lines]
    simpa only [String.join_append, String.join_cons, String.join_nil, String.append_empty,
      String.append_assoc] using (hswitch.append hfirst).append hsecond
  | loop condition after body, _, _, hstep, hmargin, hcalls, hwords, d => by
    rw [calls, List.forall_mem_append, List.forall_mem_append] at hcalls
    rw [words, List.forall_mem_append, List.forall_mem_append] at hwords
    obtain ⟨⟨hcondition, hafter⟩, hbody⟩ := hcalls
    have hbody := turns_linesAll hstep (avoids_append.2 ⟨hmargin, hstep⟩) hbody hwords.2 (d + 1)
    have hafter : Turns (d + 1) (d + 1) (String.join (after.lines "" "")) :=
      turns_lines (by decide) (by decide) hafter hwords.1.2 (d + 1)
    have hcondition := (Expr.inert_render hcondition hwords.1.1).quiet
    have hfor : Turns d d "for \x7b \x7d " := ⟨by decide, rfl⟩
    have hblank : Turns d d " " := ⟨by decide, rfl⟩
    have hhead := (((turns_of_quiet hmargin d).append hfor).append
      (turns_of_quiet hcondition d)).append hblank
    rw [lines]
    exact turns_body (hhead.append (turns_braced hafter)).opened hbody (turns_close hmargin d)
  | leave, _, _, _, hmargin, _, _, d =>
    turns_line (turns_of_quiet (avoids_append.2 ⟨hmargin, by decide⟩) d)
  | stop, _, _, _, hmargin, _, _, d =>
    turns_line (turns_of_quiet (avoids_append.2 ⟨hmargin, by decide⟩) d)

/-- A body closes what it opens. -/
theorem turns_linesAll : ∀ {body : List Stmt} {step margin : String}, Quiet step → Quiet margin →
    (∀ name ∈ callsAll body, Inert name) → (∀ word ∈ wordsAll body, Inert word) →
    ∀ d, Turns d d (String.join (linesAll step margin body))
  | [], _, _, _, _, _, _, d => turns_of_quiet (s := "") (by decide) d
  | s :: rest, _, _, hstep, hmargin, hcalls, hwords, d => by
    rw [callsAll, List.forall_mem_append] at hcalls
    rw [wordsAll, List.forall_mem_append] at hwords
    have hfirst := turns_lines hstep hmargin hcalls.1 hwords.1 d
    have hrest := turns_linesAll hstep hmargin hcalls.2 hwords.2 d
    rw [linesAll, String.join_append]
    exact hfirst.append hrest
end

end Stmt

/-! ## Functions -/

theorem turns_end (d : Nat) : Turns (d + 1) d "\x7d" :=
  ⟨by decide, rfl⟩

namespace Function

variable {f : Function}

/-- **The words of a function**: its name, those of its variables, and the words of its body. -/
def words (f : Function) : List String :=
  f.name :: (f.params ++ f.results ++ Stmt.wordsAll f.body)

theorem quiet_header (h : ∀ word ∈ f.words, Inert word) : Quiet f.header := by
  rw [words, List.forall_mem_cons, List.forall_mem_append, List.forall_mem_append] at h
  obtain ⟨hname, ⟨hparams, hresults⟩, -⟩ := h
  have hparams := Stmt.quiet_names hparams
  have hresults := Stmt.quiet_names hresults
  unfold header
  simp only [avoids_append]
  refine ⟨⟨⟨⟨⟨by decide, hname.quiet⟩, by decide⟩, hparams⟩, by decide⟩, ?_⟩
  split
  · decide
  · exact avoids_append.2 ⟨by decide, hresults⟩

/-- **A function closes what it opens**, however it is written. -/
theorem turns_lines (hcalls : ∀ name ∈ f.calls, Inert name) (hwords : ∀ word ∈ f.words, Inert word)
    (setting : Setting) (d : Nat) : Turns d d (String.join (f.lines setting)) := by
  have hheader := turns_of_quiet (quiet_header hwords) d
  rw [words, List.forall_mem_cons, List.forall_mem_append] at hwords
  have hbody {step : String} (hstep : Quiet step) :
      Turns (d + 1) (d + 1) (String.join (Stmt.linesAll step step f.body)) :=
    Stmt.turns_linesAll hstep hstep hcalls hwords.2.2 (d + 1)
  cases setting with
  | inline =>
    have hblank : Turns d d " " := ⟨by decide, rfl⟩
    exact Stmt.turns_line ((hheader.append hblank).append (turns_braced (hbody (by decide))))
  | flat =>
    exact Stmt.turns_body hheader.opened (hbody (by decide)) (turns_end d)
  | indented =>
    have hblank : Turns d d "" := ⟨by decide, rfl⟩
    exact hblank.append
      (Stmt.turns_body hheader.opened (hbody (by decide)) (turns_end d))

end Function

/-! ## Lines that are read -/

/-- **Formatting passes from one depth to another** over some lines: of no line the leading braces
are cut off, nor those behind them. -/
inductive Unclamped : Nat → List (List Char) → Nat → Prop
  | nil {d : Nat} : Unclamped d [] d
  | cons {d d' : Nat} {line rest} (hleading : leadingClosers line ≤ d)
      (hbehind : (line.dropWhile (· = '\x7d')).count '\x7d' ≤
        d - leadingClosers line + (line.dropWhile (· = '\x7d')).count '\x7b')
      (hrest : Unclamped (depthAfter d line) rest d') : Unclamped d (line :: rest) d'

theorem Unclamped.append {first second : List (List Char)} (h : Unclamped d first d')
    (h' : Unclamped d' second d'') : Unclamped d (first ++ second) d'' := by
  induction h with
  | nil => exact h'
  | cons hleading hbehind _ ih => exact .cons hleading hbehind (ih h')

/-- The lines among some others that formatting keeps. -/
def keptAmong (lines : List (List Char)) : List (List Char) :=
  (lines.map Text.trimChars).filter fun line => !line.isEmpty && !isTitle line

/-- The titles among some lines. -/
def titlesAmong (lines : List (List Char)) : List String :=
  (((lines.map Text.trimChars).filter isTitle).map titleOf).map String.ofList

/-- **Lines are read**: none is broken, they lead from one depth to another, also as formatting
counts, and these are their titles. -/
structure Reads (lines : List String) (d d' : Nat) (titles : List String) : Prop where
  unbroken : ∀ line ∈ lines, '\n' ∉ line.toList
  depth : depthBehind? d (String.join lines).toList = some d'
  unclamped : Unclamped d (keptAmong (lines.map String.toList)) d'
  titles : titlesAmong (lines.map String.toList) = titles

section Reads

variable {lines more : List String} {titles rest : List String}

theorem reads_nil (d : Nat) : Reads [] d d [] :=
  ⟨List.forall_mem_nil _, rfl, .nil, rfl⟩

/-- Lines that are read one after the other, with the titles of both. -/
theorem Reads.append (h : Reads lines d d' titles) (h' : Reads more d' d'' rest) :
    Reads (lines ++ more) d d'' (titles ++ rest) where
  unbroken := List.forall_mem_append.2 ⟨h.unbroken, h'.unbroken⟩
  depth := by
    rw [String.join_append, String.toList_append, depthBehind?_append, h.depth]
    exact h'.depth
  unclamped := by
    rw [keptAmong, List.map_append, List.map_append, List.filter_append]
    exact h.unclamped.append h'.unclamped
  titles := by
    rw [titlesAmong, List.map_append, List.map_append, List.filter_append, List.map_append,
      List.map_append]
    exact congrArg₂ (· ++ ·) h.titles h'.titles

theorem reads_flatMap {α : Type} {f g : α → List String} {as : List α}
    (h : ∀ a ∈ as, Reads (f a) d d (g a)) : Reads (as.flatMap f) d d (as.flatMap g) := by
  induction as with
  | nil => exact reads_nil d
  | cons a as ih =>
    rw [List.forall_mem_cons] at h
    exact h.1.append (ih h.2)

/-- Without titles in the parts there is none in the whole. -/
theorem reads_untitled {α : Type} {f : α → List String} {as : List α}
    (h : ∀ a ∈ as, Reads (f a) d d []) : Reads (as.flatMap f) d d [] := by
  have hall := reads_flatMap h
  rwa [List.flatMap_eq_nil_iff.2 fun _ _ => rfl] at hall

theorem isTitle_eq_false {line : List Char} (h : '/' ∉ line ∨ '-' ∉ line) :
    isTitle line = false := by
  unfold isTitle
  split
  · split
    · rename_i rest _ _ _ htitle
      -- a title holds both marks
      have hmem : '-' ∈ rest := by
        refine (List.dropWhile_suffix isMarkBlank).subset ?_
        rw [htitle]
        exact List.mem_cons_self
      simp [hmem] at h
    · rfl
  · rfl

/-- A line that is no comment, or holds no dash, is no title. -/
theorem reads_line (hbreak : '\n' ∉ s.toList) (hmark : '/' ∉ s.toList ∨ '-' ∉ s.toList)
    (h : depthBehind? d s.toList = some d') : Reads [s] d d' [] := by
  have htrim : depthBehind? d (Text.trimChars s.toList) = some d' :=
    (depthBehind?_trimChars d _).trans h
  have huntitled : isTitle (Text.trimChars s.toList) = false :=
    isTitle_eq_false (hmark.imp (fun hslash hin => hslash (Text.mem_of_mem_trimWhere hin))
      fun hdash hin => hdash (Text.mem_of_mem_trimWhere hin))
  refine ⟨List.forall_mem_singleton.2 hbreak, ?_, ?_, ?_⟩
  · rwa [String.join_cons, String.join_nil, String.append_empty]
  · rw [keptAmong, List.map_cons, List.map_nil, List.map_cons, List.map_nil,
      List.filter_singleton, huntitled]
    cases htext : Text.trimChars s.toList with
    | nil =>
      rw [htext] at htrim
      cases htrim
      exact .nil
    | cons c line =>
      rw [htext] at htrim
      obtain ⟨hleading, hbehind, hafter⟩ := depthAfter_eq htrim
      exact .cons hleading hbehind (hafter ▸ .nil)
  · rw [titlesAmong, List.map_cons, List.map_nil, List.map_cons, List.map_nil,
      List.filter_singleton, huntitled]
    rfl

/-- Without comments there are no titles. -/
theorem Turns.reads (h : Turns d d' (String.join lines)) : Reads lines d d' [] := by
  induction lines generalizing d with
  | nil =>
    cases h.depth
    exact reads_nil _
  | cons line lines ih =>
    obtain ⟨hplain, hdepth⟩ := h
    rw [String.join_cons, avoids_append] at hplain
    rw [String.join_cons, String.toList_append, depthBehind?_append] at hdepth
    obtain ⟨between, hfirst, hrest⟩ := Option.bind_eq_some_iff.1 hdepth
    have hbreak : '\n' ∉ line.toList := fun hin => hplain.1 _ hin (by decide)
    have hslash : '/' ∉ line.toList := fun hin => hplain.1 _ hin (by decide)
    exact (reads_line hbreak (.inl hslash) hfirst).append (ih ⟨hplain.2, hrest⟩)

theorem reads_turns_line (h : Turns d d' s) : Reads [s] d d' [] :=
  (Stmt.turns_line h).reads

end Reads

/-! ## Sections -/

/-- **The titles of the sections of a piece of code**, in the order in which they stand: in the code
that creates the contract, or in the code that stays. -/
def sectionTitles : Bool → List String
  | true => ["Constructor", "Constructor Functions", "Constructor Storage Layout",
    "Constructor Storage Access", "Constructor Events", "Constructor Helpers"]
  | false => ["Dispatcher", "Functions", "Storage Layout", "Storage Access", "Events", "Helpers"]

/-- A title is read as such, and leaves the depth as it is. -/
theorem reads_title {creation : Bool} {title : String} (h : title ∈ sectionTitles creation)
    (d : Nat) : Reads ["// - " ++ title ++ " -"] d d [title] := by
  have hall : ∀ creation, ∀ title ∈ sectionTitles creation,
      Avoids ['\x7b', '\x7d', '\n'] ("// - " ++ title ++ " -") ∧
      keptAmong [("// - " ++ title ++ " -").toList] = [] ∧
      titlesAmong [("// - " ++ title ++ " -").toList] = [title] := by
    decide +kernel
  obtain ⟨havoids, hkept, htitles⟩ := hall creation title h
  refine ⟨List.forall_mem_singleton.2 fun hin => havoids _ hin (by decide), ?_, ?_, htitles⟩
  · rw [String.join_cons, String.join_nil, String.append_empty]
    exact depthBehind?_of_avoids (havoids.mono (by decide)) d
  · rw [List.map_cons, List.map_nil, hkept]
    exact .nil

/-- The words of a case, its comment among them. -/
def Case.words (c : Case) : List String :=
  c.label :: c.comment :: Stmt.wordsAll c.body

/-- **The words of an item.** -/
def Item.words : Item → List String
  | .statement s => s.words
  | .function _ f => f.words
  | .choice subject cases fallback =>
    subject.words ++ cases.flatMap Case.words ++ fallback.words

theorem Case.reads {c : Case} (hcalls : ∀ name ∈ Stmt.callsAll c.body, Inert name)
    (hwords : ∀ word ∈ c.words, Inert word) (d : Nat) : Reads c.lines d d [] := by
  rw [words, List.forall_mem_cons, List.forall_mem_cons] at hwords
  obtain ⟨hlabel, hcomment, hwords⟩ := hwords
  have hcase : Quiet ("case " ++ c.label) := avoids_append.2 ⟨by decide, hlabel.quiet⟩
  have hopen := reads_turns_line (turns_of_quiet hcase d).opened
  have hbody : Turns (d + 1) (d + 1) (String.join (Stmt.linesAll "" "" c.body)) :=
    Stmt.turns_linesAll (by decide) (by decide) hcalls hwords (d + 1)
  have hclose := reads_turns_line (turns_end d)
  -- the signature holds no dash, so the comment is no title
  have hline : Avoids ['\x7b', '\x7d', '\n', '-'] ("// " ++ c.comment) :=
    avoids_append.2 ⟨by decide, hcomment.mono (by decide)⟩
  have hremark : Reads ["// " ++ c.comment] (d + 1) (d + 1) [] :=
    reads_line (fun hin => hline _ hin (by decide)) (.inr fun hin => hline _ hin (by decide))
      (depthBehind?_of_avoids (hline.mono (by decide)) _)
  exact (hopen.append (hremark.append hbody.reads)).append hclose

/-- **An item whose text is plain**: what it applies and its words are inert. -/
structure Item.Plain (item : Item) : Prop where
  calls : ∀ name ∈ item.calls, Inert name
  words : ∀ word ∈ item.words, Inert word

/-- An item closes what it opens, and holds no titles. -/
theorem Item.Plain.reads {item : Item} (h : item.Plain) (d : Nat) : Reads item.lines d d [] := by
  obtain ⟨hcalls, hwords⟩ := h
  cases item with
  | statement s => exact (Stmt.turns_lines (by decide) (by decide) hcalls hwords d).reads
  | function setting f => exact (Function.turns_lines hcalls hwords setting d).reads
  | choice subject cases fallback =>
    rw [Item.calls, List.forall_mem_append, List.forall_mem_append] at hcalls
    rw [Item.words, List.forall_mem_append, List.forall_mem_append] at hwords
    obtain ⟨⟨hsubject, hcases⟩, hfallback⟩ := hcalls
    have hsubject := (Expr.inert_render hsubject hwords.1.1).quiet
    have hswitch : Quiet ("switch " ++ subject.render) := avoids_append.2 ⟨by decide, hsubject⟩
    have hfallback : Turns (d + 1) (d + 1) (String.join (fallback.lines "" "")) :=
      Stmt.turns_lines (by decide) (by decide) hfallback hwords.2 (d + 1)
    have hdefault : Turns d d "default " := ⟨by decide, rfl⟩
    have heach : Reads (cases.flatMap Case.lines) d d [] :=
      reads_untitled fun c hc => Case.reads
        (fun name hname => hcases name (List.mem_flatMap.2 ⟨c, hc, hname⟩))
        (fun word hword => hwords.1.2 word (List.mem_flatMap.2 ⟨c, hc, hword⟩)) d
    exact ((reads_turns_line (turns_of_quiet hswitch d)).append heach).append
      (reads_turns_line (hdefault.append (turns_braced hfallback)))

/-- **Code whose text is plain**: its items are, and its sections are the documented ones. -/
structure Code.Plain (creation : Bool) (code : Code) : Prop where
  items : ∀ s ∈ code, ∀ item ∈ s.items, item.Plain
  titles : code.map Section.title = sectionTitles creation

/-- **Code reads as its sections.** -/
theorem Code.Plain.reads {creation : Bool} {code : Code} (h : Code.Plain creation code) (d : Nat) :
    Reads code.lines d d (sectionTitles creation) := by
  have hopen : Reads ["code \x7b"] d (d + 1) [] := reads_turns_line ⟨by decide, rfl⟩
  have hsections : Reads (code.flatMap Section.lines) (d + 1) (d + 1)
      (code.flatMap fun s => [s.title]) := by
    refine reads_flatMap fun s hs => ?_
    have htitle : s.title ∈ sectionTitles creation := h.titles ▸ List.mem_map_of_mem hs
    exact (reads_title htitle (d + 1)).append
      (reads_untitled fun item hitem => (h.items s hs item hitem).reads (d + 1))
  have hall := (hopen.append hsections).append (reads_turns_line (turns_end d))
  rw [← List.map_eq_flatMap, h.titles, List.append_nil] at hall
  exact hall

/-! ## Objects -/

namespace Object

mutual
/-- **The titles of an object in order**: those of the code that creates the contract, those of the
code that stays, and then those of the objects that the code that stays deploys, and of the objects
that the code that creates the contract deploys. -/
def titlesInOrder : Object → List String
  | mk _ _ _ byCreation byRuntime =>
    sectionTitles true ++ sectionTitles false ++ titlesInOrderAll byRuntime
      ++ titlesInOrderAll byCreation

/-- The titles of several objects. -/
def titlesInOrderAll : List Object → List String
  | [] => []
  | o :: os => o.titlesInOrder ++ titlesInOrderAll os
end

theorem linesAll_eq_flatMap (os : List Object) : linesAll os = os.flatMap lines := by
  induction os with
  | nil => rfl
  | cons o os ih => rw [linesAll, ih, List.flatMap_cons]

theorem titlesInOrderAll_eq_flatMap (os : List Object) :
    titlesInOrderAll os = os.flatMap titlesInOrder := by
  induction os with
  | nil => rfl
  | cons o os ih => rw [titlesInOrderAll, ih, List.flatMap_cons]

/-- **An object whose text is plain**, with all objects within it. -/
inductive Plain : Object → Prop
  | mk {name created staying byCreation byRuntime} (hname : Inert (Text.quote name))
      (hruntimeName : Inert (Text.quote (runtimeName name))) (hcreated : Code.Plain true created)
      (hstaying : Code.Plain false staying) (hbyCreation : ∀ o ∈ byCreation, Plain o)
      (hbyRuntime : ∀ o ∈ byRuntime, Plain o) :
      Plain (mk name created staying byCreation byRuntime)

/-- **The lines of an object read as its sections in order.** -/
theorem Plain.reads {o : Object} (h : o.Plain) (d : Nat) : Reads o.lines d d o.titlesInOrder := by
  induction h generalizing d with
  | @mk name created staying byCreation byRuntime hname hruntimeName hcreated hstaying _ _
      ihCreation ihRuntime =>
    have hheader {name : String} (h : Inert (Text.quote name)) (d : Nat) :
        Reads ["object " ++ Text.quote name ++ " \x7b"] d (d + 1) [] :=
      reads_turns_line (Turns.opened (turns_of_quiet (avoids_append.2 ⟨by decide, h.quiet⟩) d))
    have hend (d : Nat) : Reads ["\x7d"] (d + 1) d [] := reads_turns_line (turns_end d)
    have hruntime := reads_flatMap fun o ho => ihRuntime o ho (d + 2)
    have hcreation := reads_flatMap fun o ho => ihCreation o ho (d + 1)
    have hinner := (((hheader hruntimeName (d + 1)).append (hstaying.reads (d + 2))).append
      hruntime).append (hend (d + 1))
    have houter := (((hheader hname d).append (hcreated.reads (d + 1))).append
      (hinner.append hcreation)).append (hend d)
    rw [← linesAll_eq_flatMap, ← linesAll_eq_flatMap, ← titlesInOrderAll_eq_flatMap,
      ← titlesInOrderAll_eq_flatMap] at houter
    simpa only [lines, titlesInOrder, List.append_assoc, List.cons_append, List.nil_append,
      List.append_nil] using houter

end Object

/-! ## The text of lines -/

/-- **A text whose lines are read** is nested and closes what it opens, formatting never cuts a
depth off and ends where it starts, and these are the titles of its sections. -/
theorem Reads.text {lines titles : List String} (h : Reads lines 0 0 titles) {text : String}
    (htext : text = String.join (lines.map (· ++ "\n"))) :
    Nested 0 text.toList ∧ text.toList.count '\x7b' = text.toList.count '\x7d' ∧
      Unclamped 0 (keptLines text.toList) 0 ∧ Yul.titles text = titles := by
  have hchars : text.toList = (lines.map String.toList).flatMap (· ++ ['\n']) := by
    rw [htext, String.toList_join, List.flatMap_map, List.flatMap_map]
    refine congrArg (List.flatMap · lines) (funext fun line => ?_)
    exact String.toList_append
  have hunbroken : ∀ line ∈ lines.map String.toList, '\n' ∉ line := List.forall_mem_map.2 h.unbroken
  have hlines : splitLines text.toList = lines.map String.toList ++ [[]] := by
    rw [hchars, splitLines_lines hunbroken]
  -- line breaks are no braces
  have hbreaks (ls : List (List Char)) (d : Nat) :
      depthBehind? d (ls.flatMap (· ++ ['\n'])) = depthBehind? d ls.flatten := by
    induction ls generalizing d with
    | nil => rfl
    | cons line ls ih =>
      rw [List.flatMap_cons, List.flatten_cons, List.append_assoc, depthBehind?_append,
        depthBehind?_append]
      exact congrArg (Option.bind _) (funext fun between => ih between)
  have hdepth : depthBehind? 0 text.toList = some 0 := by
    rw [hchars, hbreaks, ← h.depth, String.toList_join, List.flatMap_def]
  have hempty : Text.trimChars [] = [] := rfl
  refine ⟨isSome_depthBehind?_iff.1 (by rw [hdepth]; rfl), ?_, ?_, ?_⟩
  · have hcount := depthBehind?_eq_some hdepth
    omega
  · have hkept : keptLines text.toList = keptAmong (lines.map String.toList) := by
      rw [keptLines, trimmedLines, hlines, List.map_append, List.filter_append]
      exact List.append_nil _
    rw [hkept]
    exact h.unclamped
  · rw [Yul.titles, trimmedLines, hlines, List.map_append, List.filter_append]
    exact (congrArg _ (congrArg _ (List.append_nil _))).trans h.titles

end Yul

end Covenant
