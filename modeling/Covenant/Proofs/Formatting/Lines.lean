import Covenant.Yul.Format
import Mathlib.Data.List.Infix

/-!
# Formatted text

Formatting keeps the lines that say something and decides anew how far they are set in. So a second
pass finds the same lines (`keptLines_format`) and no titles, and changes nothing. The depths it
works with are cut off at zero; as long as no brace is closed that was not opened, they are the
numbers of open braces (`depthAfter_eq`).
-/

namespace Covenant

namespace Text

/-! ## Trimmed text -/

variable {p : Char → Bool} {cs : List Char}

theorem trimWhere_sublist (p : Char → Bool) (cs : List Char) :
    trimWhere p cs <+: cs.dropWhile p := by
  rw [trimWhere, ← List.reverse_suffix, List.reverse_reverse]
  exact List.dropWhile_suffix p

theorem mem_of_mem_trimWhere {c : Char} (h : c ∈ trimWhere p cs) : c ∈ cs :=
  (List.dropWhile_suffix p).subset ((trimWhere_sublist p cs).subset h)

/-- What neither starts nor ends with a character of the class is left as it is. -/
theorem trimWhere_eq_self (hfirst : ∀ c ∈ cs.head?, p c = false)
    (hlast : ∀ c ∈ cs.getLast?, p c = false) : trimWhere p cs = cs := by
  have hkeep (ds : List Char) (h : ∀ c ∈ ds.head?, p c = false) : ds.dropWhile p = ds := by
    cases ds with
    | nil => rfl
    | cons d ds => rw [List.dropWhile_cons_of_neg (by simp [h d rfl])]
  rw [trimWhere, hkeep cs hfirst, hkeep cs.reverse (by rwa [List.head?_reverse]),
    List.reverse_reverse]

theorem head?_dropWhile (cs : List Char) : ∀ c ∈ (cs.dropWhile p).head?, p c = false := by
  intro c hc
  have hall := List.head?_dropWhile_not p cs
  rw [Option.mem_def.1 hc] at hall
  simpa using hall

/-- Trimmed text is left as it is. -/
theorem trimWhere_trimWhere (p : Char → Bool) (cs : List Char) :
    trimWhere p (trimWhere p cs) = trimWhere p cs := by
  refine trimWhere_eq_self (fun c hc => ?_) (fun c hc => ?_)
  · -- the first character is the first behind those dropped in front
    obtain ⟨rest, hrest⟩ := trimWhere_sublist p cs
    refine head?_dropWhile cs c ?_
    rw [← hrest, List.head?_append, Option.mem_def.1 hc]
    rfl
  · rw [trimWhere, List.getLast?_reverse] at hc
    exact head?_dropWhile _ c hc

/-- Characters of the class in front of a text are dropped with those the text starts with. -/
theorem trimWhere_append_left {front : List Char} (h : ∀ c ∈ front, p c = true) (cs : List Char) :
    trimWhere p (front ++ cs) = trimWhere p cs := by
  rw [trimWhere, trimWhere, List.dropWhile_append_of_pos h]

end Text

namespace Yul

/-! ## Lines -/

variable {line text : List Char} {lines : List (List Char)} {d d' : Nat}

theorem splitLines_ne_nil (text : List Char) : splitLines text ≠ [] := by
  cases text with
  | nil => exact List.cons_ne_nil _ _
  | cons c text =>
    rw [splitLines, List.foldr_cons]
    unfold consLine
    split
    · split <;> exact List.cons_ne_nil _ _
    · exact List.cons_ne_nil _ _

theorem splitLines_newline (text : List Char) :
    splitLines ('\n' :: text) = [] :: splitLines text := by
  obtain ⟨first, rest, hsplit⟩ := List.exists_cons_of_ne_nil (splitLines_ne_nil text)
  have hcons : splitLines ('\n' :: text) = consLine '\n' (splitLines text) := rfl
  rw [hcons, hsplit, consLine, if_pos rfl]

/-- A line up to its break is the first line of the text. -/
theorem splitLines_line (hline : '\n' ∉ line) (text : List Char) :
    splitLines (line ++ '\n' :: text) = line :: splitLines text := by
  induction line with
  | nil => exact splitLines_newline text
  | cons c line ih =>
    rw [List.mem_cons, not_or] at hline
    have hrest := ih hline.2
    rw [splitLines] at hrest ⊢
    rw [List.cons_append, List.foldr_cons, hrest, consLine, if_neg (Ne.symm hline.1)]

/-- **Lines written one after the other** are read back; behind the last break stands nothing. -/
theorem splitLines_lines (h : ∀ line ∈ lines, '\n' ∉ line) :
    splitLines (lines.flatMap (· ++ ['\n'])) = lines ++ [[]] := by
  induction lines with
  | nil => rfl
  | cons line lines ih =>
    rw [List.forall_mem_cons] at h
    rw [List.flatMap_cons, List.append_assoc, List.singleton_append, splitLines_line h.1, ih h.2,
      List.cons_append]

/-- Lines hold no line breaks. -/
theorem newline_not_mem_splitLines (text : List Char) : ∀ line ∈ splitLines text, '\n' ∉ line := by
  induction text with
  | nil => simp [splitLines]
  | cons c text ih =>
    obtain ⟨first, rest, hsplit⟩ := List.exists_cons_of_ne_nil (splitLines_ne_nil text)
    rw [hsplit, List.forall_mem_cons] at ih
    rw [splitLines] at hsplit ⊢
    rw [List.foldr_cons, hsplit, consLine]
    split
    · rw [List.forall_mem_cons, List.forall_mem_cons]
      exact ⟨List.not_mem_nil, ih⟩
    · rename_i hc
      rw [List.forall_mem_cons, List.mem_cons, not_or]
      exact ⟨⟨Ne.symm hc, ih.1⟩, ih.2⟩

/-! ## Kept lines -/

/-- **A line that formatting keeps as it is**: one without blanks around it that is neither empty
nor a title. -/
structure Kept (line : List Char) : Prop where
  trimmed : Text.trimChars line = line
  unbroken : '\n' ∉ line
  nonempty : line ≠ []
  untitled : isTitle line = false

theorem kept_of_mem_keptLines (h : line ∈ keptLines text) : Kept line := by
  obtain ⟨hmem, hsays⟩ := List.mem_filter.1 h
  obtain ⟨raw, hraw, rfl⟩ := List.mem_map.1 hmem
  simp only [Bool.and_eq_true, Bool.not_eq_true', List.isEmpty_eq_false_iff] at hsays
  have hbreak := newline_not_mem_splitLines text raw hraw
  exact ⟨Text.trimWhere_trimWhere _ _, fun hin => hbreak (Text.mem_of_mem_trimWhere hin), hsays.1,
    hsays.2⟩

/-- Lines as formatting writes them, without their breaks. -/
def setIn : Nat → List (List Char) → List (List Char)
  | _, [] => []
  | depth, line :: rest =>
    (List.replicate (4 * (depth - leadingClosers line)) ' ' ++ line)
      :: setIn (depthAfter depth line) rest

theorem layOut_eq (d : Nat) (lines : List (List Char)) :
    layOut d lines = (setIn d lines).flatMap (· ++ ['\n']) := by
  induction lines generalizing d with
  | nil => rfl
  | cons line lines ih => rw [layOut, setIn, List.flatMap_cons, ← ih, indented]

theorem newline_not_mem_setIn (d : Nat) (h : ∀ line ∈ lines, '\n' ∉ line) :
    ∀ line ∈ setIn d lines, '\n' ∉ line := by
  induction lines generalizing d with
  | nil => exact List.forall_mem_nil _
  | cons line lines ih =>
    rw [List.forall_mem_cons] at h
    rw [setIn, List.forall_mem_cons]
    refine ⟨fun hin => ?_, ih _ h.2⟩
    rcases List.mem_append.1 hin with hin | hin
    · exact absurd (List.eq_of_mem_replicate hin) (by decide)
    · exact h.1 hin

/-- Blanks in front of trimmed lines are trimmed away. -/
theorem map_trimChars_setIn (d : Nat) (h : ∀ line ∈ lines, Text.trimChars line = line) :
    (setIn d lines).map Text.trimChars = lines := by
  induction lines generalizing d with
  | nil => rfl
  | cons line lines ih =>
    rw [List.forall_mem_cons] at h
    have hblank : ∀ c ∈ List.replicate (4 * (d - leadingClosers line)) ' ',
        Text.isBlank c = true := by
      intro c hc
      rw [List.eq_of_mem_replicate hc]
      decide
    have hfirst := Text.trimWhere_append_left hblank line
    rw [Text.trimChars] at h
    rw [setIn, List.map_cons, ih _ h.2, Text.trimChars, hfirst, h.1]

section Format

variable (text : String)

/-- **The lines of formatted text** are those kept, set in. -/
theorem splitLines_format :
    splitLines (format text).toList = setIn 0 (keptLines text.toList) ++ [[]] := by
  rw [format, String.toList_ofList, layOut_eq]
  exact splitLines_lines
    (newline_not_mem_setIn 0 fun line hline => (kept_of_mem_keptLines hline).unbroken)

theorem trimmedLines_format :
    trimmedLines (format text).toList = keptLines text.toList ++ [[]] := by
  rw [trimmedLines, splitLines_format, List.map_append,
    map_trimChars_setIn 0 fun line hline => (kept_of_mem_keptLines hline).trimmed]
  rfl

/-- **A second pass keeps the same lines.** -/
theorem keptLines_format : keptLines (format text).toList = keptLines text.toList := by
  have hkeep : ∀ line ∈ keptLines text.toList, (!line.isEmpty && !isTitle line) = true := by
    intro line hline
    have hkept := kept_of_mem_keptLines hline
    rw [hkept.untitled, List.isEmpty_eq_false_iff.2 hkept.nonempty]
    rfl
  rw [keptLines, trimmedLines_format, List.filter_append, List.filter_eq_self.2 hkeep]
  exact List.append_nil _

theorem titles_format : titles (format text) = [] := by
  have hnone : ∀ line ∈ keptLines text.toList ++ [[]], ¬ isTitle line = true := by
    rw [List.forall_mem_append, List.forall_mem_singleton]
    refine ⟨fun line hline => ?_, by decide⟩
    rw [(kept_of_mem_keptLines hline).untitled]
    exact Bool.false_ne_true
  rw [titles, trimmedLines_format, List.filter_eq_nil_iff.2 hnone]
  rfl

end Format

/-! ## Depths -/

/-- The depth behind a character. A brace that closes what was not opened has none. -/
def depthStep? (depth : Nat) (c : Char) : Option Nat :=
  if c = '\x7b' then some (depth + 1)
  else if c = '\x7d' then if depth = 0 then none else some (depth - 1)
  else some depth

/-- **The depth behind a text**, from a depth in front of it on. -/
def depthBehind? (depth : Nat) (text : List Char) : Option Nat :=
  text.foldlM depthStep? depth

/-- **No prefix closes more braces than it opens**, when some are open in front. -/
def Nested (depth : Nat) (text : List Char) : Prop :=
  ∀ front, front <+: text → front.count '\x7d' ≤ depth + front.count '\x7b'

@[simp] theorem depthBehind?_nil (d : Nat) : depthBehind? d [] = some d := rfl

theorem depthBehind?_cons (d : Nat) (c : Char) (text : List Char) :
    depthBehind? d (c :: text) = (depthStep? d c).bind (depthBehind? · text) :=
  List.foldlM_cons

theorem depthBehind?_append (d : Nat) (text more : List Char) :
    depthBehind? d (text ++ more) = (depthBehind? d text).bind (depthBehind? · more) :=
  List.foldlM_append

theorem depthStep?_eq_some {c : Char} (h : depthStep? d c = some d') :
    d' + [c].count '\x7d' = d + [c].count '\x7b' := by
  unfold depthStep? at h
  split at h
  · rename_i hc
    cases h
    subst hc
    rfl
  · split at h
    · rename_i hc
      subst hc
      split at h
      · cases h
      · cases h
        have hclose : ['\x7d'].count '\x7d' = 1 := rfl
        have hopen : ['\x7d'].count '\x7b' = 0 := rfl
        omega
    · rename_i hopen hclose
      cases h
      rw [List.count_singleton, List.count_singleton]
      simp [hopen, hclose]

/-- **The depth is the number of braces that are open.** -/
theorem depthBehind?_eq_some (h : depthBehind? d text = some d') :
    d' + text.count '\x7d' = d + text.count '\x7b' := by
  induction text generalizing d with
  | nil =>
    cases h
    rfl
  | cons c text ih =>
    rw [depthBehind?_cons] at h
    obtain ⟨between, hstep, hrest⟩ := Option.bind_eq_some_iff.1 h
    have hfirst := depthStep?_eq_some hstep
    have hsecond := ih hrest
    rw [← List.singleton_append, List.count_append, List.count_append]
    omega

/-- **There is a depth behind a text exactly where no prefix closes more braces than it opens.** -/
theorem isSome_depthBehind?_iff : (depthBehind? d text).isSome ↔ Nested d text := by
  constructor
  · rintro h front ⟨rest, rfl⟩
    rw [depthBehind?_append] at h
    obtain ⟨between, hfront, -⟩ := Option.bind_eq_some_iff.1 (Option.eq_some_of_isSome h)
    have := depthBehind?_eq_some hfront
    omega
  · intro h
    induction text generalizing d with
    | nil => rfl
    | cons c text ih =>
      have hfirst := h [c] (List.prefix_append [c] text)
      -- the first character is a prefix of its own, so it does not close what is not open
      obtain ⟨between, hstep⟩ : ∃ between, depthStep? d c = some between := by
        unfold depthStep?
        split
        · exact ⟨_, rfl⟩
        · split
          · rename_i hc
            subst hc
            have hpos : d ≠ 0 := by
              rintro rfl
              exact absurd hfirst (by decide)
            rw [if_neg hpos]
            exact ⟨_, rfl⟩
          · exact ⟨_, rfl⟩
      rw [depthBehind?_cons, hstep, Option.bind_some]
      refine ih fun front hfront => ?_
      have hlonger := h (c :: front) ((List.cons_prefix_cons).2 ⟨rfl, hfront⟩)
      have hcount := depthStep?_eq_some hstep
      rw [← List.singleton_append, List.count_append, List.count_append] at hlonger
      omega

/-- **A line that closes nothing that was not opened**: neither its leading braces nor those behind
them are cut off, and formatting goes on at the depth behind the line. -/
theorem depthAfter_eq (h : depthBehind? d line = some d') :
    leadingClosers line ≤ d ∧
    (line.dropWhile (· = '\x7d')).count '\x7d' ≤
      d - leadingClosers line + (line.dropWhile (· = '\x7d')).count '\x7b' ∧
    depthAfter d line = d' := by
  have hclosers : ∀ c ∈ line.takeWhile (· = '\x7d'), c = '\x7d' := by
    intro c hc
    simpa using List.all_eq_true.1 List.all_takeWhile c hc
  have hclose : (line.takeWhile (· = '\x7d')).count '\x7d' = leadingClosers line :=
    List.count_eq_length.2 fun c hc => (hclosers c hc).symm
  have hopen : (line.takeWhile (· = '\x7d')).count '\x7b' = 0 := by
    refine List.count_eq_zero.2 fun hin => ?_
    exact absurd (hclosers _ hin) (by decide)
  rw [← List.takeWhile_append_dropWhile (p := (· = '\x7d')) (l := line), depthBehind?_append] at h
  obtain ⟨between, hfront, hrest⟩ := Option.bind_eq_some_iff.1 h
  have hfirst := depthBehind?_eq_some hfront
  have hsecond := depthBehind?_eq_some hrest
  rw [depthAfter]
  omega

/-! ## Formatted text -/

/-- The line behind some others is set in by the depth behind these, less its leading braces. -/
theorem getElem?_setIn (before : List (List Char)) (line : List Char) (after : List (List Char))
    (h : depthBehind? d before.flatten = some d') :
    (setIn d (before ++ line :: after))[before.length]? =
      some (List.replicate (4 * (d' - leadingClosers line)) ' ' ++ line) := by
  induction before generalizing d with
  | nil =>
    cases h
    rfl
  | cons first before ih =>
    rw [List.flatten_cons, depthBehind?_append] at h
    obtain ⟨between, hfirst, hrest⟩ := Option.bind_eq_some_iff.1 h
    rw [List.cons_append, setIn, List.length_cons, List.getElem?_cons_succ,
      (depthAfter_eq hfirst).2.2]
    exact ih hrest

/-- **Formatting is idempotent and keeps the code.** For every text: a second pass changes nothing,
no title is left, and without the blanks around them the lines are those of the text that are
neither blank nor titles, in order, each ended by a line break. And if no prefix of these lines
closes more braces than it opens, each line is set in by four spaces for every brace that is open in
front of it, its own leading closing braces taken off. -/
theorem format_keeps_code (text : String) :
    format (format text) = format text ∧
    titles (format text) = [] ∧
    trimmedLines (format text).toList = keptLines text.toList ++ [[]] ∧
    (Nested 0 (keptLines text.toList).flatten →
      ∀ before line after, keptLines text.toList = before ++ line :: after →
        ∃ depth, depth + leadingClosers line + before.flatten.count '\x7d' =
            before.flatten.count '\x7b' ∧
          (splitLines (format text).toList)[before.length]? =
            some (List.replicate (4 * depth) ' ' ++ line)) := by
  refine ⟨?_, titles_format text, trimmedLines_format text, ?_⟩
  · rw [format, keptLines_format]
    rfl
  · intro hnested before line after hlines
    rw [← isSome_depthBehind?_iff, hlines, List.flatten_append, List.flatten_cons,
      depthBehind?_append] at hnested
    obtain ⟨d, hbefore, hmore⟩ := Option.bind_eq_some_iff.1 (Option.eq_some_of_isSome hnested)
    rw [depthBehind?_append] at hmore
    obtain ⟨d', hline, -⟩ := Option.bind_eq_some_iff.1 hmore
    have hcount := depthBehind?_eq_some hbefore
    have hleading := (depthAfter_eq hline).1
    refine ⟨d - leadingClosers line, by omega, ?_⟩
    have hat := getElem?_setIn before line after hbefore
    have hin : before.length < (setIn 0 (before ++ line :: after)).length :=
      (List.getElem?_eq_some_iff.1 hat).1
    rw [splitLines_format, hlines, List.getElem?_append_left hin, hat]

/-- The body of a case of a choice is set in by one step, whatever blanks it had. -/
theorem format_keeps_code_case :
    (splitLines (format "// - Dispatcher -\ncase 0 \x7b\n\trevert(0, 0)\n\n \x7d").toList)[1]? =
      some "    revert(0, 0)".toList := by
  have hlines : keptLines "// - Dispatcher -\ncase 0 \x7b\n\trevert(0, 0)\n\n \x7d".toList =
      ["case 0 \x7b".toList] ++ "revert(0, 0)".toList :: ["\x7d".toList] := by
    decide +kernel
  have hnested : Nested 0
      (keptLines "// - Dispatcher -\ncase 0 \x7b\n\trevert(0, 0)\n\n \x7d".toList).flatten := by
    rw [hlines, ← isSome_depthBehind?_iff]
    decide
  obtain ⟨depth, hdepth, hline⟩ := (format_keeps_code _).2.2.2 hnested _ _ _ hlines
  obtain rfl : depth = 1 := hdepth
  exact hline

end Yul

end Covenant
