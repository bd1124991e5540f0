import Covenant.Build.Files

/-!
# Paths that are clean

What cleaning a path leaves is put together from settled parts: none is empty or `.`, and `..` only
stands in front. Such a path is left as it is (`Path.clean_clean`), so that two spellings of one
path are told to be the same by comparing what they are cleaned to. The path behind an import is
clean (`clean_importPath`).
-/

namespace Covenant

namespace Path

/-- **Parts that cleaning leaves alone**, in reverse. -/
def Settled (rooted : Bool) : List String → Prop
  | [] => True
  | part :: rest =>
    part ≠ "" ∧ part ≠ "." ∧ '/' ∉ part.toList ∧
      (part = ".." → rooted = false ∧ ∀ other ∈ rest, other = "..") ∧ Settled rooted rest

/-- The path of parts that are given in reverse. -/
def assemble (rooted : Bool) (cleaned : List String) : String :=
  if rooted then "/" ++ "/".intercalate cleaned.reverse
  else if cleaned = [] then "." else "/".intercalate cleaned.reverse

theorem Settled.plain {rooted : Bool} {cleaned : List String} (h : Settled rooted cleaned) :
    ∀ part ∈ cleaned, part ≠ "" ∧ '/' ∉ part.toList := by
  induction cleaned with
  | nil => simp
  | cons last rest ih =>
    intro part hpart
    obtain rfl | hrest := List.mem_cons.1 hpart
    · exact ⟨h.1, h.2.2.1⟩
    · exact ih h.2.2.2.2 part hrest

/-! ## Parts of a path -/

/-- Parts put together with slashes are the parts of the path. -/
theorem parts_intercalate {segments : List String} (hne : segments ≠ [])
    (hplain : ∀ part ∈ segments, '/' ∉ part.toList) :
    parts ("/".intercalate segments) = segments := by
  have hsplit : (['/'].intercalate (segments.map String.toList)).splitOn '/'
      = segments.map String.toList :=
    List.splitOn_intercalate '/' (by simpa using hplain) (by simpa using hne)
  rw [parts, String.toList_intercalate, show ("/" : String).toList = ['/'] from rfl, hsplit]
  simp

theorem parts_slash_append (path : String) : parts ("/" ++ path) = "" :: parts path := by
  simp [parts, List.splitOn_cons_eq_if_modifyHead]

@[simp] theorem isRooted_slash_append (path : String) : isRooted ("/" ++ path) = true := by
  rw [isRooted, String.startsWith_string_iff]
  simp

theorem clean_dot : clean "." = "." := by
  have hrooted : isRooted "." = false := by
    rw [Bool.eq_false_iff, isRooted, ne_eq, String.startsWith_string_iff]
    decide
  rw [clean, hrooted]
  decide

theorem not_mem_of_mem_splitOn {separator : Char} {text part : List Char}
    (h : part ∈ text.splitOn separator) : separator ∉ part := by
  induction text generalizing part with
  | nil =>
    simp only [List.splitOn_nil, List.mem_singleton] at h
    simp [h]
  | cons letter text ih =>
    rw [List.splitOn_cons_eq_if_modifyHead] at h
    split at h
    · obtain rfl | hrest := List.mem_cons.1 h
      · simp
      · exact ih hrest
    · rename_i hletter
      obtain ⟨first, rest, hparts⟩ :=
        List.exists_cons_of_ne_nil (List.splitOn_ne_nil separator text)
      rw [hparts, List.modifyHead_cons, List.mem_cons] at h
      obtain rfl | hrest := h
      · have hfirst : separator ∉ first := ih (hparts ▸ List.mem_cons_self)
        have hne : ¬ separator = letter := fun heq => hletter (by simp [heq])
        simp [hfirst, hne]
      · exact ih (hparts ▸ List.mem_cons_of_mem _ hrest)

/-- No part of a path holds a slash. -/
theorem plain_of_mem_parts {path part : String} (h : part ∈ parts path) : '/' ∉ part.toList := by
  obtain ⟨letters, hletters, rfl⟩ := List.mem_map.1 h
  simpa using not_mem_of_mem_splitOn hletters

/-! ## Cleaning -/

/-- One more part keeps what was cleaned clean. -/
theorem settled_step {rooted : Bool} {cleaned : List String} (h : Settled rooted cleaned)
    {part : String} (hpart : '/' ∉ part.toList) : Settled rooted (step rooted cleaned part) := by
  unfold step
  split
  · exact h
  · rename_i hblank
    obtain ⟨hne, hdot⟩ : part ≠ "" ∧ part ≠ "." := by simpa using hblank
    split
    · rename_i hup
      subst hup
      split
      · rename_i last rest
        split
        · rename_i hlast
          obtain ⟨hrooted, hrest⟩ := h.2.2.2.1 hlast
          exact ⟨hne, hdot, hpart, fun _ => ⟨hrooted, by simpa [hlast] using hrest⟩, h⟩
        · exact h.2.2.2.2
      · split
        · trivial
        · rename_i hrooted
          exact ⟨hne, hdot, hpart, fun _ => ⟨by simpa using hrooted, by simp⟩, trivial⟩
    · rename_i hup
      exact ⟨hne, hdot, hpart, fun heq => absurd heq hup, h⟩

/-- What has been cleaned so far stays settled. -/
theorem settled_foldl_step {rooted : Bool} {segments cleaned : List String}
    (hplain : ∀ part ∈ segments, '/' ∉ part.toList) (h : Settled rooted cleaned) :
    Settled rooted (segments.foldl (step rooted) cleaned) := by
  induction segments generalizing cleaned with
  | nil => exact h
  | cons part rest ih =>
    exact ih (fun other hother => hplain other (List.mem_cons_of_mem _ hother))
      (settled_step h (hplain part List.mem_cons_self))

/-- What is clean is not changed again. -/
theorem step_of_settled {rooted : Bool} {part : String} {rest : List String}
    (h : Settled rooted (part :: rest)) : step rooted rest part = part :: rest := by
  obtain ⟨hne, hdot, -, hup, -⟩ := h
  by_cases heq : part = ".."
  · obtain ⟨hrooted, hrest⟩ := hup heq
    cases rest with
    | nil => simp [step, heq, hrooted]
    | cons last rest => simp [step, heq, hrest last List.mem_cons_self]
  · simp [step, hne, hdot, heq]

/-- Settled parts are cleaned to themselves. -/
theorem foldl_step_reverse {rooted : Bool} {cleaned : List String} (h : Settled rooted cleaned) :
    cleaned.reverse.foldl (step rooted) [] = cleaned := by
  induction cleaned with
  | nil => rfl
  | cons part rest ih =>
    rw [List.reverse_cons, List.foldl_append, ih h.2.2.2.2]
    exact step_of_settled h

theorem intercalate_reverse_ne {rooted : Bool} {cleaned : List String}
    (h : Settled rooted cleaned) (hne : cleaned ≠ []) :
    "/".intercalate cleaned.reverse ≠ "" ∧ isRooted ("/".intercalate cleaned.reverse) = false := by
  obtain ⟨first, rest, hrev⟩ := List.exists_cons_of_ne_nil (List.reverse_ne_nil_iff.2 hne)
  obtain ⟨hfirst, hplain⟩ := h.plain first (List.mem_reverse.1 (hrev ▸ List.mem_cons_self))
  obtain ⟨letter, letters, hletters⟩ :
      ∃ letter letters, first.toList = letter :: letters :=
    List.exists_cons_of_ne_nil (by simpa using hfirst)
  have htext : ∃ more, ("/".intercalate cleaned.reverse).toList = letter :: more := by
    rw [hrev, String.toList_intercalate]
    cases rest <;> simp [hletters]
  obtain ⟨more, hmore⟩ := htext
  constructor
  · intro hempty
    simp [hempty] at hmore
  · have hne : ¬ '/' = letter := fun heq => hplain (by simp [hletters, ← heq])
    rw [Bool.eq_false_iff, isRooted, ne_eq, String.startsWith_string_iff, hmore]
    simpa using hne

/-- **What a clean path consists of.** -/
theorem exists_clean_eq (path : String) :
    ∃ rooted cleaned, Settled rooted cleaned ∧ clean path = assemble rooted cleaned := by
  have hsettled : Settled (isRooted path) ((parts path).foldl (step (isRooted path)) []) :=
    settled_foldl_step (fun _ => plain_of_mem_parts) trivial
  refine ⟨isRooted path, _, hsettled, ?_⟩
  rw [clean, assemble]
  generalize (parts path).foldl (step (isRooted path)) [] = cleaned at hsettled ⊢
  by_cases hnone : cleaned = []
  · simp [hnone]
  · simp [hnone, (intercalate_reverse_ne hsettled hnone).1]

/-- A path of settled parts is left as it is. -/
theorem clean_assemble {rooted : Bool} {cleaned : List String} (h : Settled rooted cleaned) :
    clean (assemble rooted cleaned) = assemble rooted cleaned := by
  have hplain : ∀ part ∈ cleaned.reverse, '/' ∉ part.toList := fun part hpart =>
    (h.plain part (List.mem_reverse.1 hpart)).2
  by_cases hnone : cleaned = []
  · subst hnone
    cases rooted with
    | true =>
      have hfold : (parts ("/" ++ "")).foldl (step true) [] = [] := by decide
      simp only [assemble, if_true, List.reverse_nil, String.intercalate_nil, clean,
        isRooted_slash_append, hfold]
    | false => exact clean_dot
  · have hparts := parts_intercalate (by simpa using hnone) hplain
    cases rooted with
    | true =>
      rw [assemble, if_pos rfl, clean, isRooted_slash_append, parts_slash_append, hparts,
        List.foldl_cons, show step true [] "" = [] from rfl, foldl_step_reverse h, if_pos rfl]
    | false =>
      obtain ⟨hne, hrooted⟩ := intercalate_reverse_ne h hnone
      rw [assemble, if_neg (by simp), if_neg hnone, clean, hrooted, hparts, foldl_step_reverse h,
        if_neg (by simp), if_neg hne]

/-- **A path is clean once it has been made clean.** -/
theorem clean_clean (path : String) : clean (clean path) = clean path := by
  obtain ⟨rooted, cleaned, hsettled, hclean⟩ := exists_clean_eq path
  rw [hclean, clean_assemble hsettled]

theorem clean_ne_empty (path : String) : clean path ≠ "" := by
  obtain ⟨rooted, cleaned, hsettled, hclean⟩ := exists_clean_eq path
  rw [hclean, assemble]
  split
  · simp
  · split
    · decide
    · exact (intercalate_reverse_ne hsettled ‹_›).1

/-! ## Files named by imports -/

theorem intercalate_append_last (separator last ending : String) (front : List String) :
    separator.intercalate (front ++ [last]) ++ ending
      = separator.intercalate (front ++ [last ++ ending]) := by
  refine String.ext_iff.2 ?_
  simp only [String.toList_append, String.toList_intercalate, List.map_append, List.map_cons,
    List.map_nil]
  generalize front.map String.toList = front
  induction front with
  | nil => simp
  | cons first front ih =>
    simp only [List.cons_append]
    rw [List.intercalate_cons_of_ne_nil (by simp), List.intercalate_cons_of_ne_nil (by simp), ← ih]
    simp

/-- A clean path without an extension stays clean with one behind it. -/
theorem clean_append_extension {path : String} (h : hasExtension (clean path) = false) :
    clean (clean path ++ ".ts") = clean path ++ ".ts" := by
  obtain ⟨rooted, cleaned, hsettled, hclean⟩ := exists_clean_eq path
  rw [hclean] at h ⊢
  cases cleaned with
  | nil =>
    cases rooted with
    | true => exact @clean_assemble true [".ts"] (by simp [Settled])
    | false =>
      have hdot : ((parts ".").getLastD "").toList = ['.'] := by decide
      simp only [assemble, Bool.false_eq_true, if_false, if_true, hasExtension, hdot] at h
      simp at h
  | cons last rest =>
    have hlonger :
        assemble rooted (last :: rest) ++ ".ts" = assemble rooted ((last ++ ".ts") :: rest) := by
      cases rooted <;>
        simp [assemble, String.append_assoc, intercalate_append_last]
    obtain ⟨-, -, hplain, -, hrest⟩ := hsettled
    have hlong : ∀ short : String, short.length < 3 → last ++ ".ts" ≠ short := by
      intro short hshort heq
      rw [← heq, String.length_append, show (".ts" : String).length = 3 from rfl] at hshort
      omega
    rw [hlonger]
    refine clean_assemble ⟨hlong "" (by decide), hlong "." (by decide), ?_, ?_, hrest⟩
    · simpa using hplain
    · exact fun heq => absurd heq (hlong ".." (by decide))

end Path

namespace Build

/-- **The path behind an import is clean.** -/
theorem clean_importPath (importer source : String) :
    Path.clean (importPath importer source) = importPath importer source := by
  have hjoined : ∃ path, Path.join (Path.directory importer) source = Path.clean path := by
    rw [Path.join, if_neg (show Path.directory importer ≠ "" from Path.clean_ne_empty _)]
    split
    · exact ⟨_, rfl⟩
    · exact ⟨_, rfl⟩
  obtain ⟨path, hpath⟩ := hjoined
  rw [importPath, hpath]
  split
  · exact Path.clean_clean path
  · exact Path.clean_append_extension (Bool.eq_false_iff.2 ‹_›)

end Build

end Covenant
