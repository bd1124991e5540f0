import Covenant.Editor.Session
import Covenant.Proofs.Execution.Locals

/-!
# What a session says about a document

A session is told of documents by their addresses and knows them by the paths in those. What it
holds at a path after some requests can be read off the requests: the latest text that was given
for the path (`shown`), and the syntax tree of the text there if it was asked for since then
(`Kept`, kept by every request). So a tree that is given out is that of the text at its path. The
text beside it is that text, except for a file that is not open and was asked for before; and it is
the text of a document if no other address leads to the same path (`answers_describe_text`).
-/

namespace Covenant

namespace Editor

/-! ## Requests -/

/-- **What an editor tells a session or asks it for**, with the address of the document. -/
inductive Request where
  | opens (uri text : String)
  /-- What a document goes through, of which the last text stays. -/
  | changes (uri : String) (told : List Change)
  | closes (uri : String)
  | highlights (uri : String)
deriving DecidableEq, Repr

namespace Request

/-- The address of the document that a request is about. -/
def uri : Request → String
  | opens uri _ => uri
  | changes uri _ => uri
  | closes uri => uri
  | highlights uri => uri

/-- Whether the address of a request leads to a path. -/
def isAt (path : String) (r : Request) : Bool :=
  (Uri.path r.uri).toOption = some path

theorem isAt_iff {path : String} {r : Request} :
    r.isAt path = true ↔ Uri.path r.uri = .ok path := by
  rw [isAt, decide_eq_true_eq]
  cases Uri.path r.uri <;> simp [Except.toOption]

/-- The text an editor shows after a request about the document, given the one it showed before. -/
def shows (before : Option String) : Request → Option String
  | opens _ text => some text
  | changes _ told => (told.filterMap Change.text?).getLast?.or before
  | closes _ => none
  | highlights _ => before

/-- Whether highlights were asked for since the text last changed. -/
def asks (before : Bool) : Request → Bool
  | opens _ _ => false
  | changes _ told => (told.filterMap Change.text?).isEmpty && before
  | closes _ => false
  | highlights _ => true

end Request

/-- A change with a text takes the place of those before it, and one without a text leaves them. -/
theorem foldl_text? (told : List Change) (before : Option String) :
    told.foldl (fun text change => change.text?.or text) before
      = (told.filterMap Change.text?).getLast?.or before := by
  induction told generalizing before with
  | nil => rfl
  | cons change rest ih =>
    rw [List.foldl_cons, ih]
    cases htext : change.text? with
    | none => rw [List.filterMap_cons_none htext, Option.none_or]
    | some text =>
      rw [List.filterMap_cons_some htext, List.getLast?_cons]
      cases (rest.filterMap Change.text?).getLast? <;> rfl

/-- **The text after some changes** is the last one among them. -/
theorem changedText?_eq (told : List Change) :
    changedText? told = (told.filterMap Change.text?).getLast? := by
  rw [changedText?, foldl_text?, Option.or_none]

/-- **The text that an editor shows** after all requests that are about the document at hand; none
if it is not open. -/
def shown (about : Request → Bool) (requests : List Request) : Option String :=
  (requests.filter about).foldl Request.shows none

/-- Whether the highlights at a path were asked for since its text last changed. -/
def asked (path : String) (requests : List Request) : Bool :=
  (requests.filter (Request.isAt path)).foldl Request.asks false

namespace Session

/-- The session after a request. -/
def after (disk : Build.Files) (s : Session) : Request → Session
  | .opens uri text => (s.update disk uri text).1
  | .changes uri told => (s.change disk uri told).1
  | .closes uri => (s.close uri).1
  | .highlights uri => (s.highlight disk uri).1

/-- **The session after some requests**, from its start on. -/
def run (disk : Build.Files) (requests : List Request) : Session :=
  requests.foldl (after disk) {}

/-- The text at a path: that of the open document, or of the file on disk. -/
def text? (s : Session) (disk : Build.Files) (path : String) : Option String :=
  (s.documents.get? path).or (disk.get? path)

/-- **The tree at a path is that of the text there**, and is at hand if it was asked for. -/
def Kept (disk : Build.Files) (path : String) (asked : Bool) (s : Session) : Prop :=
  s.programs.get? path =
    if asked then (s.text? disk path).bind fun text => (Source.parse path text).toOption else none

variable {disk : Build.Files} {s : Session} {path other uri text : String} {asked : Bool}

/-! ## One request -/

theorem get?_without {α : Type} (t : Table α) (name other : String) :
    (without t name).get? other = if other = name then none else t.get? other := by
  induction t with
  | nil => simp [without, Table.get?]
  | cons entry t ih =>
    obtain ⟨n, a⟩ := entry
    by_cases hn : n = name
    · have hskip : without ((n, a) :: t) name = without t name := by simp [without, hn]
      rw [hskip, ih, Table.get?_cons]
      by_cases ho : other = name
      · simp [ho]
      · rw [if_neg ho, if_neg ho, if_neg (hn ▸ ho)]
    · have hkeep : without ((n, a) :: t) name = (n, a) :: without t name := by simp [without, hn]
      rw [hkeep, Table.get?_cons, Table.get?_cons, ih]
      by_cases ho : other = n
      · rw [if_pos ho, if_pos ho, if_neg (ho ▸ hn)]
      · rw [if_neg ho, if_neg ho]

@[simp] theorem program_documents : (s.program disk path).1.documents = s.documents := by
  unfold program
  split
  · rfl
  · split
    · rfl
    · split <;> rfl

/-- Asking for one tree leaves the others as they are. -/
theorem program_programs (hne : other ≠ path) :
    (s.program disk path).1.programs.get? other = s.programs.get? other := by
  unfold program
  split
  · rfl
  · split
    · rfl
    · split
      · rfl
      · exact (Table.get?_cons ..).trans (if_neg hne)

/-- **A tree that is asked for is kept**, if there is one. -/
theorem Kept.program (h : s.Kept disk path asked) :
    (s.program disk path).1.Kept disk path true := by
  have htext : (s.program disk path).1.text? disk path = s.text? disk path := by
    rw [text?, text?, program_documents]
  rw [Kept, htext, if_pos rfl]
  unfold Session.program
  split
  · rename_i tree htree
    cases asked with
    | false => exact absurd (htree.symm.trans h) nofun
    | true => exact h
  · rename_i hnone
    split
    · rename_i hmissing
      rw [text?, hmissing]
      exact hnone
    · rename_i text hfound
      rw [text?, hfound]
      split
      · rename_i e hparse
        simpa [hparse, Except.toOption] using hnone
      · rename_i tree hparse
        rw [Table.put, Table.get?_cons, if_pos rfl]
        simp [hparse, Except.toOption]

/-- The answer to a question about a path: the tree of the text at hand, and that text. Where no
document is open, a tree that was asked for before comes without its text. -/
def answer (disk : Build.Files) (path : String) (shown : Option String) (asked : Bool) :
    Except Refusal (Source.Program × String) :=
  match shown.or (disk.get? path) with
  | none =>
    .error (.message (Text.shown ("failed to read file " ++ path ++ ": " ++ disk.absence path)))
  | some text =>
    match Source.parse path text with
    | .error e => .error (.message (Text.shown e.render))
    | .ok program => .ok (program, if shown.isNone && asked then "" else text)

/-- What is answered, where the trees at hand are those of the texts. -/
theorem Kept.answer (h : s.Kept disk path asked) :
    (s.program disk path).2 = answer disk path (s.documents.get? path) asked := by
  unfold Session.program Session.answer
  have htext : (s.documents.get? path).or (disk.get? path) = s.text? disk path := rfl
  rw [htext]
  cases hfound : s.text? disk path with
  | none =>
    have hnone : s.programs.get? path = none := by
      rw [h, hfound]
      cases asked <;> rfl
    rw [hnone]
  | some text =>
    cases hparse : Source.parse path text with
    | error e =>
      have hnone : s.programs.get? path = none := by
        rw [h, hfound]
        cases asked <;> simp [hparse, Except.toOption]
      simp only [hnone, hparse]
    | ok program =>
      cases asked with
      | false =>
        have hnone : s.programs.get? path = none := h
        simp [hnone, hparse]
      | true =>
        have hsome : s.programs.get? path = some program := by
          rw [h, hfound]
          simp [hparse, Except.toOption]
        -- the text beside a tree at hand is looked for among the open documents only
        cases hopen : s.documents.get? path with
        | none => simp [hsome, hparse]
        | some shown =>
          have hshown : shown = text := by simpa [text?, hopen] using hfound
          simp [hsome, hparse, hshown]

/-- A request about another path leaves a path as it was. -/
theorem after_elsewhere {r : Request} (h : Uri.path r.uri ≠ .ok path) :
    (s.after disk r).documents.get? path = s.documents.get? path ∧
      (s.after disk r).programs.get? path = s.programs.get? path := by
  have hne {found : String} (hfound : Uri.path r.uri = .ok found) : path ≠ found :=
    fun heq => h (heq ▸ hfound)
  have hupdate (text : String) :
      (s.update disk r.uri text).1.documents.get? path = s.documents.get? path ∧
        (s.update disk r.uri text).1.programs.get? path = s.programs.get? path := by
    unfold update
    split
    · exact ⟨rfl, rfl⟩
    · rename_i found hfound
      simp [Table.put, Table.get?_cons, get?_without, hne hfound]
  cases r with
  | opens uri text => exact hupdate text
  | changes uri told =>
    rw [after, change]
    split
    · exact ⟨rfl, rfl⟩
    · exact hupdate _
  | closes uri =>
    rw [after, close]
    split
    · exact ⟨rfl, rfl⟩
    · rename_i found hfound
      simp [get?_without, hne hfound]
  | highlights uri =>
    rw [after, highlight]
    split
    · exact ⟨rfl, rfl⟩
    · rename_i found hfound
      exact ⟨by simp, program_programs (hne hfound)⟩

/-- **A request about a path** changes the text there as the editor does, and keeps the tree that
goes with it. -/
theorem after_here {r : Request} (hpath : Uri.path r.uri = .ok path)
    (hkept : s.Kept disk path asked) :
    (s.after disk r).documents.get? path = r.shows (s.documents.get? path) ∧
      (s.after disk r).Kept disk path (r.asks asked) := by
  have hupdate (text : String) :
      (s.update disk r.uri text).1.documents.get? path = some text ∧
        (s.update disk r.uri text).1.Kept disk path false := by
    simp [update, hpath, Kept, Table.put, Table.get?_cons, get?_without]
  cases r with
  | opens uri text => exact hupdate text
  -- only the last of several texts counts, and without one nothing happens
  | changes uri told =>
    rw [after, change, changedText?_eq, Request.shows, Request.asks]
    split
    · rename_i hnone
      rw [hnone, List.getLast?_eq_none_iff.1 hnone]
      exact ⟨rfl, hkept⟩
    · rename_i text htext
      have hsome : (told.filterMap Change.text?).isEmpty = false := by
        rw [List.isEmpty_eq_false_iff]
        intro hnil
        rw [hnil] at htext
        cases htext
      rw [htext, hsome]
      exact hupdate text
  | closes uri =>
    have hclose : (s.close uri).1 =
        { documents := without s.documents path, programs := without s.programs path } := by
      rw [close, show Uri.path uri = .ok path from hpath]
    rw [after, hclose]
    simp [Kept, get?_without, Request.shows, Request.asks]
  | highlights uri =>
    have hasked : (s.highlight disk uri).1 = (s.program disk path).1 := by
      rw [highlight, show Uri.path uri = .ok path from hpath]
    rw [after, hasked]
    exact ⟨by rw [program_documents]; rfl, hkept.program⟩

/-! ## All requests -/

/-- **What a session holds at a path can be read off the requests.** -/
theorem foldl_after (requests : List Request) (h : s.Kept disk path asked) :
    (requests.foldl (after disk) s).documents.get? path =
        (requests.filter (Request.isAt path)).foldl Request.shows (s.documents.get? path) ∧
      (requests.foldl (after disk) s).Kept disk path
        ((requests.filter (Request.isAt path)).foldl Request.asks asked) := by
  induction requests generalizing s asked with
  | nil => exact ⟨rfl, h⟩
  | cons r rest ih =>
    rw [List.foldl_cons]
    by_cases hr : Uri.path r.uri = .ok path
    · obtain ⟨hshows, hkept⟩ := after_here hr h
      rw [List.filter_cons_of_pos (Request.isAt_iff.2 hr), List.foldl_cons, List.foldl_cons,
        ← hshows]
      exact ih hkept
    · obtain ⟨hdocuments, hprograms⟩ := @after_elsewhere disk s path r hr
      have hkept : (s.after disk r).Kept disk path asked := by
        rwa [Kept, text?, hprograms, hdocuments]
      rw [List.filter_cons_of_neg (fun h => hr (Request.isAt_iff.1 h)), ← hdocuments]
      exact ih hkept

theorem start_kept (disk : Build.Files) (path : String) : ({} : Session).Kept disk path false :=
  rfl

theorem run_documents (disk : Build.Files) (requests : List Request) (path : String) :
    (run disk requests).documents.get? path = shown (Request.isAt path) requests :=
  (foldl_after requests (start_kept disk path)).1

theorem run_kept (disk : Build.Files) (requests : List Request) (path : String) :
    (run disk requests).Kept disk path (Editor.asked path requests) :=
  (foldl_after requests (start_kept disk path)).2

/-- **What a session answers** about a path after some requests. -/
theorem run_answer (disk : Build.Files) (requests : List Request) (path : String) :
    ((run disk requests).program disk path).2 =
      answer disk path (shown (Request.isAt path) requests) (Editor.asked path requests) := by
  rw [(run_kept disk requests path).answer, run_documents]

/-- **A tree that is given out is that of the current text at its path**, and the text beside it is
that text, unless it is a file that is not open and was asked for before. Asking again gives the
same answer, but for the second answer about such a file. The text at a path is that of a document
if no other address leads to the path. -/
theorem answers_describe_text (disk : Build.Files) (requests : List Request) (path : String) :
    (∀ program text, ((run disk requests).program disk path).2 = .ok (program, text) →
      ∃ current, (shown (Request.isAt path) requests).or (disk.get? path) = some current ∧
        Source.parse path current = .ok program ∧
        text = if (shown (Request.isAt path) requests).isNone && Editor.asked path requests then ""
          else current) ∧
    (∀ uri, Uri.path uri = .ok path →
      ((shown (Request.isAt path) requests).isSome ∨ Editor.asked path requests = true) →
      ((run disk (requests ++ [.highlights uri])).highlight disk uri).2 =
        ((run disk requests).highlight disk uri).2) ∧
    ∀ uri, Uri.path uri = .ok path → (∀ r ∈ requests, Uri.path r.uri = .ok path → r.uri = uri) →
      shown (Request.isAt path) requests = shown (·.uri = uri) requests := by
  refine ⟨fun program text h => ?_, fun uri hpath hsame => ?_, fun uri hpath halone => ?_⟩
  · rw [run_answer, answer] at h
    split at h
    · cases h
    · rename_i current hcurrent
      split at h
      · cases h
      · rename_i hparse
        cases h
        exact ⟨current, hcurrent, hparse, rfl⟩
  · have hhighlight (s : Session) : (s.highlight disk uri).2 =
        (s.program disk path).2.map fun given => deltas (highlights given.1 given.2) := by
      rw [highlight, hpath]
    have hhere : [Request.highlights uri].filter (Request.isAt path) = [.highlights uri] :=
      List.filter_cons_of_pos (Request.isAt_iff.2 hpath)
    rw [hhighlight, hhighlight, run_answer, run_answer, shown, Editor.asked, List.filter_append,
      hhere, List.foldl_append, List.foldl_append]
    change (answer disk path (shown (Request.isAt path) requests) true).map _ = _
    rcases hsame with hopen | hasked
    · have hnone := Option.isNone_eq_false_iff.2 hopen
      simp only [answer, hnone, Bool.false_and]
    · rw [hasked]
  · rw [shown, shown]
    congr 1
    refine List.filter_congr fun r hr => ?_
    rw [Bool.eq_iff_iff, Request.isAt_iff, decide_eq_true_eq]
    exact ⟨halone r hr, fun heq => heq ▸ hpath⟩

/-- Two documents without a path share the empty one, so that the second takes the place of the
first; and the second answer about a file on disk comes without its text. -/
theorem other_text_answered :
    let disk : Build.Files := .ofTexts [("/t.ts", "class A {}")]
    let first := "untitled:Untitled-1"
    let both : List Request := [.opens first "class A {}", .opens "untitled:Untitled-2" "let n = 1;"]
    ((Uri.path first).toOption = some "" ∧ shown (·.uri = first) both = some "class A {}" ∧
      ((run disk both).program disk "").2.toOption.map Prod.snd = some "let n = 1;") ∧
    (disk.get? "/t.ts" = some "class A {}" ∧
      ((run disk []).program disk "/t.ts").2.toOption.map Prod.snd = some "class A {}" ∧
      ((run disk [.highlights "file:///t.ts"]).program disk "/t.ts").2.toOption.map Prod.snd =
        some "") := by
  decide +kernel

end Session

end Editor

end Covenant
