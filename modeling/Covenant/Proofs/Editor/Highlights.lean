import Covenant.Editor.Session
import Covenant.Proofs.Computations
import Mathlib.Data.UInt

/-!
# Highlights that are read back

An editor that is sent highlights adds up their differences: a line is added to the line before,
and a place in a line to the place before if the line is the same. What it gets that way are the
highlights in the order of their places. It is that order which keeps every difference from falling
below zero (`Highlight.Behind`): the walk that records the highlights places some names by their
bytes and others by their characters, so that it goes back and forth in a line.

The numbers for what a name stands for are read with the words that a session offers
(`capabilities_category`, `testBit_mask`).
-/

namespace Covenant

namespace Editor

/-! ## The order of highlights -/

namespace Highlight

variable {a b c : Highlight}

theorem notAfter_iff : a.notAfter b ↔ a.line < b.line ∨ a.line = b.line ∧ a.start ≤ b.start := by
  simp [notAfter]

/-- The order of places is that of their numbers. -/
theorem notAfter_iff_toNat : a.notAfter b ↔ a.line.toNat < b.line.toNat ∨
    a.line.toNat = b.line.toNat ∧ a.start.toNat ≤ b.start.toNat := by
  rw [notAfter_iff, UInt32.lt_iff_toNat_lt, UInt32.le_iff_toNat_le, UInt32.toNat_inj]

theorem notAfter_trans (a b c : Highlight) (h : a.notAfter b) (h' : b.notAfter c) :
    a.notAfter c := by
  rw [notAfter_iff_toNat] at h h' ⊢
  omega

theorem notAfter_total (a b : Highlight) : a.notAfter b || b.notAfter a := by
  rw [Bool.or_eq_true, notAfter_iff_toNat, notAfter_iff_toNat]
  omega

/-- **A highlight is behind another one** if no difference between the two wraps: added to what it
is a difference to, it gives the number that was meant. -/
structure Behind (previous h : Highlight) : Prop where
  line : previous.line.toNat + (h.line - previous.line).toNat = h.line.toNat
  start : h.line = previous.line →
    previous.start.toNat + (h.start - previous.start).toNat = h.start.toNat

theorem toNat_add_toNat_sub {v w : UInt32} (h : v ≤ w) :
    v.toNat + (w - v).toNat = w.toNat := by
  rw [UInt32.toNat_sub_of_le w v h]
  exact Nat.add_sub_cancel' (UInt32.le_iff_toNat_le.1 h)

/-- **What does not stand before another highlight** has no difference to it that wraps. -/
theorem Behind.of_notAfter (h : a.notAfter b) : Behind a b := by
  rw [notAfter_iff_toNat] at h
  refine ⟨toNat_add_toNat_sub (UInt32.le_iff_toNat_le.2 (by omega)), fun hline => ?_⟩
  have hsame := congrArg UInt32.toNat hline
  exact toNat_add_toNat_sub (UInt32.le_iff_toNat_le.2 (by omega))

/-- Every highlight is behind the place where the first one starts from. -/
theorem origin_notAfter (h : Highlight) : origin.notAfter h := by
  have hline : origin.line.toNat = 0 := rfl
  have hstart : origin.start.toNat = 0 := rfl
  rw [notAfter_iff_toNat]
  omega

end Highlight

theorem highlights_pairwise (program : Source.Program) (text : String) :
    (highlights program text).Pairwise fun a b => a.notAfter b :=
  List.pairwise_mergeSort Highlight.notAfter_trans Highlight.notAfter_total _

/-- **Each highlight is behind the one before it**, and the first one behind the origin. -/
theorem highlights_behind (program : Source.Program) (text : String) :
    (Highlight.origin :: highlights program text).IsChain Highlight.Behind := by
  have hsorted : (Highlight.origin :: highlights program text).Pairwise fun a b => a.notAfter b :=
    .cons (fun h _ => Highlight.origin_notAfter h) (highlights_pairwise program text)
  exact hsorted.isChain.imp fun _ _ => Highlight.Behind.of_notAfter

/-! ## Reading -/

/-- **What is read of a highlight**, its place and its length in plain numbers. -/
structure Reading where
  line : Nat
  start : Nat
  length : Nat
  category : Category
  traits : Traits
deriving DecidableEq

/-- What is to be read of a highlight. -/
def Highlight.reading (h : Highlight) : Reading :=
  ⟨h.line.toNat, h.start.toNat, h.length.toNat, h.category, h.traits⟩

/-- The category of a number. -/
def Category.ofIndex? (index : Nat) : Option Category :=
  Category.all[index]?

/-- All traits that can be said of a name together. -/
def Traits.all : List Traits :=
  [{}, { declares := true }, { readonly := true }, { declares := true, readonly := true }]

/-- The traits of a mask. -/
def Traits.ofMask? (mask : Nat) : Option Traits :=
  Traits.all.find? (·.mask = mask)

/-- Reads highlights behind a place: five numbers for each, and nothing else. -/
def readFrom? (line start : Nat) : List Nat → Option (List Reading)
  | [] => some []
  | lines :: distance :: length :: index :: mask :: rest => do
    let line := line + lines
    let start := if lines = 0 then start + distance else distance
    let category ← Category.ofIndex? index
    let traits ← Traits.ofMask? mask
    let behind ← readFrom? line start rest
    return ⟨line, start, length, category, traits⟩ :: behind
  | _ => none

/-- **Reads highlights** from the numbers that were sent for them. -/
def read? (numbers : List Nat) : Option (List Reading) :=
  readFrom? 0 0 numbers

/-- Readings tell highlights apart. -/
theorem Highlight.reading_injective : Function.Injective Highlight.reading := by
  rintro ⟨line, start, length, category, traits⟩ ⟨line', start', length', category', traits'⟩ h
  simpa only [reading, Reading.mk.injEq, UInt32.toNat_inj, Highlight.mk.injEq] using h

theorem Category.ofIndex?_index (c : Category) :
    ofIndex? (UInt32.ofNat c.index).toNat = some c := by
  cases c <;> rfl

theorem Traits.ofMask?_mask (t : Traits) : ofMask? (UInt32.ofNat t.mask).toNat = some t := by
  obtain ⟨declares, readonly⟩ := t
  cases declares <;> cases readonly <;> rfl

/-- A difference of lines is zero just on the same line. -/
theorem toNat_sub_eq_zero_iff {v w : UInt32} : (w - v).toNat = 0 ↔ w = v := by
  rw [← UInt32.toNat_zero, UInt32.toNat_inj, sub_eq_zero]

/-- One highlight is read from its five numbers. -/
theorem readFrom?_delta {previous h : Highlight} (hbehind : previous.Behind h) (rest : List Nat) :
    readFrom? previous.line.toNat previous.start.toNat ((h.delta previous).map UInt32.toNat ++ rest)
      = (readFrom? h.line.toNat h.start.toNat rest).map (h.reading :: ·) := by
  have hstart : (if (h.line - previous.line).toNat = 0 then previous.start.toNat +
        (if h.line - previous.line = 0 then h.start - previous.start else h.start).toNat
      else (if h.line - previous.line = 0 then h.start - previous.start else h.start).toNat)
        = h.start.toNat := by
    by_cases hline : h.line = previous.line
    · rw [if_pos (toNat_sub_eq_zero_iff.2 hline), if_pos (sub_eq_zero.2 hline)]
      exact hbehind.start hline
    · rw [if_neg (mt toNat_sub_eq_zero_iff.1 hline), if_neg (mt sub_eq_zero.1 hline)]
  simp only [Highlight.delta, List.map_cons, List.map_nil, List.cons_append, List.nil_append,
    readFrom?, hstart, hbehind.line, Category.ofIndex?_index, Traits.ofMask?_mask]
  cases readFrom? h.line.toNat h.start.toNat rest <;> rfl

/-- **Highlights are read back** if each is behind the one before it. -/
theorem readFrom?_deltasFrom {previous : Highlight} {hs : List Highlight}
    (hchain : (previous :: hs).IsChain Highlight.Behind) :
    readFrom? previous.line.toNat previous.start.toNat ((deltasFrom previous hs).map UInt32.toNat)
      = some (hs.map Highlight.reading) := by
  induction hs generalizing previous with
  | nil => rfl
  | cons h hs ih =>
    obtain ⟨hbehind, hrest⟩ := List.isChain_cons_cons.1 hchain
    rw [deltasFrom, List.map_append, readFrom?_delta hbehind, ih hrest]
    rfl

/-- **The highlights of a document are read back.** They are in the order of their lines, and of
their places in a line, and are all those that were recorded. No difference from one to the next
wraps. What is read from the numbers that are sent for them are these highlights and no other ones,
each with its place, its length, its category and its traits. -/
theorem deltas_readBack (program : Source.Program) (text : String) :
    (highlights program text).Pairwise
        (fun a b => a.line < b.line ∨ a.line = b.line ∧ a.start ≤ b.start) ∧
      (highlights program text).Perm (recorded program text) ∧
      (Highlight.origin :: highlights program text).IsChain Highlight.Behind ∧
      ∀ hs : List Highlight, read? (deltas (highlights program text))
        = some (hs.map Highlight.reading) ↔ hs = highlights program text := by
  refine ⟨(highlights_pairwise program text).imp Highlight.notAfter_iff.1, List.mergeSort_perm _ _,
    highlights_behind program text, fun hs => ?_⟩
  have hread : read? (deltas (highlights program text))
      = some ((highlights program text).map Highlight.reading) :=
    readFrom?_deltasFrom (highlights_behind program text)
  rw [hread, Option.some_inj, Highlight.reading_injective.list_map.eq_iff, eq_comm]

/-- A document with four characters of two bytes in front of a name. -/
def wideText : String :=
  "const s = \"éééé\"; const b: T = 1;"

/-- The highlights of the document, as its tree is walked. The second name is found among the bytes
of the line, the type behind it is placed by its characters: the walk goes back. -/
def wideRecorded : List Highlight :=
  [⟨0, 6, 1, .localName, declared true⟩, ⟨0, 28, 1, .localName, declared true⟩,
    ⟨0, 27, 1, .typeName, {}⟩, ⟨0, 31, 1, .number, {}⟩]

/-- The highlights of the document, in the order of their places. -/
def wideHighlights : List Highlight :=
  [⟨0, 6, 1, .localName, declared true⟩, ⟨0, 27, 1, .typeName, {}⟩,
    ⟨0, 28, 1, .localName, declared true⟩, ⟨0, 31, 1, .number, {}⟩]

/-- The numbers that are sent for the document, and what is read from them. -/
theorem deltas_readBack_wide :
    ¬ wideRecorded.Pairwise (fun a b => a.notAfter b) ∧
      ∃ program, Source.parse "t.ts" wideText = .ok program ∧
        recorded program wideText = wideRecorded ∧
        deltas (highlights program wideText)
          = [0, 6, 1, 4, 5, 0, 21, 1, 1, 0, 0, 1, 1, 4, 5, 0, 3, 1, 8, 0] ∧
        read? (deltas (highlights program wideText))
          = some (wideHighlights.map Highlight.reading) := by
  have hwalk : (Source.parse "t.ts" wideText).toOption.map (recorded · wideText)
      = some wideRecorded := by
    decide +kernel
  obtain ⟨program, hprogram, hrecorded⟩ := Option.map_eq_some_iff.1 hwalk
  have hsorted : highlights program wideText = wideHighlights := by
    rw [highlights, hrecorded]
    simp [wideRecorded, wideHighlights, List.mergeSort, List.MergeSort.Internal.splitInTwo,
      Highlight.notAfter]
  refine ⟨by decide, program, toOption_eq_some.1 hprogram, hrecorded, ?_, ?_⟩
  · rw [hsorted]
    rfl
  · exact ((deltas_readBack program wideText).2.2.2 wideHighlights).2 hsorted.symm

/-! ## Words for the numbers -/

/-- The number that is sent for a category is that of its word among those a session offers. -/
theorem capabilities_category (c : Category) :
    capabilities.categories[c.index]? = some c.word := by
  cases c <;> rfl

/-- **The bits that are sent for the traits** are those of their words among the ones a session
offers; no other bit is set. -/
theorem testBit_mask (t : Traits) (bit : Nat) :
    t.mask.testBit bit ↔
      (t.declares ∧ capabilities.traits[bit]? = some "declaration") ∨
        (t.readonly ∧ capabilities.traits[bit]? = some "readonly") := by
  obtain ⟨declares, readonly⟩ := t
  match bit with
  | 0 | 1 | 2 | 3 | 4 | 5 => cases declares <;> cases readonly <;> decide
  | bit + 6 =>
    have hnone : capabilities.traits[bit + 6]? = none := rfl
    have hsmall : (Traits.mask ⟨declares, readonly⟩).testBit (bit + 6) = false := by
      refine Nat.testBit_lt_two_pow (Nat.lt_of_lt_of_le ?_ (Nat.pow_le_pow_right (by decide)
        (Nat.le_add_left 6 bit)))
      cases declares <;> cases readonly <;> decide
    simp [hnone, hsmall]

end Editor

end Covenant
