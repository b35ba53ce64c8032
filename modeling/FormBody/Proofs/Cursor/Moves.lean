import FormBody.Proofs.Cursor.Offsets

/-! Cursors that have been moved about in a buffer, by any moves in any order. Wherever such a cursor
stands, its move to the next delimiter comes to one search behind it: for the first line break, from the end
of the segment on, that the delimiter follows. -/
namespace FormBody.Cursor

open Bytes

inductive Move where
  | line
  | fixed (length : Nat)
  | boundary (delimiter : Bytes)
  deriving DecidableEq, Repr

def Move.Proper : Move → Prop
  | .boundary delimiter => delimiter ≠ []
  | _ => True

def move (c : Cursor) : Move → Bool × Cursor
  | .line => c.nextLine
  | .fixed length => c.nextFixed length
  | .boundary delimiter => c.advanceToBoundary delimiter

/-- Moves lead from the start of the buffer to this cursor. -/
inductive Reached (buffer : Bytes) : Cursor → Prop where
  | fresh : Reached buffer (.ofBytes buffer)
  | moved {c : Cursor} {m : Move} : Reached buffer c → m.Proper → Reached buffer (c.move m).2

variable {buffer delimiter : Bytes} {c : Cursor}

theorem Within.nextFixed (h : c.Within buffer) (length : Nat) : (c.nextFixed length).2.Within buffer := by
  unfold Cursor.nextFixed
  split
  · exact (h.advance crlf.length).advance length
  · exact h.nextLine

theorem Within.move (h : c.Within buffer) (m : Move) : (c.move m).2.Within buffer := by
  cases m with
  | line => exact h.nextLine
  | fixed length => exact h.nextFixed length
  | boundary delimiter => exact h.advanceToBoundary delimiter

theorem Reached.within (reached : c.Reached buffer) : c.Within buffer := by
  induction reached with
  | fresh => exact within_ofBytes buffer
  | moved _ _ ih => exact ih.move _

namespace Within

variable (h : c.Within buffer)

include h

theorem boundary_of_found (more : (c.advanceToBoundary delimiter).1 = true) :
    let next := (c.advanceToBoundary delimiter).2
    c.stop ≤ next.stop ∧ crlf ++ delimiter <+: buffer.drop next.stop ∧
      (∀ j, c.stop ≤ j → crlf ++ delimiter <+: buffer.drop j → next.stop ≤ j) ∧
      next.start = min (c.stop + crlf.length) next.stop := by
  cases found : index? (crlf ++ delimiter) c.rest with
  | none =>
    rw [(advanceToBoundary_of_index?_none h found).1] at more
    cases more
  | some i =>
    obtain ⟨_, start, stop, rest⟩ := advanceToBoundary_of_index? h found
    obtain ⟨here, first⟩ := index?_eq_some_iff.mp found
    have within := h.advanceToBoundary delimiter
    refine ⟨by omega, ?_, fun j behind occurs => ?_, by omega⟩
    · rw [within.drop_stop, rest]
      exact here
    · rw [h.drop_of_le behind] at occurs
      have := mt (first (j - c.stop)) (not_not.mpr occurs)
      omega

theorem boundary_of_missing (missing : (c.advanceToBoundary delimiter).1 = false) :
    let next := (c.advanceToBoundary delimiter).2
    (∀ j, c.stop ≤ j → ¬ crlf ++ delimiter <+: buffer.drop j) ∧
      next.start = min (c.stop + crlf.length) buffer.length ∧ next.stop = buffer.length := by
  cases found : index? (crlf ++ delimiter) c.rest with
  | some i =>
    rw [(advanceToBoundary_of_index? h found).1] at missing
    cases missing
  | none =>
    obtain ⟨_, start, stop⟩ := advanceToBoundary_of_index?_none h found
    refine ⟨fun j behind occurs => ?_, start, stop⟩
    rw [h.drop_of_le behind] at occurs
    exact index?_eq_none_iff.mp found (occurs.isInfix.trans (List.drop_suffix _ _).isInfix)

theorem advanceToBoundary_found_iff : (c.advanceToBoundary delimiter).1 = true ↔
    ∃ j, c.stop ≤ j ∧ crlf ++ delimiter <+: buffer.drop j := by
  constructor
  · intro more
    obtain ⟨behind, here, _⟩ := h.boundary_of_found more
    exact ⟨_, behind, here⟩
  · rintro ⟨j, behind, here⟩
    by_contra missing
    exact (h.boundary_of_missing (Bool.eq_false_iff.mpr missing)).1 j behind here

end Within

/-- The search that tries every occurrence of a delimiter is one search for a line break with the delimiter
behind it. Whatever moves the cursor has made, the delimiter is found if it stands at the start of a line
whose break is not in front of the end of the old segment. The new segment then ends with the first such
line break. It starts two bytes behind the old one unless it would start behind its end. The search looks at
no slice that the buffer does not have, and it ends in no other way. -/
theorem advanceToBoundary_eq_search (reached : c.Reached buffer) (nonempty : delimiter ≠ []) :
    let anchored := crlf ++ delimiter
    let moved := c.advanceToBoundary delimiter
    (moved.1 = true ↔ ∃ j, c.stop ≤ j ∧ anchored <+: buffer.drop j) ∧
    (moved.1 = true → c.stop ≤ moved.2.stop ∧ anchored <+: buffer.drop moved.2.stop ∧
      (∀ j, c.stop ≤ j → anchored <+: buffer.drop j → moved.2.stop ≤ j) ∧
      moved.2.start = min (c.stop + 2) moved.2.stop ∧
      (moved.2.segment = [] ↔ moved.2.stop ≤ c.stop + 2)) ∧
    (moved.1 = false →
      moved.2.start = min (c.stop + 2) buffer.length ∧ moved.2.stop = buffer.length) ∧
    moved.2.segment = buffer.extract moved.2.start moved.2.stop ∧ moved.2.stop ≤ buffer.length ∧
    ∀ result, c.ReachesBoundary delimiter result ↔ result = moved := by
  have h := reached.within
  have within := h.advanceToBoundary delimiter
  have searches := h.reachesBoundary nonempty
  refine ⟨h.advanceToBoundary_found_iff, fun more => ?_,
    fun missing => (h.boundary_of_missing missing).2, within.segment_eq, within.stop_le,
    fun result => ⟨fun other => other.unique searches, fun same => same ▸ searches⟩⟩
  obtain ⟨behind, here, first, start⟩ := h.boundary_of_found more
  have size : (c.advanceToBoundary delimiter).2.stop = (c.advanceToBoundary delimiter).2.start +
      (c.advanceToBoundary delimiter).2.segment.length := rfl
  refine ⟨behind, here, first, start, ?_⟩
  rw [← List.length_eq_zero_iff]
  rw [length_crlf] at start
  omega

def twoBreaks : Bytes := [13, 10, 13, 10, 45, 45, 88]

def onFirstLine : Cursor := ⟨twoBreaks, 0, [], twoBreaks, true⟩

/-- One byte further than the first line break, so that the segment ends inside of the second one. -/
def insideBreak : Cursor := ⟨twoBreaks, 2, [13], [10, 45, 45, 88], true⟩

theorem reached_onFirstLine : onFirstLine.Reached twoBreaks := .moved (m := .line) .fresh trivial

theorem reached_insideBreak : insideBreak.Reached twoBreaks :=
  .moved (m := .fixed 1) reached_onFirstLine trivial

theorem advanceToBoundary_eq_search_twoBreaks :
    (onFirstLine.advanceToBoundary [45, 45, 88]).1 = true ∧
      (onFirstLine.advanceToBoundary [45, 45, 88]).2.stop = 2 ∧
      (insideBreak.advanceToBoundary [45, 45, 88]).1 = false := by
  have nonempty : ([45, 45, 88] : Bytes) ≠ [] := by decide
  obtain ⟨found, place, _⟩ := advanceToBoundary_eq_search reached_onFirstLine nonempty
  obtain ⟨missed, _⟩ := advanceToBoundary_eq_search reached_insideBreak nonempty
  have more := found.mpr ⟨2, by decide, by decide⟩
  obtain ⟨_, here, first, _⟩ := place more
  have near := first 2 (by decide) (by decide)
  refine ⟨more, ?_, Bool.eq_false_iff.mpr fun other => ?_⟩
  · generalize (onFirstLine.advanceToBoundary [45, 45, 88]).2.stop = stop at here near
    match stop with
    | 0 => exact absurd here (by decide)
    | 1 => exact absurd here (by decide)
    | 2 => rfl
  · obtain ⟨j, behind, occurs⟩ := missed.mp other
    have late : 3 ≤ j := behind
    have short := occurs.length_le
    rw [List.length_drop] at short
    change 5 ≤ 7 - j at short
    omega

end FormBody.Cursor
