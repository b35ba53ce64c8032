import FormBody.Proofs.Framing.Refinement

/-! Where a cursor stands. Its segment and what lies behind it are the body from an offset on, every
move keeps them so, and where a move goes is settled by the offsets alone. -/
namespace FormBody.Cursor

open Bytes

variable {body delimiter : Bytes} {c : Cursor}

/-- The cursor stands inside of a body. -/
structure Within (body : Bytes) (c : Cursor) : Prop where
  buffer : c.buffer = body
  start_le : c.start ≤ body.length
  split : c.segment ++ c.rest = body.drop c.start

theorem within_ofBytes (body : Bytes) : (ofBytes body).Within body :=
  ⟨rfl, Nat.zero_le _, rfl⟩

namespace Within

variable (h : c.Within body)

include h

theorem stop_add_length : c.stop + c.rest.length = body.length := by
  have start := h.start_le
  have size := congrArg List.length h.split
  rw [List.length_append, List.length_drop] at size
  rw [stop]
  omega

theorem stop_le : c.stop ≤ body.length := by
  have := h.stop_add_length
  omega

theorem drop_stop : body.drop c.stop = c.rest := by
  rw [stop, ← List.drop_drop, ← h.split, List.drop_left]

theorem drop_of_le {j : Nat} (behind : c.stop ≤ j) : body.drop j = c.rest.drop (j - c.stop) := by
  rw [← h.drop_stop, List.drop_drop, Nat.add_sub_cancel' behind]

theorem segment_eq : c.segment = body.extract c.start c.stop := by
  rw [List.extract_eq_take_drop, stop, Nat.add_sub_cancel_left, ← h.split, List.take_left]

theorem advance (length : Nat) : (c.advance length).Within body where
  buffer := h.buffer
  start_le := h.stop_le
  split := (List.take_append_drop length c.rest).trans h.drop_stop.symm

theorem advanceToEnd : c.advanceToEnd.Within body where
  buffer := h.buffer
  start_le := h.stop_le
  split := (List.append_nil c.rest).trans h.drop_stop.symm

theorem rewind : c.rewind.Within body where
  buffer := h.buffer
  start_le := Nat.zero_le _
  split := h.buffer

theorem advanceToBreak : c.advanceToBreak.2.Within body := by
  unfold Cursor.advanceToBreak
  split
  · exact h.advance _
  · exact h.advanceToEnd

theorem nextLine : c.nextLine.2.Within body := by
  unfold Cursor.nextLine
  split
  · exact (h.advance crlf.length).advanceToBreak
  · exact h.rewind.advanceToBreak

theorem advanceToBoundary (delimiter : Bytes) : (c.advanceToBoundary delimiter).2.Within body := by
  unfold Cursor.advanceToBoundary
  split
  · exact (h.advance _).advance _
  · exact (h.advance crlf.length).advanceToEnd

end Within

def lineStart (c : Cursor) : Nat := if c.begun then min (c.stop + crlf.length) c.buffer.length else 0

theorem start_advanceToBreak (c : Cursor) : c.advanceToBreak.2.start = c.stop := by
  unfold advanceToBreak
  split <;> rfl

theorem Within.stop_skipBreak (h : c.Within body) :
    c.skipBreak.stop = min (c.stop + crlf.length) c.buffer.length := by
  have total := h.stop_add_length
  change c.stop + (c.rest.take crlf.length).length = _
  rw [List.length_take, h.buffer]
  omega

theorem Within.start_nextLine (h : c.Within body) : c.nextLine.2.start = c.lineStart := by
  rw [Cursor.nextLine, start_advanceToBreak, Cursor.lineStart]
  split
  · exact h.stop_skipBreak
  · rfl

theorem Within.drop_lineStart (h : c.Within body) : body.drop c.lineStart = c.ahead := by
  rw [← rest_before_line, lineStart]
  split
  · rw [← h.stop_skipBreak]
    exact (h.advance crlf.length).drop_stop
  · exact h.rewind.drop_stop

theorem Within.lineStart_le_length (h : c.Within body) : c.lineStart ≤ body.length := by
  rw [← h.start_nextLine]
  exact h.nextLine.start_le

theorem Within.stop_nextLine (h : c.Within body) :
    c.nextLine.2.stop = c.lineStart + c.nextLine.2.segment.length := by
  rw [stop, h.start_nextLine]

/-- A line has been read, and a line break stands behind it. -/
structure AtBreak (c : Cursor) : Prop where
  begun : c.begun = true
  broken : crlf <+: c.rest

theorem atBreak_nextLine (found : c.nextLine.1 = true) : c.nextLine.2.AtBreak := by
  obtain ⟨line, rest, cut⟩ := exists_of_nextLine found
  refine ⟨nextLine_begun c, ?_⟩
  rw [(nextLine_of_cutLine_some cut).2.2]
  exact List.prefix_append crlf rest

theorem AtBreak.lineStart (atBreak : c.AtBreak) (h : c.Within body) :
    c.lineStart = c.stop + crlf.length := by
  have total := h.stop_add_length
  have room := atBreak.broken.length_le
  rw [Cursor.lineStart, if_pos atBreak.begun, h.buffer]
  omega

theorem Within.lineStart_le (h : c.Within body) (found : c.nextLine.1 = true) :
    c.lineStart ≤ c.nextLine.2.lineStart := by
  rw [(atBreak_nextLine found).lineStart h.nextLine, h.stop_nextLine]
  omega

theorem advanceToBoundary_begun (delimiter : Bytes) (c : Cursor) :
    (c.advanceToBoundary delimiter).2.begun = c.begun := by
  unfold advanceToBoundary
  split <;> rfl

theorem advanceToBoundary_of_index? {i : Nat} (h : c.Within body)
    (found : index? (crlf ++ delimiter) c.rest = some i) :
    (c.advanceToBoundary delimiter).1 = true ∧
      (c.advanceToBoundary delimiter).2.start = c.stop + min crlf.length i ∧
      (c.advanceToBoundary delimiter).2.stop = c.stop + i ∧
      (c.advanceToBoundary delimiter).2.rest = c.rest.drop i := by
  have total := h.stop_add_length
  have fits := length_le_of_index? found
  rw [advanceToBoundary, anchor?_eq_index?, found]
  refine ⟨rfl, ?_, ?_, ?_⟩
  · change c.stop + (c.rest.take (min crlf.length i)).length = _
    rw [List.length_take]
    omega
  · change c.stop + (c.rest.take (min crlf.length i)).length +
      ((c.rest.drop (min crlf.length i)).take (i - crlf.length)).length = _
    rw [List.length_take, List.length_take, List.length_drop]
    omega
  · change (c.rest.drop (min crlf.length i)).drop (i - crlf.length) = _
    rw [List.drop_drop]
    congr 1
    omega

theorem advanceToBoundary_of_index?_none (h : c.Within body)
    (missing : index? (crlf ++ delimiter) c.rest = none) :
    (c.advanceToBoundary delimiter).1 = false ∧
      (c.advanceToBoundary delimiter).2.start = min (c.stop + crlf.length) body.length ∧
      (c.advanceToBoundary delimiter).2.stop = body.length := by
  have within := h.advanceToBoundary delimiter
  have total := within.stop_add_length
  rw [advanceToBoundary, anchor?_eq_index?, missing] at total ⊢
  refine ⟨rfl, ?_, total⟩
  rw [← h.buffer]
  exact h.stop_skipBreak

theorem prefix_of_advanceToBoundary (h : c.Within body)
    (more : (c.advanceToBoundary delimiter).1 = true) :
    crlf ++ delimiter <+: (c.advanceToBoundary delimiter).2.rest := by
  cases found : index? (crlf ++ delimiter) c.rest with
  | none =>
    rw [(advanceToBoundary_of_index?_none h found).1] at more
    cases more
  | some i =>
    rw [(advanceToBoundary_of_index? h found).2.2.2]
    exact prefix_of_index? found

theorem le_start_advanceToBoundary (h : c.Within body) (delimiter : Bytes) :
    c.stop ≤ (c.advanceToBoundary delimiter).2.start := by
  cases found : index? (crlf ++ delimiter) c.rest with
  | none =>
    rw [(advanceToBoundary_of_index?_none h found).2.1]
    exact Nat.le_min.mpr ⟨Nat.le_add_right _ _, h.stop_le⟩
  | some i =>
    rw [(advanceToBoundary_of_index? h found).2.1]
    exact Nat.le_add_right _ _

end FormBody.Cursor
