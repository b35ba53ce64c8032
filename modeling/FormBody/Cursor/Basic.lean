import FormBody.Bytes

/-!
A cursor over a body. It marks a segment of the buffer and keeps what lies behind it. Every move
goes on from the end of the segment: to the next line, over a given number of bytes, or up to the
next delimiter that stands at the start of a line. A move says whether it found the end that it
looked for; if not, the segment runs to the end of the buffer.
-/
namespace FormBody

structure Cursor where
  buffer : Bytes
  /-- The offset of the segment in the buffer. -/
  start : Nat
  segment : Bytes
  rest : Bytes
  /-- A line has been read, so a line break ends the segment and the next line begins after it. -/
  begun : Bool
  deriving DecidableEq, Repr

namespace Cursor

open Bytes

def ofBytes (buffer : Bytes) : Cursor := ⟨buffer, 0, [], buffer, false⟩

def stop (c : Cursor) : Nat := c.start + c.segment.length

/-- Marks the next `length` bytes, or as many as are left. -/
def advance (length : Nat) (c : Cursor) : Cursor :=
  { c with start := c.stop, segment := c.rest.take length, rest := c.rest.drop length }

def advanceToEnd (c : Cursor) : Cursor :=
  { c with start := c.stop, segment := c.rest, rest := [] }

/-- Steps over the line break behind the segment; near the end of the buffer it stops there. -/
def skipBreak (c : Cursor) : Cursor := c.advance crlf.length

def advanceToBreak (c : Cursor) : Bool × Cursor :=
  match index? crlf c.rest with
  | some i => (true, c.advance i)
  | none => (false, c.advanceToEnd)

def rewind (c : Cursor) : Cursor :=
  { c with start := 0, segment := [], rest := c.buffer, begun := true }

/-- Moves to the next line; the first one starts with the buffer. -/
def nextLine (c : Cursor) : Bool × Cursor :=
  (if c.begun then c.skipBreak else c.rewind).advanceToBreak

/-- Moves to the next `length` bytes behind the line break, or to as many as are left. Before any
line has been read the first line is taken instead. -/
def nextFixed (length : Nat) (c : Cursor) : Bool × Cursor :=
  if c.begun then
    let next := c.skipBreak.advance length
    (next.segment.length == length, next)
  else c.nextLine

/-- The offset of the first line break that a delimiter follows. Occurrences of the delimiter are
tried in turn, and one without a line break directly in front of it is passed over by one byte. -/
def anchor? (delimiter : Bytes) : Bytes → Option Nat
  | [] => none
  | b :: rest =>
    match index? delimiter ((b :: rest).drop crlf.length) with
    | none => none
    | some i =>
      if crlf.isPrefixOf ((b :: rest).drop i) then some i
      else (anchor? delimiter (rest.drop i)).map (· + (i + 1))
termination_by text => text.length
decreasing_by simp only [List.length_drop, List.length_cons]; omega

/-- Moves to everything before the next line that starts with the delimiter. The line break behind
the present segment can already be the one in front of that line, or can overlap it: then the
segment is empty. -/
def advanceToBoundary (delimiter : Bytes) (c : Cursor) : Bool × Cursor :=
  match anchor? delimiter c.rest with
  | some i => (true, (c.advance (min crlf.length i)).advance (i - crlf.length))
  | none => (false, c.skipBreak.advanceToEnd)

/-- What is left to read, and one more as long as no line has been read. -/
def remaining (c : Cursor) : Nat :=
  if c.begun then c.rest.length else c.buffer.length + 1

theorem advanceToBreak_begun (c : Cursor) : c.advanceToBreak.2.begun = c.begun := by
  unfold advanceToBreak; split <;> rfl

theorem length_rest_advanceToBreak_le (c : Cursor) :
    c.advanceToBreak.2.rest.length ≤ c.rest.length := by
  unfold advanceToBreak; split <;> simp [advance, advanceToEnd]

theorem length_rest_pos_of_advanceToBreak {c : Cursor} (found : c.advanceToBreak.1 = true) :
    0 < c.rest.length := by
  unfold advanceToBreak at found
  split at found
  · next i h =>
    have := length_le_of_index? h
    rw [length_crlf] at this
    omega
  · cases found

theorem nextLine_begun (c : Cursor) : c.nextLine.2.begun = true := by
  unfold nextLine
  rw [advanceToBreak_begun]
  split
  · assumption
  · rfl

theorem nextLine_remaining_le (c : Cursor) : c.nextLine.2.remaining ≤ c.remaining := by
  rw [remaining, if_pos (nextLine_begun c)]
  unfold nextLine remaining
  refine Nat.le_trans (length_rest_advanceToBreak_le _) ?_
  split
  · simp [skipBreak, advance]
  · simp [rewind]

theorem nextLine_remaining_lt {c : Cursor} (found : c.nextLine.1 = true) :
    c.nextLine.2.remaining < c.remaining := by
  rw [remaining, if_pos (nextLine_begun c)]
  unfold nextLine at found ⊢
  have bound := length_rest_advanceToBreak_le (if c.begun then c.skipBreak else c.rewind)
  have more := length_rest_pos_of_advanceToBreak found
  unfold remaining
  split
  · next begun =>
    simp only [begun, if_true, skipBreak, advance, length_crlf, List.length_drop] at bound more ⊢
    omega
  · next begun =>
    simp only [begun, Bool.false_eq_true, if_false, rewind] at bound ⊢
    omega

theorem advanceToBoundary_remaining_le (delimiter : Bytes) (c : Cursor) :
    (c.advanceToBoundary delimiter).2.remaining ≤ c.remaining := by
  unfold advanceToBoundary
  split <;> by_cases begun : c.begun = true <;>
    simp [remaining, skipBreak, advance, advanceToEnd, begun]

end Cursor
end FormBody
