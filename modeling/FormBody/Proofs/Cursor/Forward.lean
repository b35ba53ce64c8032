import FormBody.Proofs.Cursor.Words
import Mathlib.Data.List.Permutation

/-! Sequences of moves. Every move stays inside of the buffer, and one that does not find the end that it
looked for stops at the end of the buffer. Only the first line is looked for from the start of the buffer:
once a line has been read, every segment starts behind the one before it. -/
namespace FormBody.Cursor

open Bytes

variable {buffer : Bytes} {c : Cursor} {m : Move} {moves : List Move}

/-- The move reads a line: a line of its own, or a number of bytes behind a line break. -/
def Move.ReadsLine : Move → Prop
  | .boundary _ => False
  | _ => True

theorem begun_of_readsLine (reads : m.ReadsLine) (c : Cursor) : (c.move m).2.begun = true := by
  cases m with
  | boundary delimiter => exact reads.elim
  | line => exact nextLine_begun c
  | fixed length =>
    change (c.nextFixed length).2.begun = true
    unfold nextFixed
    split
    · assumption
    · exact nextLine_begun c

theorem begun_move (begun : c.begun = true) (m : Move) : (c.move m).2.begun = true := by
  cases m with
  | boundary delimiter => exact (advanceToBoundary_begun delimiter c).trans begun
  | line => exact begun_of_readsLine (m := .line) trivial c
  | fixed length => exact begun_of_readsLine (m := .fixed length) trivial c

theorem nextFixed_of_begun (begun : c.begun = true) (length : Nat) :
    let next := c.skipBreak.advance length
    c.nextFixed length = (next.segment.length == length, next) := if_pos begun

namespace Within

variable (h : c.Within buffer)

include h

theorem stop_of_rest (nothing : c.rest = []) : c.stop = buffer.length := by
  have total := h.stop_add_length
  rwa [nothing] at total

theorem stop_of_nextLine_missing (missing : c.nextLine.1 = false) :
    c.nextLine.2.stop = buffer.length := by
  have uncut := cutLine_of_nextLine (Bool.eq_false_iff.mp missing)
  exact h.nextLine.stop_of_rest (nextLine_of_cutLine_none uncut).2.2

theorem length_segment_nextFixed (begun : c.begun = true) (length : Nat) :
    (c.nextFixed length).2.segment.length = min length (buffer.drop (c.stop + crlf.length)).length := by
  rw [nextFixed_of_begun begun, ← List.drop_drop, h.drop_stop]
  exact List.length_take

theorem nextFixed_found_iff (begun : c.begun = true) (length : Nat) :
    (c.nextFixed length).1 = true ↔ length ≤ (buffer.drop (c.stop + crlf.length)).length := by
  have taken := h.length_segment_nextFixed begun length
  rw [nextFixed_of_begun begun] at taken ⊢
  rw [beq_iff_eq, taken]
  omega

theorem stop_of_nextFixed_missing (length : Nat) (missing : (c.nextFixed length).1 = false) :
    (c.nextFixed length).2.stop = buffer.length := by
  by_cases begun : c.begun = true
  · have short := mt (h.nextFixed_found_iff begun length).mpr (Bool.eq_false_iff.mp missing)
    rw [← List.drop_drop, h.drop_stop] at short
    refine (h.nextFixed length).stop_of_rest ?_
    rw [nextFixed_of_begun begun]
    exact List.drop_eq_nil_iff.mpr (Nat.le_of_not_le short)
  · rw [Cursor.nextFixed, if_neg begun] at missing ⊢
    exact h.stop_of_nextLine_missing missing

theorem stop_of_missing (m : Move) (missing : (c.move m).1 = false) :
    (c.move m).2.stop = buffer.length := by
  cases m with
  | line => exact h.stop_of_nextLine_missing missing
  | fixed length => exact h.stop_of_nextFixed_missing length missing
  | boundary delimiter => exact (h.boundary_of_missing missing).2.2

theorem start_of_readsLine (begun : c.begun = true) (reads : m.ReadsLine) :
    (c.move m).2.start = min (c.stop + crlf.length) buffer.length := by
  rw [← h.buffer]
  cases m with
  | boundary delimiter => exact reads.elim
  | line =>
    refine h.start_nextLine.trans ?_
    rw [lineStart, if_pos begun]
  | fixed length =>
    change (c.nextFixed length).2.start = _
    rw [nextFixed_of_begun begun]
    exact h.stop_skipBreak

theorem le_start_move (begun : c.begun = true) (m : Move) : c.stop ≤ (c.move m).2.start := by
  have inside := h.stop_le
  cases m with
  | boundary delimiter => exact le_start_advanceToBoundary h delimiter
  | line =>
    rw [h.start_of_readsLine (m := .line) begun trivial]
    omega
  | fixed length =>
    rw [h.start_of_readsLine (m := .fixed length) begun trivial]
    omega

theorem stop_of_readsLine (begun : c.begun = true) (reads : m.ReadsLine) :
    c.stop + crlf.length ≤ (c.move m).2.stop ∨ (c.move m).2.stop = buffer.length := by
  have start := h.start_of_readsLine begun reads
  have forward : (c.move m).2.start ≤ (c.move m).2.stop := Nat.le_add_right _ _
  have inside := (h.move m).stop_le
  omega

theorem of_mem_trace {moved : Bool × Cursor} (mem : moved ∈ c.trace moves) :
    moved.2.Within buffer ∧ (moved.1 = false → moved.2.stop = buffer.length) := by
  induction moves generalizing c with
  | nil => cases mem
  | cons m moves ih =>
    rcases List.mem_cons.mp mem with rfl | later
    · exact ⟨h.move m, h.stop_of_missing m⟩
    · exact ih (h.move m) later

/-- The segments of a sequence follow one another, and the one that it begins behind. -/
theorem pairwise_trace (begun : c.begun = true) (moves : List Move) :
    (c.trace moves).Pairwise (fun old new => old.2.stop ≤ new.2.start) ∧
      ∀ moved ∈ c.trace moves, c.stop ≤ moved.2.start := by
  induction moves generalizing c with
  | nil => exact ⟨.nil, List.forall_mem_nil _⟩
  | cons m moves ih =>
    obtain ⟨pairwise, behind⟩ := ih (h.move m) (begun_move begun m)
    have first := h.le_start_move begun m
    refine ⟨List.pairwise_cons.mpr ⟨behind, pairwise⟩, List.forall_mem_cons.mpr ⟨first, ?_⟩⟩
    intro moved mem
    have forward : (c.move m).2.start ≤ (c.move m).2.stop := Nat.le_add_right _ _
    exact first.trans (forward.trans (behind moved mem))

end Within

theorem begun_of_mem_trace (begun : c.begun = true) : ∀ moved ∈ c.trace moves, moved.2.begun = true := by
  induction moves generalizing c with
  | nil => exact List.forall_mem_nil _
  | cons m moves ih =>
    have next := begun_move begun m
    exact List.forall_mem_cons.mpr ⟨next, ih next⟩

theorem begun_behind_line (reads : m.ReadsLine) :
    ∀ moved ∈ c.trace (m :: moves), moved.2.begun = true :=
  have begun := begun_of_readsLine reads c
  List.forall_mem_cons.mpr ⟨begun, begun_of_mem_trace begun⟩

theorem getElem?_trace_succ {i : Nat} {old : Bool × Cursor} (here : (c.trace moves)[i]? = some old)
    (next : moves[i + 1]? = some m) : (c.trace moves)[i + 1]? = some (old.2.move m) := by
  induction moves generalizing c i with
  | nil => cases here
  | cons first moves ih =>
    cases i with
    | zero =>
      obtain rfl := Option.some.inj here
      cases moves with
      | nil => cases next
      | cons second moves =>
        obtain rfl := Option.some.inj next
        rfl
    | succ i => exact ih here next

/-- Any moves in any order, made by a machine with larger words than the length of the buffer: every sum
is a word, every search ends, and every slice is one of the buffer, as is the segment. A move that
does not find its end stops at the end of the buffer. From a first line on no segment begins in front of the
end of the one before it, a line goes on by two bytes at least as long as there are two, and a number of
bytes is found where it is left behind the line break. -/
theorem moves_stay_inside {largest : Nat} (room : buffer.length < largest)
    (proper : ∀ m ∈ moves, m.Proper) :
    ∃ steps, Offsets.run? largest buffer ⟨0, 0, false⟩ moves = some steps ∧
      steps = ((ofBytes buffer).trace moves).map located ∧
      (∀ s ∈ steps, s.2.start ≤ s.2.stop ∧ s.2.stop ≤ buffer.length ∧
        (s.1 = false → s.2.stop = buffer.length)) ∧
      ∀ first ∈ moves.head?, first.ReadsLine →
        steps.Pairwise (fun old new => old.2.stop ≤ new.2.start) ∧
        ∀ i m old new, moves[i + 1]? = some m → steps[i]? = some old → steps[i + 1]? = some new →
          (m.ReadsLine → old.2.stop + 2 ≤ new.2.stop ∨ new.2.stop = buffer.length) ∧
          ∀ n, m = .fixed n →
            (new.1 = true ↔ n ≤ (buffer.drop (old.2.stop + 2)).length) ∧
            (new.1 = true → new.2.start + n = new.2.stop) := by
  have h := within_ofBytes buffer
  refine ⟨_, h.offsets_run? room proper, rfl, fun s mem => ?_, fun first head reads => ?_⟩
  · obtain ⟨moved, passed, rfl⟩ := List.mem_map.mp mem
    obtain ⟨within, ended⟩ := h.of_mem_trace passed
    exact ⟨Nat.le_add_right _ _, within.stop_le, ended⟩
  · cases moves with
    | nil => cases head
    | cons m moves =>
      obtain rfl := Option.some.inj head
      have begun := begun_of_readsLine reads (ofBytes buffer)
      refine ⟨?_, fun i m old new move here next => ?_⟩
      · obtain ⟨pairwise, behind⟩ := (h.move m).pairwise_trace begun moves
        exact List.pairwise_map.mpr (List.pairwise_cons.mpr ⟨behind, pairwise⟩)
      · rw [List.getElem?_map, Option.map_eq_some_iff] at here next
        obtain ⟨⟨_, c⟩, here, rfl⟩ := here
        obtain ⟨moved, next, rfl⟩ := next
        obtain rfl := Option.some.inj (next.symm.trans (getElem?_trace_succ here move))
        have within := (h.of_mem_trace (List.mem_of_getElem? here)).1
        have lined := begun_behind_line reads _ (List.mem_of_getElem? here)
        refine ⟨within.stop_of_readsLine lined, ?_⟩
        rintro n rfl
        have found := within.nextFixed_found_iff lined n
        have taken := within.length_segment_nextFixed lined n
        refine ⟨found, fun more => ?_⟩
        rw [Nat.min_eq_left (found.mp more)] at taken
        exact congrArg ((c.nextFixed n).2.start + ·) taken.symm

/-- A line, seven bytes of content with a delimiter behind their line break, and the line of the delimiter. -/
def linesAndContent : Bytes := Text.Utf8.encode "ab\r\ncontent\r\n--X\r\nd".toList

def mixedMoves : List Move := [.line, .fixed 3, .boundary [45, 45, 88], .line, .fixed 18446744073709551615]

theorem moves_stay_inside_mixedMoves :
    Offsets.run? 18446744073709551615 linesAndContent ⟨0, 0, false⟩ mixedMoves =
        some [(true, ⟨0, 2, true⟩), (true, ⟨4, 7, true⟩), (true, ⟨9, 11, true⟩), (true, ⟨13, 16, true⟩),
          (false, ⟨18, 19, true⟩)] ∧
      ¬ 18446744073709551615 ≤ (linesAndContent.drop 18).length := by
  have room : linesAndContent.length < 18446744073709551615 := by decide
  have proper : ∀ m ∈ mixedMoves, m.Proper := by simp [mixedMoves, Move.Proper]
  obtain ⟨steps, run, located, -, forward⟩ := moves_stay_inside room proper
  have traced : ((ofBytes linesAndContent).trace mixedMoves).map Cursor.located =
      [(true, ⟨0, 2, true⟩), (true, ⟨4, 7, true⟩), (true, ⟨9, 11, true⟩), (true, ⟨13, 16, true⟩),
        (false, ⟨18, 19, true⟩)] := by decide +kernel
  rw [traced] at located
  obtain rfl := located
  obtain ⟨-, later⟩ := forward .line rfl trivial
  obtain ⟨-, asked⟩ := later 3 (.fixed 18446744073709551615) _ _ rfl rfl rfl
  exact ⟨run, fun enough => Bool.false_ne_true ((asked _ rfl).1.mpr enough)⟩

end FormBody.Cursor
