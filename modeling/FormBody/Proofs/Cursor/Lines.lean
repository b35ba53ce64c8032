import FormBody.Proofs.Cursor.Forward
import Mathlib.Data.List.Infix

/-! The lines of a buffer, read one after another up to the first that no line break ends. There is one more
of them than there are line breaks, and joined with line breaks they are the buffer again, so that no byte is
lost and none is read twice. -/
namespace FormBody

namespace Bytes

variable {needle text line : Bytes}

/-- At how many offsets of a text another one stands. -/
def occurrences (needle text : Bytes) : Nat := text.tails.countP (needle.isPrefixOf ·)

theorem occurrences_cons (needle : Bytes) (b : UInt8) (text : Bytes) : occurrences needle (b :: text) =
    occurrences needle text + if needle.isPrefixOf (b :: text) then 1 else 0 := by
  rw [occurrences, List.tails_cons, List.countP_cons, occurrences]

theorem occurrences_eq_zero (absent : ¬ needle <:+: text) : occurrences needle text = 0 := by
  rw [occurrences, List.countP_eq_zero]
  intro tail mem begins
  have behind := (List.mem_tails _ _).mp mem
  exact absent ((List.isPrefixOf_iff_prefix.mp begins).isInfix.trans behind.isInfix)

theorem occurrences_of_index? {i : Nat} (nonempty : needle ≠ []) (found : index? needle text = some i) :
    occurrences needle text = occurrences needle (text.drop (i + 1)) + 1 := by
  induction text generalizing i with
  | nil =>
    rw [index?_nil, if_neg (mt List.isEmpty_iff.mp nonempty)] at found
    cases found
  | cons b text ih =>
    rw [index?_cons] at found
    rw [occurrences_cons]
    split at found
    · next here =>
      obtain rfl := Option.some.inj found
      rw [if_pos here]
      rfl
    · next elsewhere =>
      obtain ⟨j, later, rfl⟩ := Option.map_eq_some_iff.mp found
      rw [if_neg elsewhere, ih later]
      rfl

theorem occurrences_line (plain : IsLine line) (rest : Bytes) :
    occurrences crlf (line ++ (crlf ++ rest)) = occurrences crlf rest + 1 := by
  have found : index? crlf (line ++ (crlf ++ rest)) = some line.length :=
    index?_append_needle rest (by decide) plain
  have behind : (line ++ (crlf ++ rest)).drop (line.length + 1) = 10 :: rest := by
    rw [← List.drop_drop, List.drop_left]
    rfl
  rw [occurrences_of_index? (by decide) found, behind, occurrences_cons]
  rfl

end Bytes

namespace Cursor

open Bytes

variable {buffer : Bytes} {c : Cursor}

/-- Moves from line to line, up to the first one that no line break ends. -/
def readLines (c : Cursor) : List (Bool × Cursor) :=
  if _ : c.nextLine.1 then c.nextLine :: c.nextLine.2.readLines else [c.nextLine]
termination_by c.remaining
decreasing_by exact nextLine_remaining_lt ‹_›

def lines (c : Cursor) : List Bytes := c.readLines.map (·.2.segment)

theorem lines_ne_nil (c : Cursor) : c.lines ≠ [] := by
  rw [lines, readLines]
  split <;> simp

theorem intercalate_lines (c : Cursor) : crlf.intercalate c.lines = c.ahead := by
  unfold lines
  fun_induction readLines c with
  | case1 c found ih =>
    obtain ⟨line, rest, cut⟩ := exists_of_nextLine found
    obtain ⟨-, segment, -⟩ := nextLine_of_cutLine_some cut
    obtain ⟨split, -⟩ := cutLine_eq_some_iff.mp cut
    rw [nextLine_ahead cut] at ih
    have joined : crlf.intercalate (line :: c.nextLine.2.lines) =
        line ++ (crlf ++ crlf.intercalate c.nextLine.2.lines) := by
      cases others : c.nextLine.2.lines with
      | nil => exact absurd others (lines_ne_nil _)
      | cons second others => simp
    rw [List.map_cons, segment, split, ← ih]
    exact joined
  | case2 c missing =>
    obtain ⟨-, segment, -⟩ := nextLine_of_cutLine_none (cutLine_of_nextLine missing)
    simp [segment]

theorem isLine_of_mem_lines : ∀ line ∈ c.lines, IsLine line := by
  unfold lines
  fun_induction readLines c with
  | case1 c found ih =>
    obtain ⟨line, rest, cut⟩ := exists_of_nextLine found
    obtain ⟨-, plain⟩ := cutLine_eq_some_iff.mp cut
    rw [List.map_cons, (nextLine_of_cutLine_some cut).2.1]
    exact List.forall_mem_cons.mpr ⟨plain, ih⟩
  | case2 c missing =>
    have uncut := cutLine_of_nextLine missing
    rw [List.map_singleton, (nextLine_of_cutLine_none uncut).2.1]
    exact List.forall_mem_singleton.mpr (cutLine_eq_none_iff.mp uncut)

/-- Every line but the last one is answered with yes, and they are as many as the line breaks ahead. -/
theorem answers_readLines (c : Cursor) :
    c.readLines.map (·.1) = List.replicate (occurrences crlf c.ahead) true ++ [false] := by
  fun_induction readLines c with
  | case1 c found ih =>
    obtain ⟨line, rest, cut⟩ := exists_of_nextLine found
    obtain ⟨split, plain⟩ := cutLine_eq_some_iff.mp cut
    rw [nextLine_ahead cut] at ih
    rw [List.map_cons, ih, found, split, occurrences_line plain]
    rfl
  | case2 c missing =>
    have uncut := cutLine_eq_none_iff.mp (cutLine_of_nextLine missing)
    rw [List.map_singleton, occurrences_eq_zero uncut, Bool.eq_false_iff.mpr missing]
    rfl

theorem readLines_eq_trace (c : Cursor) :
    c.readLines = c.trace (List.replicate (occurrences crlf c.ahead + 1) .line) := by
  fun_induction readLines c with
  | case1 c found ih =>
    obtain ⟨line, rest, cut⟩ := exists_of_nextLine found
    obtain ⟨split, plain⟩ := cutLine_eq_some_iff.mp cut
    rw [nextLine_ahead cut] at ih
    rw [split, occurrences_line plain, ih]
    rfl
  | case2 c missing =>
    rw [occurrences_eq_zero (cutLine_eq_none_iff.mp (cutLine_of_nextLine missing))]
    rfl

/-- Where the cursor stands behind the last line. -/
structure Exhausted (buffer : Bytes) (c : Cursor) : Prop where
  within : c.Within buffer
  begun : c.begun = true
  nothing : c.rest = []

theorem exhausted_of_missing (h : c.Within buffer) (missing : ¬ c.nextLine.1 = true) :
    c.nextLine.2.Exhausted buffer where
  within := h.nextLine
  begun := nextLine_begun c
  nothing := (nextLine_of_cutLine_none (cutLine_of_nextLine missing)).2.2

theorem Within.exhausted_of_mem_readLines (h : c.Within buffer) :
    ∀ s ∈ c.readLines, s.1 = false → s.2.Exhausted buffer := by
  fun_induction readLines c with
  | case1 c found ih =>
    refine List.forall_mem_cons.mpr ⟨fun missing => ?_, ih h.nextLine⟩
    rw [found] at missing
    cases missing
  | case2 c missing => exact List.forall_mem_singleton.mpr fun _ => exhausted_of_missing h missing

theorem Exhausted.nextLine (ended : c.Exhausted buffer) :
    c.nextLine.1 = false ∧ c.nextLine.2.segment = [] ∧ c.nextLine.2.start = buffer.length ∧
      c.nextLine.2.Exhausted buffer := by
  have h := ended.within
  have ahead : c.ahead = [] := by
    rw [ahead_of_begun ended.begun, ended.nothing]
    rfl
  have uncut : cutLine c.ahead = none := by
    rw [ahead]
    rfl
  obtain ⟨missing, segment, -⟩ := nextLine_of_cutLine_none uncut
  have start := h.start_nextLine
  rw [lineStart, if_pos ended.begun, h.stop_of_rest ended.nothing, h.buffer,
    Nat.min_eq_right (Nat.le_add_right _ _)] at start
  exact ⟨missing, segment.trans ahead, start, exhausted_of_missing h (Bool.eq_false_iff.mp missing)⟩

theorem Exhausted.of_mem_trace (ended : c.Exhausted buffer) (more : Nat) :
    ∀ s ∈ c.trace (List.replicate more .line),
      s.1 = false ∧ s.2.segment = [] ∧ s.2.start = buffer.length := by
  induction more generalizing c with
  | zero => exact List.forall_mem_nil _
  | succ more ih =>
    obtain ⟨missing, segment, start, again⟩ := ended.nextLine
    exact List.forall_mem_cons.mpr ⟨⟨missing, segment, start⟩, ih again⟩

/-- Reading a buffer line by line takes it apart at its line breaks and nowhere else. It takes one move more
than there are line breaks, of which only the last one finds none. No line holds a line break, and joined
with line breaks the lines are the buffer: a carriage return or a line feed on its own belongs to a line.
Every move behind the last line leads to an empty segment at the end of the buffer. -/
theorem readLines_eq_split (buffer : Bytes) :
    let steps := (ofBytes buffer).readLines
    let lines := steps.map (·.2.segment)
    let breaks := occurrences crlf buffer
    steps = (ofBytes buffer).trace (List.replicate (breaks + 1) .line) ∧
      steps.map (·.1) = List.replicate breaks true ++ [false] ∧ lines.length = breaks + 1 ∧
      (∀ line ∈ lines, IsLine line) ∧ crlf.intercalate lines = buffer ∧
      ∀ last ∈ steps, last.1 = false → ∀ more, ∀ s ∈ last.2.trace (List.replicate more .line),
        s.1 = false ∧ s.2.segment = [] ∧ s.2.start = buffer.length := by
  intro steps lines breaks
  have answers : steps.map (·.1) = List.replicate breaks true ++ [false] := answers_readLines (ofBytes buffer)
  have count := congrArg List.length answers
  rw [List.length_map, List.length_append, List.length_replicate] at count
  have ended := (within_ofBytes buffer).exhausted_of_mem_readLines
  refine ⟨readLines_eq_trace _, answers, (List.length_map _).trans count, isLine_of_mem_lines,
    intercalate_lines _, fun last mem missing more => (ended last mem missing).of_mem_trace more⟩

example : (ofBytes [13, 10, 97, 13, 13, 10, 10]).lines = [[], [97, 13], [10]] := by decide +kernel

end Cursor
end FormBody
