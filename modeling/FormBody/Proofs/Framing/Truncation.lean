import FormBody.Proofs.Framing.Writing

/-! The first bytes of a written body. Wherever the body is cut off, what is left of it is framed into
the parts that are there with the delimiter behind them and, if its opening line is there, the next
part with the header lines in front of the cut and the content up to it. -/
namespace FormBody

open Bytes

theorem take_append_of_le {α : Type} {a : List α} {n : Nat} (enough : a.length ≤ n) (b : List α) :
    (a ++ b).take n = a ++ b.take (n - a.length) := by
  rw [List.take_append, List.take_of_length_le enough]

theorem getElem?_append_toList {α : Type} (list : List α) (more : Option α) (i : Nat) :
    (list ++ more.toList)[i]? =
      if i < list.length then list[i]? else if i = list.length then more else none := by
  rcases Nat.lt_trichotomy i list.length with before | here | after
  · rw [if_pos before, List.getElem?_append_left before]
  · subst here
    cases more <;> simp
  · rw [if_neg (by omega), if_neg (by omega), List.getElem?_eq_none_iff]
    cases more <;> simp <;> omega

namespace Bytes

theorem cutLine_take {line : Bytes} (plain : IsLine line) {n : Nat}
    (short : n < line.length + crlf.length) (rest : Bytes) :
    cutLine ((line ++ (crlf ++ rest)).take n) = none :=
  cutLine_eq_none_iff.mpr
    (not_infix_take_of_lt (index?_append_needle rest (by decide) plain) short)

theorem take_line {line : Bytes} {n : Nat} (enough : line.length + crlf.length ≤ n) (rest : Bytes) :
    (line ++ (crlf ++ rest)).take n =
      line ++ (crlf ++ rest.take (n - (line.length + crlf.length))) := by
  rw [take_append_of_le (by omega), take_append_of_le (by omega), Nat.sub_sub]

/-- A content that is cut off in front of the end of the delimiter behind it does not end. -/
theorem cutContent_take {delimiter content rest : Bytes} (plain : 13 ∉ delimiter)
    (apart : ¬ crlf ++ delimiter <:+: crlf ++ content) (delimited : delimiter <+: rest) {n : Nat}
    (short : n < content.length + crlf.length + delimiter.length) :
    cutContent delimiter ((content ++ (crlf ++ rest)).take n) = none := by
  have found : index? (crlf ++ delimiter) (crlf ++ (content ++ (crlf ++ rest))) =
      some (content.length + crlf.length) := by
    rcases cases_of_cutContent (cutContent_append plain apart delimited) with ⟨_, ⟨_, same⟩ | ⟨_, found⟩⟩
    · have size := congrArg List.length same
      simp only [List.length_append, length_crlf] at size
      omega
    · exact found
  have text : crlf ++ (content ++ (crlf ++ rest)).take n =
      (crlf ++ (content ++ (crlf ++ rest))).take (crlf.length + n) := by
    rw [take_append_of_le (Nat.le_add_right _ _), Nat.add_sub_cancel_left]
  rw [cutContent_eq_none_iff, text]
  apply not_infix_take_of_lt found
  rw [List.length_append]
  omega

theorem length_unlines_cons (line : Bytes) (lines : List Bytes) :
    (unlines (line :: lines)).length = line.length + crlf.length + (unlines lines).length := by
  simp [unlines, Nat.add_assoc]

/-- The lines that end, with their line breaks, within the first bytes of their text. -/
def linesWithin (n : Nat) : List Bytes → List Bytes
  | [] => []
  | line :: rest =>
    if line.length + crlf.length ≤ n then line :: linesWithin (n - (line.length + crlf.length)) rest
    else []

theorem linesWithin_prefix (n : Nat) (lines : List Bytes) : linesWithin n lines <+: lines := by
  induction lines generalizing n with
  | nil => exact List.nil_prefix
  | cons line rest ih =>
    rw [linesWithin]
    split
    · exact List.cons_prefix_cons.mpr ⟨rfl, ih _⟩
    · exact List.nil_prefix

theorem linesWithin_of_le {n : Nat} {lines : List Bytes} (enough : (unlines lines).length ≤ n) :
    linesWithin n lines = lines := by
  induction lines generalizing n with
  | nil => rfl
  | cons line rest ih =>
    rw [length_unlines_cons] at enough
    rw [linesWithin, if_pos (by omega), ih (by omega)]

theorem any_linesWithin {p : Bytes → Bool} {lines : List Bytes} (occurs : lines.any p) (n : Nat) :
    (linesWithin n lines).any p ↔ (unlines (lines.take (lines.findIdx p + 1))).length ≤ n := by
  induction lines generalizing n with
  | nil => simp at occurs
  | cons line rest ih =>
    by_cases here : p line
    · have first : (line :: rest).take ((line :: rest).findIdx p + 1) = [line] := by
        simp [List.findIdx_cons, here]
      rw [first, length_unlines_cons, linesWithin]
      by_cases fits : line.length + crlf.length ≤ n
      · rw [if_pos fits, List.any_cons, here]
        simpa [unlines] using fits
      · rw [if_neg fits]
        simpa [unlines] using fits
    · have later : rest.any p := by simpa [here] using occurs
      have front : (line :: rest).take ((line :: rest).findIdx p + 1) =
          line :: rest.take (rest.findIdx p + 1) := by
        simp [List.findIdx_cons, here]
      rw [front, length_unlines_cons, linesWithin]
      by_cases fits : line.length + crlf.length ≤ n
      · rw [if_pos fits, List.any_cons, Bool.eq_false_iff.mpr here, Bool.false_or, ih later]
        omega
      · simp only [fits, if_false, List.any_nil, Bool.false_eq_true, false_iff]
        omega

end Bytes

namespace Section

/-- The size of the line that opens a section. -/
def opening (m : Markers) (s : Section) : Nat :=
  m.delimiter.length + s.padding.length + crlf.length

def heading (m : Markers) (s : Section) : Nat :=
  s.opening m + ((unlines s.frame.lines).length + crlf.length)

/-- What the first bytes of a section are framed into, if there are not enough of them for the
delimiter behind it. -/
def cut? (m : Markers) (n : Nat) (s : Section) : Option Frame :=
  if n < s.opening m then none
  else some ⟨linesWithin (n - s.opening m) s.frame.lines,
    (s.frame.content ++ (crlf ++ m.delimiter)).take (n - s.heading m)⟩

theorem prefix_of_cut? {m : Markers} {s : Section} {n : Nat} {f : Frame} (h : s.cut? m n = some f) :
    f.lines <+: s.frame.lines := by
  unfold cut? at h
  split at h
  · cases h
  · cases h
    exact linesWithin_prefix _ _

/-- The number of bytes that the first sections take up. -/
def offset (m : Markers) (sections : List Section) (i : Nat) : Nat :=
  ((sections.take i).flatMap (encode m)).length

theorem length_encode (m : Markers) (s : Section) :
    (s.encode m).length = s.heading m + (s.frame.content.length + crlf.length) := by
  simp only [encode, heading, opening, List.length_append]
  omega

theorem offset_zero (m : Markers) (sections : List Section) : offset m sections 0 = 0 := rfl

theorem offset_cons_succ (m : Markers) (s : Section) (sections : List Section) (i : Nat) :
    offset m (s :: sections) (i + 1) = (s.encode m).length + offset m sections i := by
  simp [offset]

end Section

namespace Framing

variable {m : Markers} {s : Section}

theorem block_take_of_lt {lines : List Bytes} (proper : ∀ line ∈ lines, IsLine line ∧ line ≠ [])
    (rest : Bytes) {n : Nat} (short : n < (unlines lines).length + crlf.length) :
    block ((unlines lines ++ (crlf ++ rest)).take n) = (linesWithin n lines, none) := by
  induction lines generalizing n with
  | nil =>
    have plain : IsLine [] := by decide
    exact block_of_cutLine_none (cutLine_take plain short rest)
  | cons line lines ih =>
    obtain ⟨plain, filled⟩ := proper line List.mem_cons_self
    rw [length_unlines_cons] at short
    rw [unlines_cons_append, linesWithin]
    by_cases fits : line.length + crlf.length ≤ n
    · have others := ih (fun other mem => proper other (List.mem_cons_of_mem line mem))
        (n := n - (line.length + crlf.length)) (by omega)
      rw [if_pos fits, take_line fits, block_of_cutLine_some (cutLine_append plain _), others,
        if_neg (by simpa using filled)]
    · rw [if_neg fits, block_of_cutLine_none (cutLine_take plain (Nat.not_le.mp fits) _)]

theorem block_take_of_le {lines : List Bytes} (proper : ∀ line ∈ lines, IsLine line ∧ line ≠ [])
    (rest : Bytes) {n : Nat} (enough : (unlines lines).length + crlf.length ≤ n) :
    block ((unlines lines ++ (crlf ++ rest)).take n) =
      (lines, some (rest.take (n - ((unlines lines).length + crlf.length)))) := by
  rw [take_append_of_le (by omega), take_append_of_le (by omega), Nat.sub_sub, block_unlines proper]

theorem frames_take_section (proper : m.Proper) (plain : 13 ∉ m.delimiter) (written : s.Proper m)
    {rest : Bytes} (delimited : m.delimiter <+: rest) {n : Nat}
    (short : n < (s.encode m).length + m.delimiter.length) :
    (ofBytes m ((s.encode m ++ rest).take n)).frames = (s.cut? m n).toList := by
  rw [s.length_encode] at short
  have line : (m.delimiter ++ s.padding).length + crlf.length = s.opening m := by
    rw [List.length_append, Section.opening]
  have split : s.heading m = s.opening m + ((unlines s.frame.lines).length + crlf.length) := rfl
  rw [s.encode_append]
  by_cases opens : s.opening m ≤ n
  · rw [take_line (line ▸ opens), line, Section.cut?, if_neg (Nat.not_lt.mpr opens)]
    have opened := gap_opening proper plain written
    by_cases headed : s.heading m ≤ n
    · -- The cut is in the content or in the delimiter behind it.
      have block := block_take_of_le written.lines (s.frame.content ++ (crlf ++ rest))
        (n := n - s.opening m) (by omega)
      rw [Nat.sub_sub, ← split] at block
      have uncut := cutContent_take plain written.content delimited (n := n - s.heading m) (by omega)
      have same : (s.frame.content ++ (crlf ++ rest)).take (n - s.heading m) =
          (s.frame.content ++ (crlf ++ m.delimiter)).take (n - s.heading m) := by
        obtain ⟨more, rfl⟩ := delimited
        rw [← List.append_assoc crlf, ← List.append_assoc s.frame.content]
        apply List.take_append_of_le_length
        simp only [List.length_append]
        omega
      rw [ofBytes_of_uncut (opened _) block uncut, same, linesWithin_of_le (by omega)]
      rfl
    · -- The cut is in the header lines.
      have block := block_take_of_lt written.lines (s.frame.content ++ (crlf ++ rest))
        (n := n - s.opening m) (by omega)
      have nothing : n - s.heading m = 0 := by omega
      rw [ofBytes_of_unended (opened _) block, nothing]
      rfl
  · -- The cut is in the line that opens the part.
    have short : n < (m.delimiter ++ s.padding).length + crlf.length := by omega
    have unopened := cutLine_take (isLine_append plain written.padding) short
    rw [frames_of_cutLine_none m (unopened _), Section.cut?, if_pos (by omega)]
    rfl

theorem frames_take_terminator (proper : m.Proper) (plain : 13 ∉ m.delimiter) (epilogue : Bytes)
    (n : Nat) : (ofBytes m ((m.terminator ++ epilogue).take n)).frames = [] := by
  have fresh : 13 ∉ m.terminator := by
    rw [proper.terminator]
    simpa [dashes] using plain
  by_cases whole : m.terminator.length ≤ n
  · rw [take_append_of_le whole,
      ofBytes_of_closed (gap_of_terminator proper (isLine_of_not_mem fresh) _)]
    rfl
  · apply frames_of_cutLine_none
    rw [cutLine_eq_none_iff, List.take_append_of_le_length (by omega)]
    exact isLine_of_not_mem fun mem => fresh (List.mem_of_mem_take mem)

/-- The parts in front of the cut: those with the delimiter behind them as they are, and what is left
of the next one. -/
theorem frames_take_sections (proper : m.Proper) (plain : 13 ∉ m.delimiter) {sections : List Section}
    (written : ∀ s ∈ sections, s.Proper m) (epilogue : Bytes) (n : Nat) :
    ∃ k ≤ sections.length,
      (∀ i < sections.length,
        i < k ↔ Section.offset m sections (i + 1) + m.delimiter.length ≤ n) ∧
      (ofBytes m ((sections.flatMap (Section.encode m) ++ (m.terminator ++ epilogue)).take n)).frames =
        (sections.take k).map Section.frame ++
          (sections[k]?.bind (Section.cut? m (n - Section.offset m sections k))).toList := by
  induction sections generalizing n with
  | nil => exact ⟨0, Nat.le_refl _, nofun, frames_take_terminator proper plain epilogue n⟩
  | cons s sections ih =>
    have first := written s List.mem_cons_self
    have delimited := delimiter_begins_sections proper sections epilogue
    rw [List.flatMap_cons, List.append_assoc]
    -- A section counts once the delimiter behind it is there.
    by_cases received : (s.encode m).length + m.delimiter.length ≤ n
    · obtain ⟨k, inside, complete, others⟩ :=
        ih (fun other mem => written other (List.mem_cons_of_mem s mem)) (n - (s.encode m).length)
      refine ⟨k + 1, Nat.succ_le_succ inside, ?_, ?_⟩
      · intro i bound
        rw [Section.offset_cons_succ]
        cases i with
        | zero => simp [Section.offset_zero, received]
        | succ i =>
          rw [Nat.succ_lt_succ_iff, complete i (Nat.lt_of_succ_lt_succ bound)]
          omega
      · have next : m.delimiter <+: (sections.flatMap (Section.encode m) ++
            (m.terminator ++ epilogue)).take (n - (s.encode m).length) :=
          List.prefix_take_iff.mpr ⟨delimited, by omega⟩
        rw [take_append_of_le (by omega), ofBytes_section proper plain first next, frames_cons, others,
          Section.offset_cons_succ, ← Nat.sub_sub]
        rfl
    · refine ⟨0, Nat.zero_le _, ?_, ?_⟩
      · intro i _
        rw [Section.offset_cons_succ]
        omega
      · exact frames_take_section proper plain first delimited (Nat.not_le.mp received)

theorem gap_take_unlines (proper : m.Proper) (plain : 13 ∉ m.delimiter) {lines : List Bytes}
    (skipped : ∀ line ∈ lines, IsLine line ∧ ¬ m.delimiter <+: line) (rest : Bytes) (n : Nat) :
    gap m ((unlines lines ++ rest).take n) = gap m (rest.take (n - (unlines lines).length)) := by
  induction lines generalizing n with
  | nil => rfl
  | cons line lines ih =>
    obtain ⟨isLine, notOpen⟩ := skipped line List.mem_cons_self
    rw [unlines_cons_append, length_unlines_cons]
    by_cases fits : line.length + crlf.length ≤ n
    · rw [take_line fits, gap_of_line proper isLine notOpen,
        ih fun other mem => skipped other (List.mem_cons_of_mem line mem), Nat.sub_sub]
    · have nothing : n - (line.length + crlf.length + (unlines lines).length) = 0 := by omega
      have notClosed : ¬ m.terminator <+: (line ++ (crlf ++ (unlines lines ++ rest))).take n := by
        intro closing
        have begins : m.delimiter <+: line ++ 13 :: 10 :: (unlines lines ++ rest) :=
          ((proper.terminator ▸ List.prefix_append _ _).trans closing).trans (List.take_prefix _ _)
        exact notOpen (prefix_of_prefix_append_cons begins plain)
      rw [nothing, List.take_zero, gap_nil proper,
        gap_of_cutLine_none m (cutLine_take isLine (Nat.not_le.mp fits) _), if_neg notClosed]

/-- The framing of the first bytes of a written body. -/
theorem frames_take_encode (proper : m.Proper) (plain : 13 ∉ m.delimiter) {preamble : List Bytes}
    (skipped : ∀ line ∈ preamble, IsLine line ∧ ¬ m.delimiter <+: line) {sections : List Section}
    (written : ∀ s ∈ sections, s.Proper m) (epilogue : Bytes) (n : Nat) :
    ∃ k ≤ sections.length,
      (∀ i < sections.length, i < k ↔
        (unlines preamble).length + Section.offset m sections (i + 1) + m.delimiter.length ≤ n) ∧
      (ofBytes m ((encode m preamble sections epilogue).take n)).frames =
        (sections.take k).map Section.frame ++ (sections[k]?.bind (Section.cut? m
          (n - ((unlines preamble).length + Section.offset m sections k)))).toList := by
  obtain ⟨k, inside, complete, frames⟩ :=
    frames_take_sections proper plain written epilogue (n - (unlines preamble).length)
  refine ⟨k, inside, ?_, ?_⟩
  · intro i bound
    have := List.length_pos_iff.mpr proper.delimiter_ne_nil
    rw [complete i bound]
    omega
  · rw [encode, ofBytes_congr (gap_take_unlines proper plain skipped _ n), frames, Nat.sub_sub]

end Framing
end FormBody
