import FormBody.Proofs.Framing.Basic

/-! The framing of a body and of a longer one that begins with it. What is complete in the shorter
body stays as it is, a part that is cut off keeps the header lines read so far, and behind the
closing marker nothing counts. -/
namespace FormBody

open Bytes

theorem Bytes.prefix_of_cutLine {marker text line rest : Bytes} (plain : IsLine marker)
    (whole : marker.getLast? ≠ some 13) (begins : marker <+: text)
    (cut : cutLine text = some (line, rest)) : marker <+: line := by
  obtain ⟨rfl, _⟩ := cutLine_eq_some_iff.mp cut
  by_cases fits : marker.length ≤ line.length
  · exact prefix_of_prefix_append begins fits
  · obtain ⟨tail, rfl⟩ : line <+: marker :=
      List.prefix_of_prefix_length_le (List.prefix_append _ _) begins (by omega)
    have tails := (List.prefix_append_right_inj line).mp begins
    match tail with
    | [] => simp
    | [b] =>
      obtain ⟨rfl, _⟩ := List.cons_prefix_cons.mp tails
      simp at whole
    | b :: c :: more =>
      obtain ⟨rfl, second⟩ := List.cons_prefix_cons.mp tails
      obtain ⟨rfl, _⟩ := List.cons_prefix_cons.mp second
      exact absurd ⟨line, more, by simp [crlf]⟩ plain

theorem Markers.Proper.getLast?_terminator {m : Markers} (proper : m.Proper) :
    m.terminator.getLast? ≠ some 13 := by
  rw [proper.terminator]
  simp [dashes]

namespace Framing

variable {m : Markers} {text : Bytes}

theorem gap_of_terminator (proper : m.Proper) (plain : IsLine m.terminator) (rest : Bytes) :
    gap m (m.terminator ++ rest) = .closed := by
  have begins : m.terminator <+: m.terminator ++ rest := List.prefix_append _ _
  cases cut : cutLine (m.terminator ++ rest) with
  | none => rw [gap_of_cutLine_none m cut, if_pos begins]
  | some first =>
    rw [gap_of_cutLine_some m cut,
      if_pos (prefix_of_cutLine plain proper.getLast?_terminator begins cut)]

/-- What closes a body is a terminator at the start of a line, and the lines up to it decide. -/
theorem exists_of_gap_closed (proper : m.Proper) (h : gap m text = .closed) :
    ∃ front rest, text = front ++ (m.terminator ++ rest) ∧ Anchored front ∧
      ∀ other, gap m (front ++ (m.terminator ++ other)) = .closed := by
  fun_induction gap m text with
  | case1 text cut begins =>
    obtain ⟨rest, rfl⟩ := begins
    have plain : IsLine m.terminator := fun inside =>
      cutLine_eq_none_iff.mp cut (inside.trans (List.prefix_append _ _).isInfix)
    exact ⟨[], rest, rfl, .inl rfl, gap_of_terminator proper plain⟩
  | case2 => cases h
  | case3 text line behind cut begins =>
    obtain ⟨rfl, lineFree⟩ := cutLine_eq_some_iff.mp cut
    obtain ⟨rest, rfl⟩ := begins
    have plain : IsLine m.terminator := fun inside =>
      lineFree (inside.trans (List.prefix_append _ _).isInfix)
    exact ⟨[], rest ++ (crlf ++ behind), by simp, .inl rfl, gap_of_terminator proper plain⟩
  | case4 => cases h
  | case5 text line behind cut notClosed notOpen ih =>
    obtain ⟨rfl, plain⟩ := cutLine_eq_some_iff.mp cut
    obtain ⟨front, rest, rfl, anchored, again⟩ := ih h
    refine ⟨line ++ crlf ++ front, rest, by simp only [List.append_assoc],
      (anchored_line line).append anchored, fun other => ?_⟩
    have cut := cutLine_append plain (front ++ (m.terminator ++ other))
    rw [List.append_assoc, List.append_assoc, gap_of_cutLine_some m cut, if_neg notClosed,
      if_neg notOpen, again]

/-- How the framing of a body relates to that of a longer one. -/
inductive Extends : Framing → Framing → Prop
  | closed (complete : List Frame) : Extends ⟨complete, .closed⟩ ⟨complete, .closed⟩
  | exhausted {complete more : List Frame} {g : Framing} :
      g.complete = complete ++ more → Extends ⟨complete, .exhausted⟩ g
  | inside {complete more : List Frame} {last frame : Frame} {g : Framing} :
      g.frames = complete ++ frame :: more → last.lines <+: frame.lines →
      Extends ⟨complete, .inside last⟩ g

theorem Extends.cons {f g : Framing} (frame : Frame) (h : Extends f g) :
    Extends (f.cons frame) (g.cons frame) := by
  cases h with
  | closed => exact .closed _
  | exhausted split => exact .exhausted (congrArg (frame :: ·) split)
  | @inside complete more last next g split lines =>
    refine @Extends.inside _ more _ _ _ ?_ lines
    rw [frames_cons, split]
    rfl

theorem block_prefix_append (text more : Bytes) : (block text).1 <+: (block (text ++ more)).1 := by
  fun_induction block text with
  | case1 => exact List.nil_prefix
  | case2 => exact List.nil_prefix
  | case3 text line behind cut filled others ih =>
    obtain ⟨rfl, plain⟩ := cutLine_eq_some_iff.mp cut
    have cut := cutLine_append plain (behind ++ more)
    rw [List.append_assoc, List.append_assoc, block_of_cutLine_some cut, if_neg filled]
    exact List.cons_prefix_cons.mpr ⟨rfl, ih⟩

/-- Bytes behind a body add to its framing and change nothing in it but a part that was cut off. -/
theorem extends_append (proper : m.Proper) (text more : Bytes) :
    Extends (ofBytes m text) (ofBytes m (text ++ more)) := by
  fun_induction ofBytes m text with
  | case1 text closed =>
    obtain ⟨front, rest, rfl, _, again⟩ := exists_of_gap_closed proper closed
    rw [List.append_assoc, List.append_assoc, ofBytes_of_closed (again _)]
    exact .closed []
  | case2 text exhausted => exact .exhausted rfl
  | case3 text rest opened lines unended =>
    obtain ⟨front, rfl, _, _, again⟩ := gap_resume opened
    obtain ⟨content, others, split⟩ := frames_of_part (again (rest ++ more))
    have headers := block_prefix_append rest more
    rw [unended] at headers
    rw [List.append_assoc]
    exact .inside split headers
  | case4 text rest opened lines behind headed uncut =>
    obtain ⟨front, rfl, _, _, again⟩ := gap_resume opened
    obtain ⟨content, others, split⟩ := frames_of_part (again (rest ++ more))
    have headers := block_prefix_append rest more
    rw [headed] at headers
    rw [List.append_assoc]
    exact .inside split headers
  | case5 text rest opened lines behind headed content next captured ih =>
    obtain ⟨front, rfl, _, _, openedAgain⟩ := gap_resume opened
    obtain ⟨head, rfl, _, _, headedAgain⟩ := block_resume (congrArg Prod.snd headed)
    obtain ⟨body, rfl, _, capturedAgain⟩ := cutContent_resume captured
    have delimited := (cases_of_cutContent captured).1.trans (List.prefix_append next more)
    rw [headed] at headedAgain
    simp only [List.append_assoc]
    rw [ofBytes_of_cut (openedAgain _) (headedAgain _) (capturedAgain _ delimited)]
    exact ih.cons ⟨lines, content⟩

/-- A framing that is closed is settled by the bytes up to a terminator at the start of a line. -/
theorem exists_of_closed (proper : m.Proper) (h : (ofBytes m text).closed = true) :
    ∃ front rest, text = front ++ (m.terminator ++ rest) ∧ Anchored front ∧
      (ofBytes m (front ++ m.terminator)).closed = true := by
  fun_induction ofBytes m text with
  | case1 text closed =>
    obtain ⟨front, rest, rfl, anchored, again⟩ := exists_of_gap_closed proper closed
    refine ⟨front, rest, rfl, anchored, ?_⟩
    have upTo := again []
    rw [List.append_nil] at upTo
    rw [ofBytes_of_closed upTo]
    rfl
  | case2 => cases h
  | case3 => cases h
  | case4 => cases h
  | case5 text rest opened lines behind headed content next captured ih =>
    obtain ⟨front, rfl, _, anchored, openedAgain⟩ := gap_resume opened
    obtain ⟨head, rfl, _, headAnchored, headedAgain⟩ := block_resume (congrArg Prod.snd headed)
    obtain ⟨body, rfl, bodyAnchored, capturedAgain⟩ := cutContent_resume captured
    obtain ⟨last, more, rfl, lastAnchored, closed⟩ := ih h
    have delimited : m.delimiter <+: last ++ m.terminator := by
      have begins := (cases_of_cutContent captured).1
      rw [← List.append_assoc] at begins
      refine prefix_of_prefix_append begins ?_
      rw [proper.terminator]
      simp only [List.length_append]
      omega
    refine ⟨front ++ head ++ body ++ last, more, by simp only [List.append_assoc],
      ((anchored.append headAnchored).append bodyAnchored).append lastAnchored, ?_⟩
    rw [headed] at headedAgain
    simp only [List.append_assoc]
    rw [ofBytes_of_cut (openedAgain _) (headedAgain _) (capturedAgain _ delimited)]
    exact closed

end Framing
end FormBody
