import FormBody.Boundary
import FormBody.Proofs.Framing.Cut

/-! The framing of a body: which bytes are header lines, which are content, and where the parts end.
It is computed from the markers and the positions of line breaks alone; neither what a header says
nor what a policy allows has an influence on it. -/
namespace FormBody

def Bytes.dashes : Bytes := [45, 45]

/-- How the markers of a boundary are made up. -/
structure Markers.Proper (m : Markers) : Prop where
  delimiter : Bytes.dashes <+: m.delimiter
  terminator : m.terminator = m.delimiter ++ Bytes.dashes

theorem Markers.proper_ofBoundary (boundary : String) : (Markers.ofBoundary boundary).Proper :=
  ⟨⟨_, rfl⟩, rfl⟩

theorem Markers.Proper.delimiter_ne_nil {m : Markers} (proper : m.Proper) : m.delimiter ≠ [] := by
  obtain ⟨token, split⟩ := proper.delimiter
  simp [← split, Bytes.dashes]

theorem Markers.Proper.terminator_length_pos {m : Markers} (proper : m.Proper) :
    0 < m.terminator.length := by
  simp [proper.terminator, Bytes.dashes]

/-- What stands between two delimiters. -/
structure Frame where
  lines : List Bytes
  content : Bytes
  deriving DecidableEq, Repr

/-- Where the framing of a body stops. -/
inductive Ending where
  /-- At a line that starts with the terminator. -/
  | closed
  /-- At the end of the input, behind all parts. -/
  | exhausted
  /-- At the end of the input, inside of a part. -/
  | inside (last : Frame)
  deriving DecidableEq, Repr

structure Framing where
  /-- The parts that a delimiter ends. -/
  complete : List Frame
  ending : Ending
  deriving DecidableEq, Repr

/-- What a search for the next part comes to. -/
inductive Gap where
  /-- The text stands behind the line that opens a part. -/
  | part (text : Bytes)
  | closed
  | exhausted
  deriving DecidableEq, Repr

namespace Framing

open Bytes

def closed (f : Framing) : Bool := f.ending == .closed

/-- All parts, the one that the end of the input cuts off included. -/
def frames (f : Framing) : List Frame :=
  match f.ending with
  | .inside last => f.complete ++ [last]
  | _ => f.complete

def cons (frame : Frame) (f : Framing) : Framing := { f with complete := frame :: f.complete }

theorem frames_cons (frame : Frame) (f : Framing) : (f.cons frame).frames = frame :: f.frames := by
  unfold frames cons
  cases f.ending <;> rfl

theorem complete_prefix_frames (f : Framing) : f.complete <+: f.frames := by
  unfold frames
  split
  · exact List.prefix_append _ _
  · exact List.prefix_refl _

/-- Skips lines up to the one that opens a part or closes the body. Only the closing line counts
without a line break behind it. -/
def gap (m : Markers) (text : Bytes) : Gap :=
  match _ : cutLine text with
  | none => if m.terminator <+: text then .closed else .exhausted
  | some (line, rest) =>
    if m.terminator <+: line then .closed
    else if m.delimiter <+: line then .part rest
    else gap m rest
termination_by text.length
decreasing_by exact length_of_cutLine ‹_›

/-- The header lines in front of the first empty line, and the text behind that line if there is
one. -/
def block (text : Bytes) : List Bytes × Option Bytes :=
  match _ : cutLine text with
  | none => ([], none)
  | some (line, rest) =>
    if line.isEmpty then ([], some rest)
    else
      let others := block rest
      (line :: others.1, others.2)
termination_by text.length
decreasing_by exact length_of_cutLine ‹_›

theorem gap_of_cutLine_none (m : Markers) {text : Bytes} (h : cutLine text = none) :
    gap m text = if m.terminator <+: text then .closed else .exhausted := by
  unfold gap
  split
  · rfl
  · next line rest cut => rw [h] at cut; cases cut

theorem gap_of_cutLine_some (m : Markers) {text line rest : Bytes}
    (h : cutLine text = some (line, rest)) :
    gap m text = if m.terminator <+: line then .closed
      else if m.delimiter <+: line then .part rest else gap m rest := by
  rw [gap]
  split
  · next cut => rw [h] at cut; cases cut
  · next cut => rw [h] at cut; cases cut; rfl

theorem block_of_cutLine_none {text : Bytes} (h : cutLine text = none) :
    block text = ([], none) := by
  unfold block
  split
  · rfl
  · next cut => rw [h] at cut; cases cut

theorem block_of_cutLine_some {text line rest : Bytes} (h : cutLine text = some (line, rest)) :
    block text = if line.isEmpty then ([], some rest)
      else (line :: (block rest).1, (block rest).2) := by
  rw [block]
  split
  · next cut => rw [h] at cut; cases cut
  · next cut => rw [h] at cut; cases cut; rfl

theorem gap_nil {m : Markers} (proper : m.Proper) : gap m [] = .exhausted := by
  rw [gap_of_cutLine_none m rfl, if_neg]
  intro begins
  have short := begins.length_le
  have := proper.terminator_length_pos
  rw [List.length_nil] at short
  omega

/-- Behind the line that opens a part anything may follow. -/
theorem gap_resume {m : Markers} {text rest : Bytes} (h : gap m text = .part rest) :
    ∃ front, text = front ++ rest ∧ front ≠ [] ∧ Anchored front ∧
      ∀ other, gap m (front ++ other) = .part other := by
  fun_induction gap m text with
  | case1 => cases h
  | case2 => cases h
  | case3 => cases h
  | case4 text line behind cut notClosed opens =>
    cases h
    obtain ⟨rfl, plain⟩ := cutLine_eq_some_iff.mp cut
    refine ⟨line ++ crlf, (List.append_assoc ..).symm, by simp [crlf], anchored_line line,
      fun other => ?_⟩
    rw [List.append_assoc, gap_of_cutLine_some m (cutLine_append plain other), if_neg notClosed,
      if_pos opens]
  | case5 text line behind cut notClosed notOpen ih =>
    obtain ⟨rfl, plain⟩ := cutLine_eq_some_iff.mp cut
    obtain ⟨front, rfl, _, anchored, again⟩ := ih h
    refine ⟨line ++ crlf ++ front, by simp only [List.append_assoc], by simp [crlf],
      (anchored_line line).append anchored, fun other => ?_⟩
    rw [List.append_assoc, List.append_assoc,
      gap_of_cutLine_some m (cutLine_append plain (front ++ other)), if_neg notClosed,
        if_neg notOpen, again]

theorem block_resume {text rest : Bytes} (h : (block text).2 = some rest) :
    ∃ front, text = front ++ rest ∧ front ≠ [] ∧ Anchored front ∧
      ∀ other, block (front ++ other) = ((block text).1, some other) := by
  fun_induction block text with
  | case1 => cases h
  | case2 text line behind cut blank =>
    cases h
    obtain ⟨rfl, plain⟩ := cutLine_eq_some_iff.mp cut
    refine ⟨line ++ crlf, (List.append_assoc ..).symm, by simp [crlf], anchored_line line,
      fun other => ?_⟩
    rw [List.append_assoc, block_of_cutLine_some (cutLine_append plain other), if_pos blank]
  | case3 text line behind cut filled others ih =>
    obtain ⟨rfl, plain⟩ := cutLine_eq_some_iff.mp cut
    obtain ⟨front, rfl, _, anchored, again⟩ := ih h
    refine ⟨line ++ crlf ++ front, by simp only [List.append_assoc], by simp [crlf],
      (anchored_line line).append anchored, fun other => ?_⟩
    rw [List.append_assoc, List.append_assoc,
      block_of_cutLine_some (cutLine_append plain (front ++ other)), if_neg filled, again]

theorem length_of_gap {m : Markers} {text rest : Bytes} (h : gap m text = .part rest) :
    rest.length < text.length := by
  obtain ⟨front, rfl, nonempty, _⟩ := gap_resume h
  have := List.length_pos_iff.mpr nonempty
  simp only [List.length_append]
  omega

theorem length_of_block {text rest : Bytes} (h : (block text).2 = some rest) :
    rest.length < text.length := by
  obtain ⟨front, rfl, nonempty, _⟩ := block_resume h
  have := List.length_pos_iff.mpr nonempty
  simp only [List.length_append]
  omega

/-- The framing of a text that begins with a line. -/
def ofBytes (m : Markers) (text : Bytes) : Framing :=
  match _ : gap m text with
  | .closed => ⟨[], .closed⟩
  | .exhausted => ⟨[], .exhausted⟩
  | .part rest =>
    match _ : block rest with
    | (lines, none) => ⟨[], .inside ⟨lines, []⟩⟩
    | (lines, some behind) =>
      match _ : cutContent m.delimiter behind with
      | none => ⟨[], .inside ⟨lines, behind⟩⟩
      | some (content, next) => (ofBytes m next).cons ⟨lines, content⟩
termination_by text.length
decreasing_by
  have opened := length_of_gap ‹_›
  have headed := length_of_block (congrArg Prod.snd ‹block rest = _›)
  have captured := length_of_cutContent ‹_›
  omega

theorem ofBytes_of_closed {m : Markers} {text : Bytes} (h : gap m text = .closed) :
    ofBytes m text = ⟨[], .closed⟩ := by
  rw [ofBytes]
  split <;> simp_all

theorem ofBytes_of_exhausted {m : Markers} {text : Bytes} (h : gap m text = .exhausted) :
    ofBytes m text = ⟨[], .exhausted⟩ := by
  rw [ofBytes]
  split <;> simp_all

theorem ofBytes_of_unended {m : Markers} {text rest : Bytes} {lines : List Bytes}
    (opened : gap m text = .part rest) (unended : block rest = (lines, none)) :
    ofBytes m text = ⟨[], .inside ⟨lines, []⟩⟩ := by
  rw [ofBytes]
  split
  · simp_all
  · simp_all
  · next text' same =>
    rw [opened] at same
    cases same
    split <;> simp_all

theorem ofBytes_of_uncut {m : Markers} {text rest behind : Bytes} {lines : List Bytes}
    (opened : gap m text = .part rest) (headed : block rest = (lines, some behind))
    (uncut : cutContent m.delimiter behind = none) :
    ofBytes m text = ⟨[], .inside ⟨lines, behind⟩⟩ := by
  rw [ofBytes]
  split
  · simp_all
  · simp_all
  · next text' same =>
    rw [opened] at same
    cases same
    split
    · simp_all
    · next lines' behind' same =>
      rw [headed] at same
      cases same
      split <;> simp_all

theorem ofBytes_of_cut {m : Markers} {text rest behind content next : Bytes} {lines : List Bytes}
    (opened : gap m text = .part rest) (headed : block rest = (lines, some behind))
    (captured : cutContent m.delimiter behind = some (content, next)) :
    ofBytes m text = (ofBytes m next).cons ⟨lines, content⟩ := by
  rw [ofBytes]
  split
  · simp_all
  · simp_all
  · next text' same =>
    rw [opened] at same
    cases same
    split
    · simp_all
    · next lines' behind' same =>
      rw [headed] at same
      cases same
      split <;> simp_all

theorem frames_of_cutLine_none (m : Markers) {text : Bytes} (h : cutLine text = none) :
    (ofBytes m text).frames = [] := by
  have only := gap_of_cutLine_none m h
  split at only
  · rw [ofBytes_of_closed only]
    rfl
  · rw [ofBytes_of_exhausted only]
    rfl

/-- The first part has the header lines behind the line that opens it, wherever its content ends. -/
theorem frames_of_part {m : Markers} {text rest : Bytes} (h : gap m text = .part rest) :
    ∃ content others, (ofBytes m text).frames = ⟨(block rest).1, content⟩ :: others := by
  rw [ofBytes]
  split
  · simp_all
  · simp_all
  · next text' same =>
    rw [h] at same
    cases same
    split
    · next lines headed => exact ⟨[], [], by rw [headed]; rfl⟩
    · next lines behind headed =>
      rw [headed]
      split
      · exact ⟨behind, [], rfl⟩
      · next content next captured => exact ⟨content, _, frames_cons _ _⟩

theorem mem_frames_cons {frame other : Frame} {f : Framing} :
    frame ∈ (f.cons other).frames ↔ frame = other ∨ frame ∈ f.frames := by
  rw [frames_cons, List.mem_cons]

/-- No content, with the line break in front of it, holds a delimiter at the start of a line. -/
theorem content_apart {m : Markers} {text : Bytes} {frame : Frame} (nonempty : m.delimiter ≠ [])
    (h : frame ∈ (ofBytes m text).frames) : ¬ crlf ++ m.delimiter <:+: crlf ++ frame.content := by
  fun_induction ofBytes m text with
  | case1 => simp [frames] at h
  | case2 => simp [frames] at h
  | case3 =>
    obtain rfl : frame = _ := by simpa [frames] using h
    intro inside
    have size := inside.length_le
    have pos := List.length_pos_iff.mpr nonempty
    simp only [List.length_append, List.length_nil] at size
    omega
  | case4 text rest opened lines behind headed uncut =>
    obtain rfl : frame = _ := by simpa [frames] using h
    exact cutContent_eq_none_iff.mp uncut
  | case5 text rest opened lines behind headed content next captured ih =>
    rcases mem_frames_cons.mp h with rfl | inside
    · exact not_infix_of_cutContent nonempty captured
    · exact ih inside

theorem length_content_le {m : Markers} {text : Bytes} {frame : Frame}
    (h : frame ∈ (ofBytes m text).frames) : frame.content.length ≤ text.length := by
  fun_induction ofBytes m text with
  | case1 => simp [frames] at h
  | case2 => simp [frames] at h
  | case3 =>
    obtain rfl : frame = _ := by simpa [frames] using h
    exact Nat.zero_le _
  | case4 text rest opened lines behind headed =>
    obtain rfl : frame = _ := by simpa [frames] using h
    have := length_of_gap opened
    have := length_of_block (congrArg Prod.snd headed)
    dsimp only
    omega
  | case5 text rest opened lines behind headed content next captured ih =>
    have := length_of_gap opened
    have := length_of_block (congrArg Prod.snd headed)
    rcases mem_frames_cons.mp h with rfl | inside
    · have := length_content_of_cutContent captured
      dsimp only
      omega
    · have := length_of_cutContent captured
      have := ih inside
      omega

end Framing
end FormBody
