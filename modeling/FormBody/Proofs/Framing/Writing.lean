import FormBody.Proofs.Framing.Extension
import FormBody.Proofs.Text

/-! Bodies written part by part. Between the lines in front and the terminator every part stands with
its opening line, its header lines, an empty line and its content; the framing gives them back. -/
namespace FormBody

open Bytes

namespace Bytes

def unlines (lines : List Bytes) : Bytes := lines.flatMap (· ++ crlf)

theorem unlines_cons_append (line : Bytes) (lines : List Bytes) (rest : Bytes) :
    unlines (line :: lines) ++ rest = line ++ (crlf ++ (unlines lines ++ rest)) := by
  simp [unlines]

end Bytes

/-- A part as it is written, with the text behind the delimiter on the line that opens it. -/
structure Section where
  padding : Bytes
  frame : Frame
  deriving DecidableEq, Repr

namespace Section

/-- The parts of a section can be told from each other, and its content from the next delimiter. -/
structure Proper (m : Markers) (s : Section) : Prop where
  padding : IsLine s.padding
  opens : ¬ dashes <+: s.padding
  lines : ∀ line ∈ s.frame.lines, IsLine line ∧ line ≠ []
  content : ¬ crlf ++ m.delimiter <:+: crlf ++ s.frame.content

instance (m : Markers) (s : Section) : Decidable (s.Proper m) :=
  decidable_of_iff (IsLine s.padding ∧ ¬ dashes <+: s.padding ∧
      (∀ line ∈ s.frame.lines, IsLine line ∧ line ≠ []) ∧
      index? (crlf ++ m.delimiter) (crlf ++ s.frame.content) = none)
    ⟨fun ⟨padding, opens, lines, content⟩ => ⟨padding, opens, lines, index?_eq_none_iff.mp content⟩,
      fun proper => ⟨proper.padding, proper.opens, proper.lines, index?_eq_none_iff.mpr proper.content⟩⟩

def encode (m : Markers) (s : Section) : Bytes :=
  m.delimiter ++ s.padding ++ crlf ++ unlines s.frame.lines ++ crlf ++ s.frame.content ++ crlf

theorem encode_append (m : Markers) (s : Section) (rest : Bytes) :
    s.encode m ++ rest = (m.delimiter ++ s.padding) ++ (crlf ++
      (unlines s.frame.lines ++ (crlf ++ (s.frame.content ++ (crlf ++ rest))))) := by
  simp only [encode, List.append_assoc]

end Section

namespace Framing

/-- A body with these lines in front, these parts and this text behind the terminator. -/
def encode (m : Markers) (preamble : List Bytes) (sections : List Section) (epilogue : Bytes) :
    Bytes :=
  unlines preamble ++ (sections.flatMap (Section.encode m) ++ (m.terminator ++ epilogue))

variable {m : Markers} {s : Section}

/-- The framing begins with the search for a part and depends on nothing in front of that. -/
theorem ofBytes_congr {a b : Bytes} (h : gap m a = gap m b) : ofBytes m a = ofBytes m b := by
  rw [ofBytes, ofBytes]
  rw [h]

theorem gap_of_line (proper : m.Proper) {line : Bytes} (plain : IsLine line)
    (notOpen : ¬ m.delimiter <+: line) (rest : Bytes) : gap m (line ++ (crlf ++ rest)) = gap m rest := by
  have notClosed : ¬ m.terminator <+: line := fun closing =>
    notOpen ((proper.terminator ▸ List.prefix_append _ _).trans closing)
  rw [gap_of_cutLine_some m (cutLine_append plain rest), if_neg notClosed, if_neg notOpen]

theorem gap_unlines (proper : m.Proper) {lines : List Bytes}
    (skipped : ∀ line ∈ lines, IsLine line ∧ ¬ m.delimiter <+: line) (rest : Bytes) :
    gap m (unlines lines ++ rest) = gap m rest := by
  induction lines with
  | nil => rfl
  | cons line lines ih =>
    obtain ⟨plain, notOpen⟩ := skipped line List.mem_cons_self
    rw [unlines_cons_append, gap_of_line proper plain notOpen]
    exact ih fun other mem => skipped other (List.mem_cons_of_mem line mem)

theorem block_unlines {lines : List Bytes} (proper : ∀ line ∈ lines, IsLine line ∧ line ≠ [])
    (rest : Bytes) : block (unlines lines ++ (crlf ++ rest)) = (lines, some rest) := by
  induction lines with
  | nil =>
    have blank : cutLine ([] ++ (crlf ++ rest)) = some ([], rest) :=
      cutLine_append (by simp [IsLine, crlf]) rest
    exact block_of_cutLine_some blank
  | cons line lines ih =>
    obtain ⟨plain, filled⟩ := proper line List.mem_cons_self
    have others := ih fun other mem => proper other (List.mem_cons_of_mem line mem)
    rw [unlines_cons_append, block_of_cutLine_some (cutLine_append plain _), others,
      if_neg (by simpa using filled)]

theorem gap_opening (proper : m.Proper) (plain : 13 ∉ m.delimiter) (written : s.Proper m)
    (rest : Bytes) : gap m ((m.delimiter ++ s.padding) ++ (crlf ++ rest)) = .part rest := by
  have notClosed : ¬ m.terminator <+: m.delimiter ++ s.padding := by
    rw [proper.terminator, List.prefix_append_right_inj]
    exact written.opens
  rw [gap_of_cutLine_some m (cutLine_append (isLine_append plain written.padding) _),
    if_neg notClosed, if_pos (List.prefix_append _ _)]

theorem gap_section (proper : m.Proper) (plain : 13 ∉ m.delimiter) (written : s.Proper m)
    (rest : Bytes) : gap m (s.encode m ++ rest) =
      .part (unlines s.frame.lines ++ (crlf ++ (s.frame.content ++ (crlf ++ rest)))) := by
  rw [Section.encode_append, gap_opening proper plain written]

theorem ofBytes_section (proper : m.Proper) (plain : 13 ∉ m.delimiter) (written : s.Proper m)
    {rest : Bytes} (delimited : m.delimiter <+: rest) :
    ofBytes m (s.encode m ++ rest) = (ofBytes m rest).cons s.frame :=
  ofBytes_of_cut (gap_section proper plain written rest) (block_unlines written.lines _)
    (cutContent_append plain written.content delimited)

theorem delimiter_begins_sections (proper : m.Proper) (sections : List Section) (epilogue : Bytes) :
    m.delimiter <+: sections.flatMap (Section.encode m) ++ (m.terminator ++ epilogue) := by
  cases sections with
  | nil =>
    rw [proper.terminator, List.append_assoc]
    exact List.prefix_append _ _
  | cons s sections =>
    simp only [List.flatMap_cons, Section.encode, List.append_assoc]
    exact List.prefix_append _ _

theorem ofBytes_sections (proper : m.Proper) (plain : 13 ∉ m.delimiter) {sections : List Section}
    (written : ∀ s ∈ sections, s.Proper m) (epilogue : Bytes) :
    ofBytes m (sections.flatMap (Section.encode m) ++ (m.terminator ++ epilogue)) =
      ⟨sections.map Section.frame, .closed⟩ := by
  induction sections with
  | nil =>
    have ends : IsLine m.terminator := by
      apply isLine_of_not_mem
      rw [proper.terminator]
      simpa [dashes] using plain
    exact ofBytes_of_closed (gap_of_terminator proper ends epilogue)
  | cons s sections ih =>
    have first := written s List.mem_cons_self
    have others := ih fun other mem => written other (List.mem_cons_of_mem s mem)
    rw [List.flatMap_cons, List.append_assoc,
      ofBytes_section proper plain first (delimiter_begins_sections proper sections epilogue), others]
    rfl

theorem ofBytes_encode (proper : m.Proper) (plain : 13 ∉ m.delimiter) {preamble : List Bytes}
    (skipped : ∀ line ∈ preamble, IsLine line ∧ ¬ m.delimiter <+: line) {sections : List Section}
    (written : ∀ s ∈ sections, s.Proper m) (epilogue : Bytes) :
    ofBytes m (encode m preamble sections epilogue) = ⟨sections.map Section.frame, .closed⟩ := by
  rw [encode, ofBytes_congr (gap_unlines proper skipped _)]
  exact ofBytes_sections proper plain written epilogue

theorem encode_ne_nil (proper : m.Proper) (preamble : List Bytes) (sections : List Section)
    (epilogue : Bytes) : encode m preamble sections epilogue ≠ [] := by
  intro empty
  have size := congrArg List.length empty
  have := proper.terminator_length_pos
  simp only [encode, List.length_append, List.length_nil] at size
  omega

end Framing

theorem Markers.delimiter_fresh {boundary : String} (plain : '\r' ∉ boundary.toList) :
    13 ∉ (Markers.ofBoundary boundary).delimiter := by
  have dashes : 13 ∉ Text.Utf8.encode ['-', '-'] := by decide
  have token : 13 ∉ Text.Utf8.encode boundary.toList :=
    Text.Utf8.not_mem_encode (by decide) rfl plain
  exact fun mem => (List.mem_append.mp mem).elim dashes token

end FormBody
