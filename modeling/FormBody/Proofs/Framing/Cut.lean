import FormBody.Bytes
import FormBody.Proofs.Search

/-! Two ways to cut a text: at its first line break, and at the first line break that a delimiter
follows. For both it is settled which texts are cut in which way, and that the text behind the cut
can be replaced. -/
namespace FormBody.Bytes

/-- Bytes that can stand between two line breaks. -/
def IsLine (bytes : Bytes) : Prop := ¬ crlf <:+: bytes

instance (bytes : Bytes) : Decidable (IsLine bytes) := decidable_of_iff _ index?_eq_none_iff

/-- A line break needs a carriage return, so that none reaches back over bytes without one. -/
theorem isLine_append {front back : Bytes} (fresh : 13 ∉ front) (plain : IsLine back) :
    IsLine (front ++ back) := by
  induction front with
  | nil => exact plain
  | cons b front ih =>
    rw [List.mem_cons, not_or] at fresh
    intro inside
    rcases List.infix_cons_iff.mp inside with begins | later
    · exact fresh.1 (List.cons_prefix_cons.mp begins).1
    · exact ih fresh.2 later

theorem isLine_of_not_mem {bytes : Bytes} (fresh : 13 ∉ bytes) : IsLine bytes := by
  have plain : IsLine (bytes ++ []) := isLine_append fresh (by simp [IsLine, crlf])
  rwa [List.append_nil] at plain

/-- What stands in front of the start of a line: nothing, or bytes that end with a line break. -/
def Anchored (front : Bytes) : Prop := front = [] ∨ crlf <:+ front

theorem Anchored.append {a b : Bytes} (first : Anchored a) (second : Anchored b) :
    Anchored (a ++ b) := by
  rcases second with rfl | broken
  · rwa [List.append_nil]
  · exact .inr (broken.trans (List.suffix_append a b))

theorem anchored_line (line : Bytes) : Anchored (line ++ crlf) := .inr (List.suffix_append _ _)

/-- The first line of a text and what stands behind its line break. -/
def cutLine (text : Bytes) : Option (Bytes × Bytes) :=
  (index? crlf text).map fun i => (text.take i, text.drop (i + crlf.length))

/-- What stands in front of the first line break that a delimiter follows, and the text from that
delimiter on. The line break in front of the text counts as well. -/
def cutContent (delimiter text : Bytes) : Option (Bytes × Bytes) :=
  (index? (crlf ++ delimiter) (crlf ++ text)).map fun i => (text.take (i - crlf.length), text.drop i)

theorem cutLine_eq_none_iff {text : Bytes} : cutLine text = none ↔ IsLine text := by
  rw [cutLine, Option.map_eq_none_iff, index?_eq_none_iff, IsLine]

theorem cutLine_eq_some_iff {text line rest : Bytes} :
    cutLine text = some (line, rest) ↔ text = line ++ (crlf ++ rest) ∧ IsLine line := by
  rw [cutLine, Option.map_eq_some_iff]
  constructor
  · rintro ⟨i, found, same⟩
    cases same
    exact ⟨eq_append_of_index? found, not_infix_take_of_index? found (by decide)⟩
  · rintro ⟨rfl, plain⟩
    refine ⟨line.length, index?_append_needle rest (by decide) plain, ?_⟩
    rw [List.take_left, ← List.drop_drop, List.drop_left, List.drop_left]

theorem cutLine_append {line : Bytes} (plain : IsLine line) (rest : Bytes) :
    cutLine (line ++ (crlf ++ rest)) = some (line, rest) :=
  cutLine_eq_some_iff.mpr ⟨rfl, plain⟩

theorem length_of_cutLine {text line rest : Bytes} (h : cutLine text = some (line, rest)) :
    rest.length < text.length := by
  obtain ⟨rfl, _⟩ := cutLine_eq_some_iff.mp h
  simp only [List.length_append, length_crlf]
  omega

theorem cutContent_eq_none_iff {delimiter text : Bytes} :
    cutContent delimiter text = none ↔ ¬ crlf ++ delimiter <:+: crlf ++ text := by
  rw [cutContent, Option.map_eq_none_iff, index?_eq_none_iff]

theorem cutContent_of_prefix {delimiter rest : Bytes} (h : delimiter <+: rest) :
    cutContent delimiter rest = some ([], rest) := by
  have here : index? (crlf ++ delimiter) (crlf ++ rest) = some 0 :=
    index?_eq_some_iff.mpr ⟨(List.prefix_append_right_inj crlf).mpr h, fun j before => by omega⟩
  rw [cutContent, here]
  rfl

theorem cutContent_of_index? {delimiter content rest : Bytes}
    (h : index? (crlf ++ delimiter) (crlf ++ (content ++ (crlf ++ rest))) =
      some (content.length + crlf.length)) :
    cutContent delimiter (content ++ (crlf ++ rest)) = some (content, rest) := by
  rw [cutContent, h, Option.map_some, Nat.add_sub_cancel, List.take_left, ← List.drop_drop,
    List.drop_left, List.drop_left]

theorem cases_of_cutContent {delimiter text content rest : Bytes}
    (h : cutContent delimiter text = some (content, rest)) :
    delimiter <+: rest ∧ (content = [] ∧ text = rest ∨
      text = content ++ (crlf ++ rest) ∧
        index? (crlf ++ delimiter) (crlf ++ text) = some (content.length + crlf.length)) := by
  obtain ⟨i, found, same⟩ := Option.map_eq_some_iff.mp h
  cases same
  have here := prefix_of_index? found
  -- The line break in front of the text is found, or one inside of it; none begins in between.
  match i with
  | 0 => exact ⟨(List.prefix_append_right_inj crlf).mp here, .inl ⟨rfl, rfl⟩⟩
  | 1 => exact absurd here (by simp [crlf])
  | i + 2 =>
    have fits := length_le_of_index? found
    simp only [List.length_append, length_crlf] at fits
    have size : (text.take i).length = i := by
      rw [List.length_take]
      omega
    obtain ⟨behind, split⟩ := here
    have tail : text.drop i = crlf ++ (delimiter ++ behind) := by
      rw [← List.append_assoc, split]
      rfl
    have rest : text.drop (i + 2) = delimiter ++ behind := by
      rw [← List.drop_drop, tail]
      rfl
    refine ⟨rest ▸ List.prefix_append _ _, .inr ⟨?_, ?_⟩⟩
    · rw [rest, ← tail]
      exact (List.take_append_drop i text).symm
    · rw [found]
      exact congrArg (fun n => some (n + 2)) size.symm

theorem cutContent_append {delimiter content rest : Bytes} (plain : 13 ∉ delimiter)
    (apart : ¬ crlf ++ delimiter <:+: crlf ++ content) (h : delimiter <+: rest) :
    cutContent delimiter (content ++ (crlf ++ rest)) = some (content, rest) := by
  obtain ⟨behind, rfl⟩ := h
  have fresh : 13 ∉ 10 :: delimiter := by simpa using plain
  have found : index? (crlf ++ delimiter) (crlf ++ content ++ (crlf ++ delimiter ++ behind)) =
      some (crlf ++ content).length := index?_append_needle behind fresh apart
  apply cutContent_of_index?
  rw [Nat.add_comm, ← List.length_append]
  simpa only [List.append_assoc] using found

theorem not_infix_of_cutContent {delimiter text content rest : Bytes} (nonempty : delimiter ≠ [])
    (h : cutContent delimiter text = some (content, rest)) :
    ¬ crlf ++ delimiter <:+: crlf ++ content := by
  obtain ⟨_, ⟨rfl, _⟩ | ⟨rfl, found⟩⟩ := cases_of_cutContent h
  · intro inside
    have size := inside.length_le
    have pos := List.length_pos_iff.mpr nonempty
    simp only [List.length_append, List.length_nil] at size
    omega
  · have apart := not_infix_take_of_index? found (by simp [crlf])
    rwa [← List.append_assoc, Nat.add_comm, ← List.length_append, List.take_left] at apart

/-- Behind the delimiter that ends a content anything may follow. -/
theorem cutContent_resume {delimiter text content rest : Bytes}
    (h : cutContent delimiter text = some (content, rest)) :
    ∃ front, text = front ++ rest ∧ Anchored front ∧
      ∀ other, delimiter <+: other → cutContent delimiter (front ++ other) = some (content, other) := by
  obtain ⟨_, ⟨rfl, rfl⟩ | ⟨rfl, found⟩⟩ := cases_of_cutContent h
  · exact ⟨[], rfl, .inl rfl, fun other => cutContent_of_prefix⟩
  · refine ⟨content ++ crlf, (List.append_assoc ..).symm, anchored_line content, ?_⟩
    rintro _ ⟨behind, rfl⟩
    have again := index?_take_append found behind
    rw [← List.append_assoc crlf content, Nat.add_comm, ← List.length_append, List.take_left] at again
    rw [List.append_assoc]
    apply cutContent_of_index?
    rw [Nat.add_comm, ← List.length_append]
    simpa only [List.append_assoc] using again

theorem length_of_cutContent {delimiter text content rest : Bytes}
    (h : cutContent delimiter text = some (content, rest)) : rest.length ≤ text.length := by
  obtain ⟨front, rfl, _⟩ := cutContent_resume h
  simp only [List.length_append]
  omega

theorem length_content_of_cutContent {delimiter text content rest : Bytes}
    (h : cutContent delimiter text = some (content, rest)) : content.length ≤ text.length := by
  obtain ⟨_, ⟨rfl, _⟩ | ⟨rfl, _⟩⟩ := cases_of_cutContent h
  · exact Nat.zero_le _
  · simp only [List.length_append]
    omega

end FormBody.Bytes
