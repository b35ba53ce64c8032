import FormBody.Proofs.Cursor.Position

/-! The moves of a cursor on offsets alone. Whatever a move looks at is looked up in the buffer, a slice
that the buffer does not have gives no result, and a search that goes on for ever comes to nothing. Inside
of a body every look-up succeeds, the search ends, and the moves are those of the cursor. -/
namespace FormBody

namespace Bytes

variable {buffer : Bytes} {start stop : Nat}

/-- The bytes from one offset up to another, if the buffer reaches that far. -/
def slice? (buffer : Bytes) (start stop : Nat) : Option Bytes :=
  if start ≤ stop ∧ stop ≤ buffer.length then some (buffer.extract start stop) else none

theorem slice?_of_le (forward : start ≤ stop) (inside : stop ≤ buffer.length) :
    slice? buffer start stop = some (buffer.extract start stop) :=
  if_pos ⟨forward, inside⟩

theorem slice?_length (inside : start ≤ buffer.length) :
    slice? buffer start buffer.length = some (buffer.drop start) := by
  rw [slice?_of_le inside (Nat.le_refl _), List.extract_eq_take_drop, ← List.length_drop,
    List.take_length]

def breakBefore? (buffer : Bytes) (offset : Nat) : Option Bool :=
  if crlf.length ≤ offset then (slice? buffer (offset - crlf.length) offset).map (· == crlf)
  else some false

theorem breakBefore?_of_le {offset : Nat} (inside : offset ≤ buffer.length) :
    breakBefore? buffer offset =
      some (decide (crlf.length ≤ offset ∧ crlf <+: buffer.drop (offset - crlf.length))) := by
  unfold breakBefore?
  split
  · next room =>
    have size : offset - (offset - crlf.length) = crlf.length := Nat.sub_sub_self room
    rw [slice?_of_le (Nat.sub_le _ _) inside, Option.map_some, List.extract_eq_take_drop, size]
    congr 1
    rw [Bool.eq_iff_iff, beq_iff_eq, decide_eq_true_iff, List.prefix_iff_eq_take]
    exact ⟨fun same => ⟨room, same.symm⟩, fun h => h.2.symm⟩
  · next short =>
    rw [decide_eq_false]
    exact fun h => short h.1

end Bytes

namespace Cursor

open Bytes

variable {body delimiter : Bytes} {c next : Cursor}

def mark? (c : Cursor) (start stop : Nat) : Option Cursor :=
  (slice? c.buffer start stop).map fun segment => { c with start, segment, rest := c.buffer.drop stop }

def lineFrom? (c : Cursor) (start : Nat) : Option (Bool × Cursor) := do
  let text ← slice? c.buffer start c.buffer.length
  match index? crlf text with
  | some i => (c.mark? start (start + i)).map (true, ·)
  | none => (c.mark? start c.buffer.length).map (false, ·)

def nextLine? (c : Cursor) : Option (Bool × Cursor) :=
  { c with begun := true }.lineFrom? c.lineStart

/-- The search for a delimiter with a line break in front of it, from an offset on. -/
inductive Searches (c : Cursor) (delimiter : Bytes) (start : Nat) : Nat → Bool × Cursor → Prop where
  | missing {offset : Nat} {text : Bytes} {next : Cursor} :
      slice? c.buffer offset c.buffer.length = some text → index? delimiter text = none →
      c.mark? start c.buffer.length = some next → Searches c delimiter start offset (false, next)
  | anchored {offset i : Nat} {text : Bytes} {next : Cursor} :
      slice? c.buffer offset c.buffer.length = some text → index? delimiter text = some i →
      breakBefore? c.buffer (offset + i) = some true →
      c.mark? (min start (offset + i - crlf.length)) (offset + i - crlf.length) = some next →
      Searches c delimiter start offset (true, next)
  | loose {offset i : Nat} {text : Bytes} {moved : Bool × Cursor} :
      slice? c.buffer offset c.buffer.length = some text → index? delimiter text = some i →
      breakBefore? c.buffer (offset + i) = some false →
      Searches c delimiter start (offset + i + 1) moved → Searches c delimiter start offset moved

theorem Searches.unique {start offset : Nat} {moved other : Bool × Cursor}
    (first : c.Searches delimiter start offset moved)
    (second : c.Searches delimiter start offset other) : moved = other := by
  induction first with
  | missing sliced absent marked => cases second <;> simp_all
  | anchored sliced found broken marked => cases second <;> simp_all
  | loose sliced found unbroken _ ih =>
    cases second with
    | missing => simp_all
    | anchored => simp_all
    | loose sliced' found' _ rest =>
      obtain rfl := Option.some.inj (sliced.symm.trans sliced')
      obtain rfl := Option.some.inj (found.symm.trans found')
      exact ih rest

/-- The move to the next delimiter. It goes over the line break behind the segment, and back if the
delimiter stands there. -/
def ReachesBoundary (delimiter : Bytes) (c : Cursor) (moved : Bool × Cursor) : Prop :=
  let start := min (c.stop + crlf.length) c.buffer.length
  c.Searches delimiter start start moved

theorem Within.mark?_eq (h : next.Within body) (buffer : c.buffer = body)
    (begun : c.begun = next.begun) : c.mark? next.start next.stop = some next := by
  have forward : next.start ≤ next.stop := Nat.le_add_right _ _
  rw [mark?, buffer, slice?_of_le forward h.stop_le, Option.map_some, ← h.segment_eq, h.drop_stop,
    ← h.buffer, begun]

theorem Within.nextLine?_eq (h : c.Within body) : c.nextLine? = some c.nextLine := by
  obtain rfl := h.buffer
  have start := h.start_nextLine
  have stop := h.stop_nextLine
  have marked : { c with begun := true }.mark? c.nextLine.2.start c.nextLine.2.stop =
      some c.nextLine.2 := h.nextLine.mark?_eq rfl (nextLine_begun c).symm
  rw [nextLine?, lineFrom?]
  change (slice? c.buffer c.lineStart c.buffer.length).bind _ = _
  rw [slice?_length h.lineStart_le_length, h.drop_lineStart, Option.bind_some]
  cases found : index? crlf c.ahead with
  | none =>
    have cut : cutLine c.ahead = none := by rw [cutLine, found]; rfl
    obtain ⟨missing, segment, rest⟩ := nextLine_of_cutLine_none cut
    have whole : c.nextLine.2.stop = c.buffer.length := by
      have total := h.nextLine.stop_add_length
      rwa [rest] at total
    dsimp only
    rw [← start, ← whole, marked, Option.map_some, ← missing]
  | some i =>
    have cut : cutLine c.ahead = some (c.ahead.take i, c.ahead.drop (i + crlf.length)) := by
      rw [cutLine, found]
      rfl
    obtain ⟨more, segment, rest⟩ := nextLine_of_cutLine_some cut
    have room := length_le_of_index? found
    rw [segment, List.length_take, Nat.min_eq_left (by omega)] at stop
    dsimp only
    rw [← stop, ← start, marked, Option.map_some, ← more]

theorem prefix_of_anchored {j : Nat} (h : crlf ++ delimiter <+: body.drop j) :
    crlf <+: body.drop j ∧ delimiter <+: body.drop (j + crlf.length) := by
  refine ⟨(List.prefix_append _ _).trans h, ?_⟩
  have behind := prefix_drop_of_crlf_append h
  rwa [List.drop_drop, Nat.add_comm] at behind

theorem not_anchored_of_index? {offset i j : Nat} (hit : index? delimiter (body.drop offset) = some i)
    (behind : offset ≤ j + crlf.length) (before : j + crlf.length < offset + i) :
    ¬ crlf ++ delimiter <+: body.drop j := by
  intro here
  apply (index?_eq_some_iff.mp hit).2 (j + crlf.length - offset) (by omega)
  rw [List.drop_drop, Nat.add_sub_cancel' behind]
  exact (prefix_of_anchored here).2

theorem not_anchored_of_index?_none {offset j : Nat}
    (missing : index? delimiter (body.drop offset) = none) (behind : offset ≤ j + crlf.length) :
    ¬ crlf ++ delimiter <+: body.drop j := by
  intro here
  apply index?_eq_none_iff.mp missing
  refine (prefix_of_anchored here).2.isInfix.trans ?_
  rw [← Nat.add_sub_cancel' behind, ← List.drop_drop]
  exact (List.drop_suffix _ _).isInfix

theorem anchored_of_broken {j : Nat} (broken : crlf <+: body.drop j)
    (here : delimiter <+: body.drop (j + crlf.length)) : crlf ++ delimiter <+: body.drop j := by
  obtain ⟨behind, split⟩ := broken
  rw [← List.drop_drop, ← split, List.drop_left] at here
  rw [← split]
  exact (List.prefix_append_right_inj crlf).mpr here

/-- An anchored delimiter in front of which none is anchored is what the cursor moves to. -/
theorem Within.mark?_boundary (h : c.Within body) {j : Nat} (behind : c.stop ≤ j)
    (here : crlf ++ delimiter <+: body.drop j)
    (first : ∀ k, c.stop ≤ k → k < j → ¬ crlf ++ delimiter <+: body.drop k) :
    ∃ next, c.advanceToBoundary delimiter = (true, next) ∧
      c.mark? (min (c.stop + crlf.length) j) j = some next := by
  have found : index? (crlf ++ delimiter) c.rest = some (j - c.stop) := by
    refine index?_eq_some_iff.mpr ⟨?_, fun k before => ?_⟩
    · rwa [← h.drop_of_le behind]
    · rw [← h.drop_stop, List.drop_drop]
      exact first _ (Nat.le_add_right _ _) (by omega)
  obtain ⟨more, start, stop, _⟩ := advanceToBoundary_of_index? h found
  have marked := (h.advanceToBoundary delimiter).mark?_eq h.buffer
    (advanceToBoundary_begun delimiter c).symm
  rw [start, stop, Nat.add_sub_cancel' behind,
    show c.stop + min crlf.length (j - c.stop) = min (c.stop + crlf.length) j by omega] at marked
  exact ⟨_, Prod.ext more rfl, marked⟩

theorem Within.mark?_end (h : c.Within body)
    (free : ∀ k, c.stop ≤ k → ¬ crlf ++ delimiter <+: body.drop k) :
    ∃ next, c.advanceToBoundary delimiter = (false, next) ∧
      c.mark? (min (c.stop + crlf.length) body.length) body.length = some next := by
  have missing : index? (crlf ++ delimiter) c.rest = none := by
    rw [Option.eq_none_iff_forall_ne_some]
    intro i found
    have here := prefix_of_index? found
    rw [← h.drop_stop, List.drop_drop] at here
    exact free _ (Nat.le_add_right _ _) here
  obtain ⟨more, start, stop⟩ := advanceToBoundary_of_index?_none h missing
  have marked := (h.advanceToBoundary delimiter).mark?_eq h.buffer
    (advanceToBoundary_begun delimiter c).symm
  rw [start, stop] at marked
  exact ⟨_, Prod.ext more rfl, marked⟩

/-- The search for a delimiter ends, and comes to one search for line break and delimiter. What it has
passed over holds no anchored delimiter. -/
theorem Within.searches (h : c.Within body) (nonempty : delimiter ≠ []) (offset : Nat)
    (behind : min (c.stop + crlf.length) c.buffer.length ≤ offset) (inside : offset ≤ body.length)
    (passed : ∀ j, c.stop ≤ j → j + crlf.length < offset → ¬ crlf ++ delimiter <+: body.drop j) :
    c.Searches delimiter (min (c.stop + crlf.length) c.buffer.length) offset
      (c.advanceToBoundary delimiter) := by
  have sliced : slice? c.buffer offset c.buffer.length = some (body.drop offset) := by
    rw [h.buffer]
    exact slice?_length inside
  have size := List.length_pos_iff.mpr nonempty
  have buffer := h.buffer
  have total : c.buffer.length = body.length := congrArg List.length buffer
  cases hit : index? delimiter (body.drop offset) with
  | none =>
    have free (k : Nat) (front : c.stop ≤ k) : ¬ crlf ++ delimiter <+: body.drop k := by
      by_cases old : k + crlf.length < offset
      · exact passed k front old
      · exact not_anchored_of_index?_none hit (Nat.not_lt.mp old)
    obtain ⟨next, moved, marked⟩ := h.mark?_end free
    rw [← buffer] at marked
    rw [moved]
    exact .missing sliced hit marked
  | some i =>
    have fits := length_le_of_index? hit
    rw [List.length_drop] at fits
    have room : offset + i ≤ body.length := by omega
    -- An anchored delimiter in front of the hit would itself have been hit.
    have before (j : Nat) (front : c.stop ≤ j) (early : j + crlf.length < offset + i) :
        ¬ crlf ++ delimiter <+: body.drop j := by
      by_cases old : j + crlf.length < offset
      · exact passed j front old
      · exact not_anchored_of_index? hit (Nat.not_lt.mp old) early
    have looked := breakBefore?_of_le room
    rw [← buffer] at looked
    by_cases broken : crlf.length ≤ offset + i ∧ crlf <+: c.buffer.drop (offset + i - crlf.length)
    · have place : offset + i - crlf.length + crlf.length = offset + i :=
        Nat.sub_add_cancel broken.1
      have here : delimiter <+: body.drop (offset + i - crlf.length + crlf.length) := by
        rw [place, ← List.drop_drop]
        exact prefix_of_index? hit
      obtain ⟨next, moved, marked⟩ := h.mark?_boundary (by omega)
        (anchored_of_broken (buffer ▸ broken.2) here) fun k front early => before k front (by omega)
      have start : min (min (c.stop + crlf.length) c.buffer.length) (offset + i - crlf.length) =
          min (c.stop + crlf.length) (offset + i - crlf.length) := by omega
      rw [decide_eq_true broken] at looked
      rw [moved]
      exact .anchored sliced hit looked (start ▸ marked)
    · rw [decide_eq_false broken] at looked
      have closer : body.length - (offset + i + 1) < body.length - offset := by omega
      refine .loose sliced hit looked (h.searches nonempty (offset + i + 1) (by omega) (by omega) ?_)
      intro j front early here
      by_cases old : j + crlf.length < offset + i
      · exact before j front old here
      · refine broken ⟨by omega, ?_⟩
        rw [show offset + i - crlf.length = j by omega, buffer]
        exact (prefix_of_anchored here).1
termination_by body.length - offset

theorem Within.reachesBoundary (h : c.Within body) (nonempty : delimiter ≠ []) :
    c.ReachesBoundary delimiter (c.advanceToBoundary delimiter) := by
  refine h.searches nonempty _ (Nat.le_refl _) ?_ fun j front early => ?_
  · rw [h.buffer]
    exact Nat.min_le_right _ _
  · have := Nat.min_le_left (c.stop + crlf.length) c.buffer.length
    omega

end Cursor
end FormBody
