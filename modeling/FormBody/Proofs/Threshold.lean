import FormBody.Proofs.Framing.Extension
import FormBody.Proofs.Framing.Refinement
import Mathlib.Data.Nat.Find

/-! Acceptance when the terminator is required. A body is accepted from a certain offset on, the end
of its first terminator: every shorter prefix is rejected, and nothing behind it counts. -/
namespace FormBody

open Bytes

namespace Framing

variable {m : Markers} {text : Bytes}

/-- The end of a marker that stands at the start of a line. -/
def EndsMarker (marker body : Bytes) (t : Nat) : Prop :=
  ∃ front rest, body = front ++ (marker ++ rest) ∧ Anchored front ∧ t = front.length + marker.length

/-- Bytes behind a closed body do not matter. -/
theorem ofBytes_append_of_closed (proper : m.Proper) (h : (ofBytes m text).closed = true)
    (more : Bytes) : ofBytes m (text ++ more) = ofBytes m text := by
  have longer := extends_append proper text more
  generalize ofBytes m (text ++ more) = g at longer
  generalize ofBytes m text = f at h longer
  cases longer with
  | closed complete => rfl
  | exhausted => cases h
  | inside => cases h

theorem exists_threshold (proper : m.Proper) (h : (ofBytes m text).closed = true) :
    ∃ t ≤ text.length, EndsMarker m.terminator text t ∧
      (∀ n < t, (ofBytes m (text.take n)).closed = false) ∧
      ∀ n, t ≤ n → ofBytes m (text.take n) = ofBytes m text := by
  have some : ∃ n, (ofBytes m (text.take n)).closed = true :=
    ⟨text.length, by rw [List.take_length, h]⟩
  have inside : Nat.find some ≤ text.length := Nat.find_min' some (by rw [List.take_length, h])
  have closed := Nat.find_spec some
  have first : ∀ n < Nat.find some, (ofBytes m (text.take n)).closed = false := fun n before =>
    Bool.eq_false_iff.mpr (Nat.find_min some before)
  generalize Nat.find some = t at inside closed first
  have beyond : ∀ n, t ≤ n → ofBytes m (text.take n) = ofBytes m (text.take t) := by
    intro n after
    have split : text.take n = text.take t ++ (text.take n).drop t := by
      have := (List.take_append_drop t (text.take n)).symm
      rwa [List.take_take, Nat.min_eq_left after] at this
    rw [split, ofBytes_append_of_closed proper closed]
  refine ⟨t, inside, ?_, first, fun n after => ?_⟩
  · obtain ⟨front, rest, split, anchored, upTo⟩ := exists_of_closed proper closed
    have whole : text = front ++ (m.terminator ++ (rest ++ text.drop t)) := by
      rw [← List.append_assoc m.terminator, ← List.append_assoc front, ← split,
        List.take_append_drop]
    have size := congrArg List.length split
    simp only [List.length_take, List.length_append] at size
    refine ⟨front, rest ++ text.drop t, whole, anchored, ?_⟩
    -- A terminator that ends earlier would close a shorter text.
    by_contra different
    have marked : text.take (front.length + m.terminator.length) = front ++ m.terminator := by
      rw [whole, ← List.append_assoc, ← List.length_append, List.take_left]
    have notYet := first (front.length + m.terminator.length) (by omega)
    rw [marked, upTo] at notYet
    cases notYet
  · rw [beyond n after, ← beyond text.length inside, List.take_length]

end Framing

theorem toNat_le_noLimit (limit : UInt64) : limit.toNat ≤ noLimit.toNat :=
  Nat.le_of_lt_succ limit.toNat_lt

namespace Decoder

variable {d : Decoder} {body : Bytes}

/-- Where only headers can be at fault, the parts of a shorter body are accepted with those of a
longer one. -/
theorem fields_of_extends {policy : Policy} {f g : Framing} {found : List Field}
    (anyName : policy.allowedNames = none) (noLimits : ∀ name, policy.sizes.limitFor name = noLimit)
    (fits : ∀ frame ∈ f.frames, frame.content.length ≤ noLimit.toNat) (longer : f.Extends g)
    (accepted : Frame.fields policy "" 0 g.frames = .ok found) :
    ∃ some, Frame.fields policy "" 0 f.frames = .ok some := by
  cases longer with
  | closed complete => exact ⟨found, accepted⟩
  | @exhausted complete more g split =>
    obtain ⟨tail, whole⟩ := g.complete_prefix_frames
    rw [← whole, split, List.append_assoc] at accepted
    obtain ⟨first, _, early, _⟩ := Frame.exists_of_fields_append accepted
    exact ⟨first, early⟩
  | @inside complete more last frame g split headers =>
    -- The part that is cut off has fewer header lines, and no limit can stop its content.
    rw [split] at accepted
    obtain ⟨first, second, early, late, _⟩ := Frame.exists_of_fields_append accepted
    obtain ⟨field, _, checked, _⟩ := Frame.exists_of_fields_cons late
    obtain ⟨heading, noted, _⟩ := Frame.exists_of_field checked
    obtain ⟨others, lines⟩ := headers
    rw [← lines, Heading.result_noteLines_append] at noted
    cases cut : (Heading.noteLines policy (.ofName (Frame.nameAfter "" first)) last.lines).result with
    | error e => rw [cut] at noted; cases noted
    | ok heading =>
      have small := fits last (by simp [Framing.frames])
      obtain ⟨field, accepted⟩ :
          ∃ field, heading.field policy (0 + complete.length) last.content = .ok field :=
        ⟨_, heading.field_of_unrestricted _ anyName noLimits small⟩
      refine ⟨first ++ [field], ?_⟩
      rw [show Framing.frames ⟨complete, .inside last⟩ = complete ++ [last] from rfl,
        Frame.fields_append, early]
      dsimp only [Except.bind]
      rw [Frame.fields, Frame.field, cut]
      dsimp only [Except.bind]
      rw [accepted]
      rfl

/-- When the terminator is required a body is accepted from the end of its first terminator on. Every
shorter prefix is rejected, as incomplete unless its last part falls foul of a name list or a limit
first, and neither the bytes behind that offset nor any others in their place change the form. -/
theorem exists_acceptance_threshold {form : Form} (strict : d.policy.terminatorRequired = true)
    (nonempty : body ≠ []) (accepted : (d.decode body).result = .ok form) :
    ∃ t ≤ body.length, Framing.EndsMarker d.markers.terminator body t ∧
      (∀ n, 0 < n → n < t → ∃ e, (d.decode (body.take n)).result = .error e ∧
        (d.policy.allowedNames = none → (∀ name, d.policy.sizes.limitFor name = noLimit) →
          e = .incompleteBody)) ∧
      (∀ n, t ≤ n → (d.decode (body.take n)).result = .ok form) ∧
      ∀ more, (body ++ more).length ≤ d.policy.sizes.wholeBody.toNat →
        (d.decode (body ++ more)).result = .ok form := by
  have proper : d.markers.Proper := Markers.proper_ofBoundary d.boundary
  have fits := fits_of_accepted nonempty accepted
  rw [result_decode d nonempty fits] at accepted
  obtain ⟨fields, read, _, closed⟩ := Framing.exists_of_form accepted
  have closed := closed strict
  obtain ⟨t, inside, marked, before, beyond⟩ := Framing.exists_threshold proper closed
  have shorter (n : Nat) : (body.take n).length ≤ d.policy.sizes.wholeBody.toNat := by
    rw [List.length_take]
    omega
  refine ⟨t, inside, marked, ?_, ?_, ?_⟩
  · intro n pos early
    have taken : body.take n ≠ [] := by simp [nonempty]; omega
    rw [result_decode d taken (shorter n)]
    obtain ⟨e, rejected, reason⟩ := Framing.form_of_not_closed strict (before n early)
    refine ⟨e, rejected, ?_⟩
    intro anyName noLimits
    -- The parts read so far begin those of the whole body, so that none of them is at fault.
    have longer := Framing.extends_append proper (body.take n) (body.drop n)
    rw [List.take_append_drop] at longer
    have small : ∀ frame ∈ (Framing.ofBytes d.markers (body.take n)).frames,
        frame.content.length ≤ noLimit.toNat := by
      intro frame mem
      calc frame.content.length ≤ (body.take n).length := Framing.length_content_le mem
        _ ≤ d.policy.sizes.wholeBody.toNat := shorter n
        _ ≤ noLimit.toNat := toNat_le_noLimit _
    obtain ⟨found, accepted⟩ := fields_of_extends anyName noLimits small longer read
    exact reason found accepted
  · intro n late
    have taken : body.take n ≠ [] := by
      obtain ⟨_, _, _, _, size⟩ := marked
      have := proper.terminator_length_pos
      simp only [ne_eq, List.take_eq_nil_iff, nonempty, or_false]
      omega
    rw [result_decode d taken (shorter n), beyond n late, accepted]
  · intro more room
    have longer : body ++ more ≠ [] := by simp [nonempty]
    rw [result_decode d longer room, Framing.ofBytes_append_of_closed proper closed, accepted]

def closedBody : Bytes :=
  Text.Utf8.encode "--X\r\nContent-Disposition: form-data; name=a\r\n\r\n1\r\n--X--\r\nmore".toList

theorem exists_acceptance_threshold_closedBody :
    ∃ t ≤ closedBody.length, Framing.EndsMarker (Markers.ofBoundary "X").terminator closedBody t ∧
      ∀ n, 0 < n → n < t →
        ((Decoder.mk "X" (.withTerminator true)).decode (closedBody.take n)).result =
          .error .incompleteBody := by
  have accepted : ((Decoder.mk "X" (.withTerminator true)).decode closedBody).result =
      .ok (.ofFields [⟨"a", none, none, none, 0, [49]⟩]) := by decide +kernel
  obtain ⟨t, inside, ends, before, _⟩ := exists_acceptance_threshold rfl (by decide) accepted
  refine ⟨t, inside, ends, fun n pos early => ?_⟩
  obtain ⟨e, rejected, reason⟩ := before n pos early
  rw [rejected, reason rfl fun _ => rfl]

end Decoder
end FormBody
