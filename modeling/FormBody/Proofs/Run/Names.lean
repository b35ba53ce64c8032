import FormBody.Proofs.Form
import FormBody.Proofs.Framing.Acceptance
import FormBody.Proofs.Run.Basic

/-! Under which names a run captures parts. The parts that a run has captured are the first ones of the
body. The name of a part outlives it, everything else that its header lines say is forgotten, and the
form has under each name the last part of that name. -/
namespace FormBody

open Bytes

namespace Part

/-- The name that parts leave to the part behind them. -/
def nameLeft (parts : List Part) : String := (parts.getLast?.map name).getD ""

theorem take_of_drop {parts others : List Part} {n : Nat} {p : Part} (left : parts.drop n = p :: others) :
    parts[n]? = some p ∧ parts.drop (n + 1) = others ∧ parts.take (n + 1) = parts.take n ++ [p] := by
  have here : parts[n]? = some p := by rw [← List.head?_drop, left, List.head?_cons]
  refine ⟨here, ?_, ?_⟩
  · rw [← List.tail_drop, left, List.tail_cons]
  · rw [List.take_add_one, here, Option.toList_some]

theorem nameLeft_concat (parts : List Part) (p : Part) : nameLeft (parts ++ [p]) = p.name := by
  rw [nameLeft, List.getLast?_concat]
  rfl

theorem inherited_eq_nameLeft {frames : List Frame} {i : Nat} {p : Part}
    (here : (ofFrames "" frames)[i]? = some p) : p.inherited = nameLeft ((ofFrames "" frames).take i) := by
  cases i with
  | zero =>
    cases frames with
    | nil => cases here
    | cons f rest =>
      obtain rfl : _ = p := Option.some.inj here
      rfl
  | succ i =>
    have inside : i < (ofFrames "" frames).length := by
      have := (List.getElem?_eq_some_iff.mp here).1
      omega
    have before := List.getElem?_eq_getElem inside
    rw [inherited_of_getElem? before here, List.take_add_one, before]
    exact (nameLeft_concat _ _).symm

theorem empty_not_mem_given (p : Part) : "" ∉ p.headers.filterMap PartHeader.fieldName? := by
  intro mem
  obtain ⟨header, _, given⟩ := List.mem_filterMap.mp mem
  obtain ⟨value, rfl, named⟩ := PartHeader.exists_of_fieldName? given
  exact (Disposition.proper_ofBytes value).name named

theorem inherited_of_name {p : Part} (empty : p.name = "") : p.inherited = "" := by
  rw [← name_heading] at empty
  exact Heading.name_of_foldl_apply empty

theorem name_ne_of_mem_ofFrames {inherited : String} {frames : List Frame} (filled : inherited ≠ "") :
    ∀ p ∈ ofFrames inherited frames, p.name ≠ "" := by
  induction frames generalizing inherited with
  | nil => exact List.forall_mem_nil _
  | cons f rest ih =>
    have named : name ⟨inherited, f⟩ ≠ "" := fun empty => filled (inherited_of_name empty)
    exact List.forall_mem_cons.mpr ⟨named, ih named⟩

/-- No empty name stands behind one that is not empty. -/
theorem pairwise_name_ofFrames (inherited : String) (frames : List Frame) :
    (ofFrames inherited frames).Pairwise fun earlier later => earlier.name ≠ "" → later.name ≠ "" := by
  induction frames generalizing inherited with
  | nil => exact .nil
  | cons f rest ih =>
    exact List.pairwise_cons.mpr ⟨fun p mem filled => name_ne_of_mem_ofFrames filled p mem, ih _⟩

theorem pairwise_index_fields (index : Nat) (parts : List Part) :
    (fields index parts).Pairwise fun a b => a.index < b.index := by
  rw [← List.pairwise_map (f := Field.index), map_index_fields]
  exact List.pairwise_lt_range'

end Part

theorem Framing.frames_of_opened {m : Markers} {text : Bytes} {c : Cursor}
    (opened : gap m text = .part c.ahead) :
    let block := HeaderBlock.read c
    let moved := block.cursor.advanceToBoundary m.delimiter
    ∃ others, (ofBytes m text).frames = ⟨block.lines, moved.2.segment⟩ :: others ∧
      (moved.1 = true → others = (ofBytes m moved.2.ahead).frames) := by
  obtain ⟨lines, begun, rest⟩ := HeaderBlock.read_eq_block c
  dsimp only
  rw [lines]
  rcases headed : block c.ahead with ⟨first, _ | behind⟩
  · rw [headed] at rest
    obtain ⟨last, segment⟩ := Cursor.advanceToBoundary_of_rest_nil m.delimiter rest
    rw [ofBytes_of_unended opened headed, segment]
    exact ⟨[], rfl, fun more => absurd more (Bool.eq_false_iff.mp last)⟩
  · rw [headed] at rest
    cases cut : cutContent m.delimiter behind with
    | none =>
      obtain ⟨last, segment⟩ := Cursor.advanceToBoundary_of_cutContent_none rest cut
      rw [ofBytes_of_uncut opened headed cut, segment]
      exact ⟨[], rfl, fun more => absurd more (Bool.eq_false_iff.mp last)⟩
    | some taken =>
      obtain ⟨_, segment, ahead⟩ := Cursor.advanceToBoundary_of_cutContent_some begun rest cut
      rw [ofBytes_of_cut opened headed cut, frames_cons, segment, ahead]
      exact ⟨_, rfl, fun _ => rfl⟩

namespace Decoder

variable {d : Decoder} {m : Markers} {body : Bytes} {s next : State} {parts : List Part}

namespace State

/-- The parts that a run has not captured yet, as far as its stage tells. -/
def Pending (m : Markers) (s : State) (rest : List Part) : Prop :=
  match s.stage with
  | .seeking => rest = Part.ofFrames s.heading.name (Framing.ofBytes m s.cursor.ahead).frames
  | .heading => ∃ text, Framing.gap m text = .part s.cursor.ahead ∧
      rest = Part.ofFrames s.heading.name (Framing.ofBytes m text).frames
  | .capturing =>
    let moved := s.cursor.advanceToBoundary m.delimiter
    ∃ p others, rest = p :: others ∧ s.heading = p.heading ∧ p.frame.content = moved.2.segment ∧
      (moved.1 = true → others = Part.ofFrames p.name (Framing.ofBytes m moved.2.ahead).frames)
  | .finished _ => True

/-- A state of a run is at the part behind those that it has captured, and but for the header lines of
that part it knows no more of them than the name that they leave. -/
structure Follows (m : Markers) (parts : List Part) (s : State) : Prop where
  captured : s.parts.map (·.field) = Part.fields 0 (parts.take s.parts.length)
  index : s.nextIndex = s.parts.length
  pending : s.Pending m (parts.drop s.parts.length)
  inherits : s.stage ≠ .capturing →
    s.heading = .ofName (Part.nameLeft (parts.take s.parts.length))

theorem follows_initial (d : Decoder) (body : Bytes) :
    (State.initial body).Follows d.markers (d.parts body) where
  captured := rfl
  index := rfl
  pending := rfl
  inherits := fun _ => rfl

namespace Follows

variable (follows : s.Follows m parts)

include follows

theorem length_take : (parts.take s.parts.length).length = s.parts.length := by
  have count := congrArg (fun fields => (fields.map Field.index).length) follows.captured
  simp only [Part.map_index_fields, List.length_map, List.length_range'] at count
  exact count.symm

theorem afterOpening (stage : s.stage = .seeking) :
    (s.afterOpening (Opening.find m s.cursor)).Follows m parts := by
  have heading := follows.inherits (by rw [stage]; nofun)
  have pending := follows.pending
  rw [Pending, stage] at pending
  have gap := Opening.gap_find m s.cursor
  cases found : Opening.find m s.cursor with
  | closed cursor => exact ⟨follows.captured, follows.index, trivial, fun _ => heading⟩
  | exhausted cursor => exact ⟨follows.captured, follows.index, trivial, fun _ => heading⟩
  | part cursor =>
    rw [found] at gap
    refine ⟨follows.captured, follows.index, ⟨_, gap.symm, pending⟩, fun _ => ?_⟩
    change s.heading.renew = _
    rw [heading]
    rfl

theorem afterHeaders {policy : Policy} {heading : Heading} (stage : s.stage = .heading)
    (noted : (s.heading.noteLines policy (HeaderBlock.read s.cursor).lines).result = .ok heading) :
    (s.afterHeaders (HeaderBlock.read s.cursor) heading).Follows m parts := by
  -- Before its lines are read a part has nothing but the inherited name, as in the framing.
  have fresh : s.heading = .ofName s.heading.name := by
    rw [follows.inherits (by rw [stage]; nofun)]
    rfl
  have pending := follows.pending
  rw [Pending, stage] at pending
  obtain ⟨text, opened, left⟩ := pending
  obtain ⟨others, frames, later⟩ := Framing.frames_of_opened opened
  rw [frames, Part.ofFrames] at left
  refine ⟨follows.captured, follows.index, ⟨_, _, left, ?_, rfl, fun more => ?_⟩,
    fun other => absurd rfl other⟩
  · rw [fresh] at noted
    exact (Part.noteLines_eq_ok_iff.mp noted).2.symm
  · exact congrArg _ (later more)

theorem afterCapture {policy : Policy} {field : Field} (stage : s.stage = .capturing)
    (checked : s.heading.field policy s.nextIndex
      (s.cursor.advanceToBoundary m.delimiter).2.segment = .ok field) :
    (s.afterCapture (s.cursor.advanceToBoundary m.delimiter) field).Follows m parts := by
  have pending := follows.pending
  rw [Pending, stage] at pending
  obtain ⟨p, others, left, heading, content, later⟩ := pending
  have given : field = p.field s.parts.length := by
    rw [Heading.eq_of_field checked, follows.index, heading, p.name_heading, ← content, Part.field]
  obtain ⟨_, behind, taken⟩ := Part.take_of_drop left
  have count : (s.afterCapture (s.cursor.advanceToBoundary m.delimiter) field).parts.length =
      s.parts.length + 1 := by
    rw [parts_afterCapture, List.length_append, List.length_singleton]
  refine ⟨?_, ?_, ?_, fun _ => ?_⟩
  · rw [count, taken, Part.fields_append, follows.length_take, parts_afterCapture, List.map_append,
      follows.captured, given]
    simp [Part.fields]
  · rw [count, ← follows.index, Heading.eq_of_field checked]
    rfl
  · rw [count, behind]
    cases more : (s.cursor.advanceToBoundary m.delimiter).1 with
    | false => simp [Pending, State.afterCapture, more]
    | true =>
      simp only [Pending, State.afterCapture, more, if_true]
      rw [later more, heading, ← p.name_heading]
      rfl
  · rw [count, taken, Part.nameLeft_concat, ← p.name_heading, ← heading]
    rfl

theorem map_index : (s.parts.map (·.field)).map Field.index = List.range s.nextIndex := by
  rw [follows.captured, Part.map_index_fields, follows.length_take, follows.index,
    List.range_eq_range']

theorem ordered : (s.parts.map (·.field)).Pairwise fun a b => a.index < b.index := by
  rw [follows.captured]
  exact Part.pairwise_index_fields _ _

theorem contains_form {name : String} :
    s.form.contains name ↔ ∃ part ∈ parts.take s.parts.length, part.name = name := by
  rw [form, Form.contains_ofFields, follows.captured, ← List.mem_map, Part.map_name_fields,
    List.mem_map]

theorem size_form : s.form.size = ((parts.take s.parts.length).map Part.name).dedup.length := by
  rw [form, Form.size_ofFields, follows.captured, Part.map_name_fields]

theorem exists_pending (stage : s.stage = .heading ∨ s.stage = .capturing) :
    ∃ part, parts[s.parts.length]? = some part ∧
      (s.stage = .heading → part.frame.lines = (HeaderBlock.read s.cursor).lines) ∧
      (s.stage = .capturing → s.heading = part.heading) := by
  have pending := follows.pending
  rcases stage with stage | stage <;> rw [Pending, stage] at pending
  · obtain ⟨text, opened, left⟩ := pending
    obtain ⟨others, frames, _⟩ := Framing.frames_of_opened opened
    rw [frames, Part.ofFrames] at left
    refine ⟨_, (Part.take_of_drop left).1, fun _ => rfl, fun other => ?_⟩
    rw [stage] at other
    cases other
  · obtain ⟨p, others, left, heading, _⟩ := pending
    refine ⟨p, (Part.take_of_drop left).1, fun other => ?_, fun _ => heading⟩
    rw [stage] at other
    cases other

end Follows
end State

theorem Passes.follows (passed : d.Passes body s) : s.Follows d.markers (d.parts body) := by
  refine passed.invariant (State.follows_initial d body) ?_
  intro s next follows moved
  cases moved with
  | seeking stage => exact follows.afterOpening stage
  | heading stage noted => exact follows.afterHeaders stage noted
  | capturing stage checked => exact follows.afterCapture stage checked
  | finished stage => exact follows

/-- At every point of a run the form has exactly the names of the parts captured so far, and under each
name the one with the greatest index, where the index is the number of parts captured before. A part has
the last name that its header lines give, or else the name of the part in front of it, or else the empty
name, and only this name is handed on from part to part. -/
theorem form_has_last_of_name (passed : d.Passes body s) :
    let parts := d.parts body
    let captured := parts.take s.parts.length
    s.parts.map (·.field) = Part.fields 0 captured ∧
    (s.parts.map (·.field)).map Field.index = List.range s.nextIndex ∧
    (∀ name, s.form.contains name ↔ ∃ part ∈ captured, part.name = name) ∧
    (∀ name field, s.form.get? name = some field ↔
      field ∈ s.parts.map (·.field) ∧ field.name = name ∧
        ∀ other ∈ s.parts.map (·.field), other.name = name → other.index ≤ field.index) ∧
    (s.form.fields.map Field.index).Nodup ∧
    (∀ field ∈ s.form.fields, field.index < s.nextIndex) ∧
    s.form.size = (captured.map Part.name).dedup.length ∧
    (∀ i (part : Part), parts[i]? = some part →
      part.name = (part.headers.filterMap PartHeader.fieldName?).getLast?.getD
        (((parts.take i).getLast?.map Part.name).getD "") ∧
      "" ∉ part.headers.filterMap PartHeader.fieldName?) ∧
    parts.Pairwise (fun earlier later : Part => earlier.name ≠ "" → later.name ≠ "") ∧
    (s.stage ≠ .capturing → s.heading = .ofName ((captured.getLast?.map Part.name).getD "")) ∧
    (s.stage = .heading ∨ s.stage = .capturing → ∃ part, parts[s.parts.length]? = some part ∧
      (s.stage = .heading → part.frame.lines = (HeaderBlock.read s.cursor).lines) ∧
      (s.stage = .capturing → s.heading = part.heading ∧ part.heading.name = part.name)) := by
  have follows := passed.follows
  have sublist : s.form.fields.Sublist (s.parts.map (·.field)) := Form.sublist_ofFields _
  refine ⟨follows.captured, follows.map_index, fun _ => follows.contains_form,
    fun _ _ => Form.get?_ofFields_eq_some_iff follows.ordered, ?_, fun field mem => ?_,
    follows.size_form, fun i part here => ⟨?_, part.empty_not_mem_given⟩,
    Part.pairwise_name_ofFrames _ _, follows.inherits, fun stage => ?_⟩
  · exact List.pairwise_map.mpr ((follows.ordered.sublist sublist).imp Nat.ne_of_lt)
  · have inside := List.mem_map_of_mem (f := Field.index) (sublist.subset mem)
    rw [follows.map_index] at inside
    exact List.mem_range.mp inside
  · rw [Part.name, Part.inherited_eq_nameLeft here]
    rfl
  · obtain ⟨part, here, lines, heading⟩ := follows.exists_pending stage
    exact ⟨part, here, lines, fun stage => ⟨heading stage, part.name_heading⟩⟩

/-- A part without a name, one with two names and a disposition that gives none behind them, and one that
inherits and replaces. -/
def namesBody : Bytes :=
  Text.Utf8.encode ("--X\r\n\r\n0\r\n--X\r\nContent-Disposition: form-data; name=b\r\n".toList ++
    "Content-Disposition: form-data; name=a\r\nContent-Disposition: form-data; name=\r\n\r\n1".toList ++
    "\r\n--X\r\n\r\n2\r\n--X--".toList)

def namesFields : List Field :=
  [⟨"", none, none, none, 0, [48]⟩, ⟨"a", none, none, none, 1, [49]⟩, ⟨"a", none, none, none, 2, [50]⟩]

theorem form_has_last_of_name_namesBody :
    ∃ s, (Decoder.mk "X" .lenient).Passes namesBody s ∧ s.parts.map (·.field) = namesFields ∧
      s.form.get? "a" = some ⟨"a", none, none, none, 2, [50]⟩ ∧ ∀ field, s.form.get? "b" ≠ some field := by
  have outcome : ((Decoder.mk "X" .lenient).run (.initial namesBody)).result.map
      (fun s => s.parts.map (·.field)) = .ok namesFields := by decide +kernel
  obtain ⟨final, passed, captured⟩ := exists_passes_of_run outcome
  obtain ⟨_, _, _, get, _⟩ := form_has_last_of_name passed
  simp only [captured] at get
  have unnamed : ∀ field ∈ namesFields, field.name ≠ "b" := by decide
  refine ⟨final, passed, captured, (get _ _).mpr (by decide), fun field found => ?_⟩
  obtain ⟨mem, named, _⟩ := (get _ _).mp found
  exact unnamed field mem named

end Decoder
end FormBody
