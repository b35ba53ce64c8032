import FormBody.Proofs.Framing.Reading

/-! The decoder computes the framing of a body. Its stages share a cursor whose moves are set out
from the end of a segment; what stands ahead of the cursor, from the next line on, is the text that
the framing of the rest of the body is computed from. -/
namespace FormBody

namespace Cursor

open Bytes

variable {c : Cursor}

/-- The text from the next line on. -/
def ahead (c : Cursor) : Bytes := if c.begun then c.rest.drop crlf.length else c.buffer

theorem ahead_of_begun (begun : c.begun = true) : c.ahead = c.rest.drop crlf.length := if_pos begun

theorem rest_before_line (c : Cursor) : (if c.begun then c.skipBreak else c.rewind).rest = c.ahead := by
  unfold ahead
  split <;> rfl

theorem nextLine_of_cutLine_none (h : cutLine c.ahead = none) :
    c.nextLine.1 = false ∧ c.nextLine.2.segment = c.ahead ∧ c.nextLine.2.rest = [] := by
  have search : index? crlf (if c.begun then c.skipBreak else c.rewind).rest = none := by
    rw [rest_before_line]
    exact Option.map_eq_none_iff.mp h
  rw [nextLine, advanceToBreak, search]
  exact ⟨rfl, rest_before_line c, rfl⟩

theorem nextLine_of_cutLine_some {line rest : Bytes} (h : cutLine c.ahead = some (line, rest)) :
    c.nextLine.1 = true ∧ c.nextLine.2.segment = line ∧ c.nextLine.2.rest = crlf ++ rest := by
  obtain ⟨i, found, same⟩ := Option.map_eq_some_iff.mp h
  cases same
  obtain ⟨behind, split⟩ := prefix_of_index? found
  have tail : c.ahead.drop (i + crlf.length) = behind := by
    rw [← List.drop_drop, ← split, List.drop_left]
  rw [← rest_before_line] at found
  rw [nextLine, advanceToBreak, found, tail, split, ← rest_before_line c]
  exact ⟨rfl, rfl, rfl⟩

theorem nextLine_ahead {line rest : Bytes} (h : cutLine c.ahead = some (line, rest)) :
    c.nextLine.2.ahead = rest := by
  rw [ahead_of_begun (nextLine_begun c), (nextLine_of_cutLine_some h).2.2]
  rfl

theorem prefix_drop_of_crlf_append {delimiter text : Bytes} {j : Nat}
    (h : crlf ++ delimiter <+: text.drop j) : delimiter <+: (text.drop crlf.length).drop j := by
  obtain ⟨behind, split⟩ := h
  rw [List.drop_drop, Nat.add_comm, ← List.drop_drop, ← split, List.append_assoc, List.drop_left]
  exact List.prefix_append _ _

theorem exists_of_nextLine (found : c.nextLine.1 = true) :
    ∃ line rest, cutLine c.ahead = some (line, rest) := by
  cases cut : cutLine c.ahead with
  | none => rw [(nextLine_of_cutLine_none cut).1] at found; cases found
  | some first => exact ⟨first.1, first.2, rfl⟩

theorem cutLine_of_nextLine (missing : ¬ c.nextLine.1 = true) : cutLine c.ahead = none := by
  cases cut : cutLine c.ahead with
  | none => rfl
  | some first => exact absurd (nextLine_of_cutLine_some cut).1 missing

/-- Trying every occurrence of a delimiter comes to one search for line break and delimiter. -/
theorem anchor?_eq_index? (delimiter text : Bytes) :
    anchor? delimiter text = index? (crlf ++ delimiter) text := by
  fun_induction anchor? delimiter text with
  | case1 => simp [index?_nil, crlf]
  | case2 b rest missing =>
    symm
    rw [index?_eq_none_iff]
    rintro ⟨front, back, split⟩
    apply index?_eq_none_iff.mp missing
    have here : crlf ++ delimiter <+: (b :: rest).drop front.length := by
      rw [← split, List.append_assoc, List.drop_left]
      exact List.prefix_append _ _
    exact (prefix_drop_of_crlf_append here).isInfix.trans (List.drop_suffix _ _).isInfix
  | case3 b rest i found here =>
    symm
    obtain ⟨occurs, first⟩ := index?_eq_some_iff.mp found
    refine index?_eq_some_iff.mpr ⟨?_, fun j before h => ?_⟩
    · obtain ⟨behind, split⟩ := List.isPrefixOf_iff_prefix.mp here
      rw [List.drop_drop, Nat.add_comm, ← List.drop_drop, ← split, List.drop_left] at occurs
      rw [← split]
      exact (List.prefix_append_right_inj crlf).mpr occurs
    · exact first j before (prefix_drop_of_crlf_append h)
  | case4 b rest i found notHere ih =>
    obtain ⟨_, first⟩ := index?_eq_some_iff.mp found
    have none : ∀ j < i + 1, ¬ crlf ++ delimiter <+: (b :: rest).drop j := by
      intro j before h
      rcases Nat.lt_succ_iff_lt_or_eq.mp before with before | rfl
      · exact first j before (prefix_drop_of_crlf_append h)
      · exact notHere (List.isPrefixOf_iff_prefix.mpr ((List.prefix_append _ _).trans h))
    rw [ih, index?_drop none, List.drop_succ_cons]

theorem advanceToBoundary_of_rest_nil (delimiter : Bytes) (ended : c.rest = []) :
    (c.advanceToBoundary delimiter).1 = false ∧ (c.advanceToBoundary delimiter).2.segment = [] := by
  rw [advanceToBoundary, ended, anchor?]
  refine ⟨rfl, ?_⟩
  change c.rest.drop crlf.length = []
  rw [ended]
  rfl

theorem advanceToBoundary_of_cutContent_none {delimiter text : Bytes} (front : c.rest = crlf ++ text)
    (h : cutContent delimiter text = none) :
    (c.advanceToBoundary delimiter).1 = false ∧ (c.advanceToBoundary delimiter).2.segment = text := by
  have search : index? (crlf ++ delimiter) c.rest = none := by
    rw [front]
    exact Option.map_eq_none_iff.mp h
  rw [advanceToBoundary, anchor?_eq_index?, search]
  refine ⟨rfl, ?_⟩
  change c.rest.drop crlf.length = text
  rw [front]
  rfl

theorem advanceToBoundary_of_cutContent_some {delimiter text content next : Bytes}
    (begun : c.begun = true) (front : c.rest = crlf ++ text)
    (h : cutContent delimiter text = some (content, next)) :
    (c.advanceToBoundary delimiter).1 = true ∧
      (c.advanceToBoundary delimiter).2.segment = content ∧
      (c.advanceToBoundary delimiter).2.ahead = next := by
  obtain ⟨i, found, same⟩ := Option.map_eq_some_iff.mp h
  cases same
  have search : index? (crlf ++ delimiter) c.rest = some i := by rw [front, found]
  rw [advanceToBoundary, anchor?_eq_index?, search]
  refine ⟨rfl, ?_, ?_⟩
  · change (c.rest.drop (min crlf.length i)).take (i - crlf.length) = text.take (i - crlf.length)
    rw [front]
    match i with
    | 0 => rfl
    | 1 => rfl
    | i + 2 => rw [Nat.min_eq_left (by simp)]; rfl
  · change (if c.begun then ((c.rest.drop (min crlf.length i)).drop (i - crlf.length)).drop crlf.length
      else c.buffer) = text.drop i
    rw [if_pos begun, front, List.drop_drop, List.drop_drop,
      show min crlf.length i + (i - crlf.length + crlf.length) = crlf.length + i by
        rw [length_crlf]; omega,
      ← List.drop_drop, List.drop_left]

end Cursor

namespace Opening

open Bytes Cursor

def gap : Opening → Gap
  | part c => .part c.ahead
  | closed _ => .closed
  | exhausted _ => .exhausted

theorem gap_find (m : Markers) (c : Cursor) : (find m c).gap = Framing.gap m c.ahead := by
  fun_induction find m c with
  | case1 c next closing =>
    rw [List.isPrefixOf_iff_prefix] at closing
    cases cut : cutLine c.ahead with
    | none =>
      rw [(nextLine_of_cutLine_none cut).2.1] at closing
      rw [Framing.gap_of_cutLine_none m cut, if_pos closing, gap]
    | some first =>
      rw [(nextLine_of_cutLine_some cut).2.1] at closing
      rw [Framing.gap_of_cutLine_some m cut, if_pos closing, gap]
  | case2 c next notClosing found opening =>
    rw [List.isPrefixOf_iff_prefix] at notClosing opening
    obtain ⟨line, rest, cut⟩ := exists_of_nextLine found
    rw [(nextLine_of_cutLine_some cut).2.1] at notClosing opening
    rw [Framing.gap_of_cutLine_some m cut, if_neg notClosing, if_pos opening, gap,
      nextLine_ahead cut]
  | case3 c next notClosing found notOpening ih =>
    rw [List.isPrefixOf_iff_prefix] at notClosing notOpening
    obtain ⟨line, rest, cut⟩ := exists_of_nextLine found
    rw [(nextLine_of_cutLine_some cut).2.1] at notClosing notOpening
    rw [Framing.gap_of_cutLine_some m cut, if_neg notClosing, if_neg notOpening, ih,
      nextLine_ahead cut]
  | case4 c next notClosing missing =>
    rw [List.isPrefixOf_iff_prefix] at notClosing
    have cut := cutLine_of_nextLine missing
    rw [(nextLine_of_cutLine_none cut).2.1] at notClosing
    rw [Framing.gap_of_cutLine_none m cut, if_neg notClosing, gap]

end Opening

namespace HeaderBlock

open Bytes Cursor

theorem read_eq_block (c : Cursor) :
    (read c).lines = (Framing.block c.ahead).1 ∧ (read c).cursor.begun = true ∧
      (read c).cursor.rest = ((Framing.block c.ahead).2.map (crlf ++ ·)).getD [] := by
  fun_induction read c with
  | case1 c next found line blank =>
    obtain ⟨first, rest, cut⟩ := exists_of_nextLine found
    have moved := nextLine_of_cutLine_some cut
    have empty : first.isEmpty = true := moved.2.1 ▸ blank
    rw [Framing.block_of_cutLine_some cut, if_pos empty]
    exact ⟨rfl, nextLine_begun c, moved.2.2⟩
  | case2 c next found line filled block ih =>
    obtain ⟨first, rest, cut⟩ := exists_of_nextLine found
    have moved := nextLine_of_cutLine_some cut
    have nonempty : ¬ first.isEmpty = true := moved.2.1 ▸ filled
    rw [nextLine_ahead cut] at ih
    rw [Framing.block_of_cutLine_some cut, if_neg nonempty]
    refine ⟨?_, ih.2⟩
    rw [ih.1, show line = first from moved.2.1]
  | case3 c next missing =>
    have cut := cutLine_of_nextLine missing
    rw [Framing.block_of_cutLine_none cut]
    exact ⟨rfl, nextLine_begun c, (nextLine_of_cutLine_none cut).2.2⟩

end HeaderBlock

namespace Decoder

open Bytes

variable {d : Decoder} {s : State}

theorem result_run (running : ¬ s.stage.isFinished) :
    (d.run s).result = (d.step s).result.bind fun next => (d.run next).result := by
  rw [run_eq_andThen running, Logged.result_andThen]

def State.outcome (s : State) : List Field × Stage := (s.parts.map (·.field), s.stage)

theorem step_of_seeking (stage : s.stage = .seeking) : d.step s = d.seek s := by
  rw [step, stage]

theorem step_of_heading (stage : s.stage = .heading) : d.step s = d.readHeading s := by
  rw [step, stage]

theorem step_of_capturing (stage : s.stage = .capturing) : d.step s = d.capture s := by
  rw [step, stage]

theorem not_isFinished_of_eq {stage : Stage} (h : s.stage = stage)
    (running : stage.isFinished = false) : ¬ s.stage.isFinished := by
  rw [h, running]
  exact Bool.false_ne_true

theorem run_of_gap_closed (stage : s.stage = .seeking)
    (h : Framing.gap d.markers s.cursor.ahead = .closed) :
    (d.run s).result.map State.outcome = .ok (s.parts.map (·.field), .finished true) := by
  rw [← Opening.gap_find] at h
  rw [result_run (not_isFinished_of_eq stage rfl), step_of_seeking stage, seek]
  cases found : Opening.find d.markers s.cursor with
  | part cursor => rw [found] at h; cases h
  | exhausted cursor => rw [found] at h; cases h
  | closed cursor =>
    change (d.run { s with cursor, stage := .finished true }).result.map State.outcome = _
    rw [run_of_isFinished rfl]
    rfl

theorem run_of_gap_exhausted (stage : s.stage = .seeking)
    (h : Framing.gap d.markers s.cursor.ahead = .exhausted) :
    (d.run s).result.map State.outcome = .ok (s.parts.map (·.field), .finished false) := by
  rw [← Opening.gap_find] at h
  rw [result_run (not_isFinished_of_eq stage rfl), step_of_seeking stage, seek]
  cases found : Opening.find d.markers s.cursor with
  | part cursor => rw [found] at h; cases h
  | closed cursor => rw [found] at h; cases h
  | exhausted cursor =>
    change (d.run { s with cursor, stage := .finished false }).result.map State.outcome = _
    rw [run_of_isFinished rfl]
    rfl

/-- From the search for a part to the capture of its content. -/
theorem run_of_gap_part {text : Bytes} (stage : s.stage = .seeking)
    (h : Framing.gap d.markers s.cursor.ahead = .part text) :
    ∃ cursor : Cursor, cursor.begun = true ∧
      cursor.rest = ((Framing.block text).2.map (crlf ++ ·)).getD [] ∧
      (d.run s).result =
        (Heading.noteLines d.policy (.ofName s.heading.name) (Framing.block text).1).result.bind
          fun heading => (d.run ⟨cursor, .capturing, heading, s.captures⟩).result := by
  rw [← Opening.gap_find] at h
  rw [result_run (not_isFinished_of_eq stage rfl), step_of_seeking stage, seek]
  cases found : Opening.find d.markers s.cursor with
  | closed cursor => rw [found] at h; cases h
  | exhausted cursor => rw [found] at h; cases h
  | part cursor =>
    rw [found] at h
    cases h
    obtain ⟨lines, begun, rest⟩ := HeaderBlock.read_eq_block cursor
    refine ⟨(HeaderBlock.read cursor).cursor, begun, rest, ?_⟩
    change (d.run { s with cursor, stage := .heading, heading := s.heading.renew }).result = _
    rw [result_run (not_isFinished_of_eq rfl rfl), step_of_heading rfl, readHeading,
      Logged.result_andThen, lines]
    dsimp only [Heading.renew]
    cases (Heading.noteLines d.policy (.ofName s.heading.name) (Framing.block cursor.ahead).1).result
      with
    | error e => rfl
    | ok heading => rfl

theorem result_capture (d : Decoder) (s : State) :
    (d.capture s).result =
      let moved := s.cursor.advanceToBoundary d.markers.delimiter
      (s.heading.field d.policy s.nextIndex moved.2.segment).map fun field =>
        { cursor := moved.2, stage := if moved.1 then .seeking else .finished false,
          heading := s.heading.renew, captures := ⟨field, moved.2.start⟩ :: s.captures } := by
  simp only [capture, Heading.field]
  split
  · rfl
  · split <;> rfl

theorem run_of_last {content : Bytes} (stage : s.stage = .capturing)
    (last : (s.cursor.advanceToBoundary d.markers.delimiter).1 = false)
    (segment : (s.cursor.advanceToBoundary d.markers.delimiter).2.segment = content) :
    (d.run s).result.map State.outcome =
      (s.heading.field d.policy s.nextIndex content).map
        fun field => (s.parts.map (·.field) ++ [field], .finished false) := by
  rw [result_run (not_isFinished_of_eq stage rfl), step_of_capturing stage, result_capture]
  dsimp only
  rw [segment, last]
  cases s.heading.field d.policy s.nextIndex content with
  | error e => rfl
  | ok field =>
    dsimp only [Except.map, Except.bind]
    rw [run_of_isFinished rfl]
    simp [State.outcome, State.parts]

theorem run_of_last_frame {cursor : Cursor} {content : Bytes} (lines : List Bytes)
    (last : (cursor.advanceToBoundary d.markers.delimiter).1 = false)
    (segment : (cursor.advanceToBoundary d.markers.delimiter).2.segment = content) :
    ((Heading.noteLines d.policy (.ofName s.heading.name) lines).result.bind fun heading =>
        (d.run ⟨cursor, .capturing, heading, s.captures⟩).result).map State.outcome =
      (Frame.fields d.policy s.heading.name s.nextIndex [⟨lines, content⟩]).map fun new =>
        (s.parts.map (·.field) ++ new, .finished false) := by
  simp only [Frame.fields, Frame.field]
  cases (Heading.noteLines d.policy (.ofName s.heading.name) lines).result with
  | error e => rfl
  | ok heading =>
    have run := run_of_last (s := ⟨cursor, .capturing, heading, s.captures⟩) rfl last segment
    dsimp only [Except.bind]
    rw [run]
    change (heading.field d.policy s.nextIndex content).map _ = _
    cases heading.field d.policy s.nextIndex content with
    | error e => rfl
    | ok field => rfl

/-- A part that a delimiter ends, from its header lines to the search for the next one. -/
theorem run_of_frame {cursor : Cursor} {content text : Bytes} (lines : List Bytes)
    (more : (cursor.advanceToBoundary d.markers.delimiter).1 = true)
    (segment : (cursor.advanceToBoundary d.markers.delimiter).2.segment = content)
    (ahead : (cursor.advanceToBoundary d.markers.delimiter).2.ahead = text) :
    ∃ resumed : Cursor, resumed.ahead = text ∧
      ((Heading.noteLines d.policy (.ofName s.heading.name) lines).result.bind fun heading =>
          (d.run ⟨cursor, .capturing, heading, s.captures⟩).result) =
        (Frame.field d.policy s.heading.name s.nextIndex ⟨lines, content⟩).bind fun field =>
          (d.run ⟨resumed, .seeking, .ofName field.name,
            ⟨field, resumed.start⟩ :: s.captures⟩).result := by
  refine ⟨(cursor.advanceToBoundary d.markers.delimiter).2, ahead, ?_⟩
  rw [Frame.field]
  cases (Heading.noteLines d.policy (.ofName s.heading.name) lines).result with
  | error e => rfl
  | ok heading =>
    dsimp only [Except.bind]
    rw [result_run (not_isFinished_of_eq rfl rfl), step_of_capturing rfl, result_capture]
    dsimp only
    rw [segment, more]
    change ((heading.field d.policy s.nextIndex content).map _).bind _ =
      (heading.field d.policy s.nextIndex content).bind _
    cases checked : heading.field d.policy s.nextIndex content with
    | error e => rfl
    | ok field => rw [Heading.eq_of_field checked]; rfl

/-- The rest of a run is settled by the framing of the text ahead. -/
theorem run_eq_framing {text : Bytes} (stage : s.stage = .seeking) (ahead : s.cursor.ahead = text) :
    (d.run s).result.map State.outcome =
      (Frame.fields d.policy s.heading.name s.nextIndex (Framing.ofBytes d.markers text).frames).map
        fun new =>
          (s.parts.map (·.field) ++ new, .finished (Framing.ofBytes d.markers text).closed) := by
  -- Only a part that a delimiter ends leaves a text to go on with.
  fun_induction Framing.ofBytes d.markers text generalizing s with
  | case1 text gap =>
    rw [run_of_gap_closed stage (ahead ▸ gap)]
    simp [Framing.frames, Framing.closed, Frame.fields, Except.map]
  | case2 text gap =>
    rw [run_of_gap_exhausted stage (ahead ▸ gap)]
    simp [Framing.frames, Framing.closed, Frame.fields, Except.map]
  | case3 text rest gap lines block =>
    obtain ⟨cursor, begun, front, run⟩ := run_of_gap_part stage (ahead ▸ gap)
    rw [block] at front run
    obtain ⟨last, segment⟩ := cursor.advanceToBoundary_of_rest_nil d.markers.delimiter front
    rw [run, run_of_last_frame lines last segment]
    rfl
  | case4 text rest gap lines behind block uncut =>
    obtain ⟨cursor, begun, front, run⟩ := run_of_gap_part stage (ahead ▸ gap)
    rw [block] at front run
    obtain ⟨last, segment⟩ := cursor.advanceToBoundary_of_cutContent_none front uncut
    rw [run, run_of_last_frame lines last segment]
    rfl
  | case5 text rest gap lines behind block content next cut ih =>
    obtain ⟨cursor, begun, front, run⟩ := run_of_gap_part stage (ahead ▸ gap)
    rw [block] at front run
    obtain ⟨more, segment, ahead⟩ := cursor.advanceToBoundary_of_cutContent_some begun front cut
    obtain ⟨resumed, resumedAhead, captured⟩ := run_of_frame (s := s) lines more segment ahead
    rw [run, captured, Framing.frames_cons, Frame.fields]
    cases checked : Frame.field d.policy s.heading.name s.nextIndex ⟨lines, content⟩ with
    | error e => rfl
    | ok field =>
      have index : State.nextIndex ⟨resumed, .seeking, .ofName field.name,
          ⟨field, resumed.start⟩ :: s.captures⟩ = s.nextIndex + 1 :=
        congrArg (· + 1) (Frame.index_of_field checked)
      dsimp only [Except.bind]
      rw [ih rfl resumedAhead, index]
      change (Frame.fields d.policy field.name (s.nextIndex + 1) _).map _ =
        ((Frame.fields d.policy field.name (s.nextIndex + 1) _).map (field :: ·)).map _
      cases Frame.fields d.policy field.name (s.nextIndex + 1)
          (Framing.ofBytes d.markers next).frames with
      | error e => rfl
      | ok others => simp [Except.map, State.parts, Framing.cons, Framing.closed]

theorem run_initial (d : Decoder) (body : Bytes) :
    (d.run (.initial body)).result.map State.outcome =
      (Frame.fields d.policy "" 0 (Framing.ofBytes d.markers body).frames).map fun fields =>
        (fields, .finished (Framing.ofBytes d.markers body).closed) :=
  run_eq_framing (s := .initial body) rfl rfl

theorem result_decode_eq_run (d : Decoder) {body : Bytes} (nonempty : body ≠ [])
    (fits : body.length ≤ d.policy.sizes.wholeBody.toNat) :
    (d.decode body).result =
      ((d.run (.initial body)).result.map State.outcome).bind fun (fields, stage) =>
        if d.policy.terminatorRequired && stage != .finished true then .error .incompleteBody
        else .ok (.ofFields fields) := by
  rw [decode, if_neg (by simpa using nonempty), if_neg (Nat.not_lt.mpr fits), Logged.result_andThen]
  dsimp only [Except.bind]
  rw [Logged.result_andThen]
  cases (d.run (.initial body)).result with
  | error e => rfl
  | ok final => dsimp only [Except.bind, Except.map, State.outcome]; split <;> rfl

theorem result_decode (d : Decoder) {body : Bytes} (nonempty : body ≠ [])
    (fits : body.length ≤ d.policy.sizes.wholeBody.toNat) :
    (d.decode body).result = (Framing.ofBytes d.markers body).form d.policy := by
  rw [result_decode_eq_run d nonempty fits, run_initial, Framing.form]
  generalize Framing.ofBytes d.markers body = framing
  cases Frame.fields d.policy "" 0 framing.frames with
  | error e => rfl
  | ok fields =>
    dsimp only [Except.bind, Except.map]
    cases framing.closed <;> rfl

theorem fits_of_accepted {d : Decoder} {body : Bytes} {form : Form} (nonempty : body ≠ [])
    (accepted : (d.decode body).result = .ok form) :
    body.length ≤ d.policy.sizes.wholeBody.toNat := by
  rw [decode, if_neg (by simpa using nonempty)] at accepted
  split at accepted
  · cases accepted
  · next fits => exact Nat.not_lt.mp fits

/-- The stages of the decoder, which share one cursor, come to the two phases of the reference: the
body is framed by the boundary and the positions of line breaks alone, and the parts are read in
order. The run captures the parts of the framing, and the result is the form that they give. -/
theorem decode_eq_form (d : Decoder) (body : Bytes) (nonempty : body ≠ [])
    (fits : body.length ≤ d.policy.sizes.wholeBody.toNat) :
    let framing := Framing.ofBytes (.ofBoundary d.boundary) body
    (d.run (.initial body)).result.map State.outcome =
        (Frame.fields d.policy "" 0 framing.frames).map
          (fun fields => (fields, .finished framing.closed)) ∧
      (d.decode body).result = framing.form d.policy :=
  ⟨run_initial d body, result_decode d nonempty fits⟩

/-- The second part has no name of its own, and the input ends inside of it. -/
theorem decode_eq_form_of_inherited_name :
    let body := Text.Utf8.encode
      "--X\r\nContent-Disposition: form-data; name=a\r\n\r\n1\r\n--X\r\nContent-Length: 1\r\n\r\n2".toList
    let fields : List Field := [⟨"a", none, none, none, 0, [49]⟩, ⟨"a", none, none, some 1, 1, [50]⟩]
    ((Decoder.mk "X" .lenient).run (.initial body)).result.map State.outcome =
        .ok (fields, .finished false) ∧
      ((Decoder.mk "X" .lenient).decode body).result = .ok (.ofFields fields) := by
  intro body fields
  have framing : Framing.ofBytes (.ofBoundary "X") body =
      ⟨[⟨[Text.Utf8.encode "Content-Disposition: form-data; name=a".toList], [49]⟩],
        .inside ⟨[Text.Utf8.encode "Content-Length: 1".toList], [50]⟩⟩ := by
    decide +kernel
  obtain ⟨run, decoded⟩ := decode_eq_form ⟨"X", .lenient⟩ body (by decide) (by decide +kernel)
  dsimp only at run decoded
  rw [framing] at run decoded
  refine ⟨run.trans ?_, decoded.trans ?_⟩ <;> decide +kernel

end Decoder
end FormBody
