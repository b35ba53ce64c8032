import FormBody.Boundary
import FormBody.Event
import FormBody.Form
import FormBody.Part.Heading
import FormBody.Part.HeaderBlock
import FormBody.Part.Opening
import FormBody.Request

/-!
The decoder of multipart form bodies. A run goes through three stages for every part: it seeks the
line that opens the part, reads the header lines, and captures the content up to the next
delimiter. Every stage either uses up input or hands over to the stage behind it, so every run
ends.
-/
namespace FormBody

/-- A part as it was captured: its field, and where in the body the content starts. -/
structure Capture where
  field : Field
  start : Nat
  deriving DecidableEq, Repr

def Capture.stop (c : Capture) : Nat := c.start + c.field.content.length

structure Decoder where
  boundary : String
  policy : Policy
  deriving DecidableEq, Repr

namespace Decoder

def markers (d : Decoder) : Markers := .ofBoundary d.boundary

def ofHeaders (headers : List Request.Header) (policy : Policy) : Except DecodeError Decoder :=
  (Request.boundary headers).map (Decoder.mk · policy)

inductive Stage where
  | seeking
  | heading
  | capturing
  /-- The run is over, with or without the closing line. -/
  | finished (closed : Bool)
  deriving DecidableEq, Repr

def Stage.isFinished : Stage → Bool
  | .finished _ => true
  | _ => false

structure State where
  cursor : Cursor
  stage : Stage
  heading : Heading
  /-- The parts captured so far, the latest first. -/
  captures : List Capture
  deriving DecidableEq, Repr

namespace State

def initial (body : Bytes) : State := ⟨.ofBytes body, .seeking, .ofName "", []⟩

/-- The parts captured so far, in the order of the body. -/
def parts (s : State) : List Capture := s.captures.reverse

def nextIndex (s : State) : Nat :=
  match s.captures with
  | [] => 0
  | latest :: _ => latest.field.index + 1

/-- An upper bound for the number of steps to the end. -/
def workLeft (s : State) : Nat :=
  4 * s.cursor.remaining + match s.stage with
    | .heading => 3
    | .capturing => 2
    | .seeking => 1
    | .finished _ => 0

end State

def seek (d : Decoder) (s : State) : Logged State :=
  match Opening.find d.markers s.cursor with
  | .part cursor => ⟨[], .ok { s with cursor, stage := .heading, heading := s.heading.renew }⟩
  | .closed cursor => ⟨[.endOfBody], .ok { s with cursor, stage := .finished true }⟩
  | .exhausted cursor => ⟨[.bodyExhausted], .ok { s with cursor, stage := .finished false }⟩

/-- Reads the header lines. Where they run out without a blank line the part has no content but
is captured all the same. -/
def readHeading (d : Decoder) (s : State) : Logged State :=
  let block := HeaderBlock.read s.cursor
  (s.heading.noteLines d.policy block.lines).andThen fun heading =>
    ⟨if block.closed then [.endOfHeaders] else [],
      .ok { s with cursor := block.cursor, stage := .capturing, heading }⟩

/-- Captures the content, whatever length was declared, if name and size are acceptable. -/
def capture (d : Decoder) (s : State) : Logged State :=
  let (more, cursor) := s.cursor.advanceToBoundary d.markers.delimiter
  let name := s.heading.name
  let content := cursor.segment
  let limit := d.policy.sizes.limitFor name
  if !d.policy.allowsName name then ⟨[], .error (.unknownField name)⟩
  else if limit.toNat < content.length then ⟨[], .error (.fieldTooLarge limit name)⟩
  else
    let field : Field :=
      { name, fileName := s.heading.fileName, contentType := s.heading.contentType,
        contentLength := s.heading.contentLength, index := s.nextIndex, content }
    ⟨[.captured name content.length more],
      .ok { cursor, stage := if more then .seeking else .finished false,
            heading := s.heading.renew, captures := ⟨field, cursor.start⟩ :: s.captures }⟩

def step (d : Decoder) (s : State) : Logged State :=
  match s.stage with
  | .seeking => d.seek s
  | .heading => d.readHeading s
  | .capturing => d.capture s
  | .finished _ => ⟨[], .ok s⟩

theorem workLeft_lt_of_seek {d : Decoder} {s next : State} (stage : s.stage = .seeking)
    (h : (d.seek s).result = .ok next) : next.workLeft < s.workLeft := by
  have bound := Opening.remaining_find_le d.markers s.cursor
  unfold seek at h
  split at h <;> cases h <;> simp only [State.workLeft, stage]
  · next cursor found =>
    have := Opening.remaining_lt_of_find found
    omega
  · next cursor found =>
    rw [found] at bound
    simp only [Opening.cursor] at bound
    omega
  · next cursor found =>
    rw [found] at bound
    simp only [Opening.cursor] at bound
    omega

theorem workLeft_lt_of_readHeading {d : Decoder} {s next : State} (stage : s.stage = .heading)
    (h : (d.readHeading s).result = .ok next) : next.workLeft < s.workLeft := by
  have := HeaderBlock.remaining_read_le s.cursor
  unfold readHeading at h
  rw [Logged.result_andThen] at h
  cases noted : (s.heading.noteLines d.policy (HeaderBlock.read s.cursor).lines).result with
  | error e => rw [noted] at h; cases h
  | ok heading =>
    rw [noted] at h
    cases h
    simp only [State.workLeft, stage]
    omega

theorem workLeft_lt_of_capture {d : Decoder} {s next : State} (stage : s.stage = .capturing)
    (h : (d.capture s).result = .ok next) : next.workLeft < s.workLeft := by
  have := Cursor.advanceToBoundary_remaining_le d.markers.delimiter s.cursor
  unfold capture at h
  dsimp only at h
  split at h
  · cases h
  · split at h
    · cases h
    · cases h
      simp only [State.workLeft, stage]
      split <;> grind

theorem workLeft_lt_of_step {d : Decoder} {s next : State} (running : ¬ s.stage.isFinished)
    (h : (d.step s).result = .ok next) : next.workLeft < s.workLeft := by
  unfold step at h
  split at h
  · next stage => exact workLeft_lt_of_seek stage h
  · next stage => exact workLeft_lt_of_readHeading stage h
  · next stage => exact workLeft_lt_of_capture stage h
  · next closed stage => simp [stage, Stage.isFinished] at running

/-- Takes steps until the run is over. -/
def run (d : Decoder) (s : State) : Logged State :=
  if _ : s.stage.isFinished then ⟨[], .ok s⟩
  else
    let taken := d.step s
    match _ : taken.result with
    | .error e => ⟨taken.events, .error e⟩
    | .ok next =>
      let rest := d.run next
      ⟨taken.events ++ rest.events, rest.result⟩
termination_by s.workLeft
decreasing_by exact workLeft_lt_of_step ‹_› ‹_›

theorem run_of_isFinished {d : Decoder} {s : State} (h : s.stage.isFinished) :
    d.run s = ⟨[], .ok s⟩ := by
  rw [run, dif_pos h]

theorem run_eq_andThen {d : Decoder} {s : State} (h : ¬ s.stage.isFinished) :
    d.run s = (d.step s).andThen d.run := by
  rw [run, dif_neg h, Logged.andThen]
  dsimp only
  split <;> simp [*]

/-- Decodes a complete body. An empty body has no fields, whatever the policy. -/
def decode (d : Decoder) (body : Bytes) : Logged Form :=
  let limit := d.policy.sizes.wholeBody
  if body.isEmpty then ⟨[], .ok .empty⟩
  else if limit.toNat < body.length then ⟨[], .error (.bodyTooLarge limit)⟩
  else
    (Logged.mk [.bodySize body.length] (.ok (State.initial body))).andThen fun start =>
      (d.run start).andThen fun final =>
        if d.policy.terminatorRequired && final.stage != .finished true then
          ⟨[], .error .incompleteBody⟩
        else ⟨[], .ok (.ofFields (final.parts.map (·.field)))⟩

def sameResult : Except DecodeError Form → Except DecodeError Form → Bool
  | .ok a, .ok b => a.same b
  | .error a, .error b => a.same b
  | _, _ => false

/-- Decodes a body leniently: a rejected body has no fields. -/
def decodeOrEmpty (boundary : String) (body : Bytes) : List Event × Form :=
  let decoded := (Decoder.mk boundary .lenient).decode body
  match decoded.result with
  | .ok form => (decoded.events, form)
  | .error e => (decoded.events ++ [.rejected e], .empty)

end Decoder
end FormBody
