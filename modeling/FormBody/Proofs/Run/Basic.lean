import FormBody.Proofs.Framing.Refinement

/-! The states that a run passes through. What a single step can do is said once, and what holds at the
start and is kept by every step holds at every point of a run. -/
namespace FormBody.Decoder

variable {d : Decoder} {body : Bytes} {s next : State}

namespace State

/-- What the search for the next part changes. -/
def afterOpening (s : State) : Opening → State
  | .part cursor => { s with cursor, stage := .heading, heading := s.heading.renew }
  | .closed cursor => { s with cursor, stage := .finished true }
  | .exhausted cursor => { s with cursor, stage := .finished false }

def afterHeaders (s : State) (block : HeaderBlock) (heading : Heading) : State :=
  { s with cursor := block.cursor, stage := .capturing, heading }

def afterCapture (s : State) (moved : Bool × Cursor) (field : Field) : State :=
  { cursor := moved.2, stage := if moved.1 then .seeking else .finished false,
    heading := s.heading.renew, captures := ⟨field, moved.2.start⟩ :: s.captures }

def form (s : State) : Form := .ofFields (s.parts.map (·.field))

theorem parts_afterCapture (s : State) (moved : Bool × Cursor) (field : Field) :
    (s.afterCapture moved field).parts = s.parts ++ [⟨field, moved.2.start⟩] :=
  List.reverse_cons

end State

theorem result_seek (d : Decoder) (s : State) :
    (d.seek s).result = .ok (s.afterOpening (Opening.find d.markers s.cursor)) := by
  unfold seek
  split <;> simp_all [State.afterOpening]

theorem result_readHeading (d : Decoder) (s : State) :
    (d.readHeading s).result =
      (s.heading.noteLines d.policy (HeaderBlock.read s.cursor).lines).result.map
        (s.afterHeaders (HeaderBlock.read s.cursor)) := by
  rw [readHeading, Logged.result_andThen]
  cases (s.heading.noteLines d.policy (HeaderBlock.read s.cursor).lines).result <;> rfl

/-- What a step can do. -/
inductive Moves (d : Decoder) (s : State) : State → Prop where
  | seeking (stage : s.stage = .seeking) :
      Moves d s (s.afterOpening (Opening.find d.markers s.cursor))
  | heading (stage : s.stage = .heading) {heading : Heading}
      (noted : (s.heading.noteLines d.policy (HeaderBlock.read s.cursor).lines).result = .ok heading) :
      Moves d s (s.afterHeaders (HeaderBlock.read s.cursor) heading)
  | capturing (stage : s.stage = .capturing) {field : Field}
      (checked : s.heading.field d.policy s.nextIndex
        (s.cursor.advanceToBoundary d.markers.delimiter).2.segment = .ok field) :
      Moves d s (s.afterCapture (s.cursor.advanceToBoundary d.markers.delimiter) field)
  | finished {closed : Bool} (stage : s.stage = .finished closed) : Moves d s s

theorem moves_of_step (h : (d.step s).result = .ok next) : d.Moves s next := by
  cases stage : s.stage with
  | seeking =>
    rw [step_of_seeking stage, result_seek] at h
    cases h
    exact .seeking stage
  | heading =>
    rw [step_of_heading stage, result_readHeading] at h
    cases noted : (s.heading.noteLines d.policy (HeaderBlock.read s.cursor).lines).result with
    | error e => rw [noted] at h; cases h
    | ok heading =>
      rw [noted] at h
      cases h
      exact .heading stage noted
  | capturing =>
    rw [step_of_capturing stage, result_capture] at h
    cases checked : s.heading.field d.policy s.nextIndex
        (s.cursor.advanceToBoundary d.markers.delimiter).2.segment with
    | error e => simp [checked, Except.map] at h
    | ok field =>
      simp only [checked, Except.map, Except.ok.injEq] at h
      rw [← h]
      exact .capturing stage checked
  | finished closed =>
    rw [step, stage] at h
    cases h
    exact .finished stage

/-- The run on a body passes through a state. -/
inductive Passes (d : Decoder) (body : Bytes) : State → Prop where
  | initial : Passes d body (.initial body)
  | step {s next : State} : Passes d body s → (d.step s).result = .ok next → Passes d body next

theorem Passes.run {final : State} (passed : d.Passes body s) (reached : (d.run s).result = .ok final) :
    d.Passes body final := by
  fun_induction d.run s with
  | case1 s finished =>
    cases reached
    exact passed
  | case2 => cases reached
  | case3 s running taken next stepped rest ih => exact ih (passed.step stepped) reached

theorem exists_passes_of_run {α : Type} {read : State → α} {a : α}
    (outcome : (d.run (.initial body)).result.map read = .ok a) :
    ∃ final, d.Passes body final ∧ read final = a := by
  cases reached : (d.run (.initial body)).result with
  | error e => rw [reached] at outcome; cases outcome
  | ok final =>
    rw [reached] at outcome
    exact ⟨final, .run .initial reached, Except.ok.inj outcome⟩

/-- What holds at the start and is kept by every step holds at every point of a run. -/
theorem Passes.invariant {holds : State → Prop} (start : holds (.initial body))
    (kept : ∀ s next, holds s → d.Moves s next → holds next) (passed : d.Passes body s) : holds s := by
  induction passed with
  | initial => exact start
  | step _ stepped ih => exact kept _ _ ih (moves_of_step stepped)

end FormBody.Decoder
