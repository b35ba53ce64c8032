import FormBody.Proofs.Cursor.Offsets
import FormBody.Proofs.Run.Captures

/-! Every run ends, and looks at nothing outside of the body. The loops of the decoder are written once
more as relations on offsets, with nothing that makes them end: a slice out of range or a loop that goes on
for ever comes to nothing. On every body they come to the decoder's result, and to no other. -/
namespace FormBody

open Bytes

variable {body : Bytes}

namespace Opening

/-- Looks for the line that opens a part, by offsets. -/
inductive Finds (m : Markers) : Cursor → Opening → Prop where
  | closed {c : Cursor} {next : Bool × Cursor} : c.nextLine? = some next →
      m.terminator <+: next.2.segment → Finds m c (.closed next.2)
  | part {c : Cursor} {next : Bool × Cursor} : c.nextLine? = some next →
      ¬ m.terminator <+: next.2.segment → next.1 = true →
      m.delimiter <+: next.2.segment → Finds m c (.part next.2)
  | skipped {c : Cursor} {next : Bool × Cursor} {opening : Opening} : c.nextLine? = some next →
      ¬ m.terminator <+: next.2.segment → next.1 = true →
      ¬ m.delimiter <+: next.2.segment → Finds m next.2 opening → Finds m c opening
  | exhausted {c : Cursor} {next : Bool × Cursor} : c.nextLine? = some next →
      ¬ m.terminator <+: next.2.segment → next.1 = false → Finds m c (.exhausted next.2)

variable {m : Markers} {c : Cursor} {opening other : Opening}

theorem Finds.unique (first : Finds m c opening) (second : Finds m c other) : opening = other := by
  induction first with
  | closed moved closing => cases second <;> simp_all
  | part moved notClosing found opens => cases second <;> simp_all
  | skipped moved notClosing found notOpen _ ih => cases second <;> simp_all
  | exhausted moved notClosing missing => cases second <;> simp_all

theorem finds_find (within : c.Within body) : Finds m c (find m c) := by
  fun_induction find m c with
  | case1 c next closing => exact .closed within.nextLine?_eq (List.isPrefixOf_iff_prefix.mp closing)
  | case2 c next notClosing found opens =>
    rw [List.isPrefixOf_iff_prefix] at notClosing opens
    exact .part within.nextLine?_eq notClosing found opens
  | case3 c next notClosing found notOpen ih =>
    rw [List.isPrefixOf_iff_prefix] at notClosing notOpen
    exact .skipped within.nextLine?_eq notClosing found notOpen (ih within.nextLine)
  | case4 c next notClosing missing =>
    rw [List.isPrefixOf_iff_prefix] at notClosing
    exact .exhausted within.nextLine?_eq notClosing (Bool.eq_false_iff.mpr missing)

end Opening

namespace HeaderBlock

/-- Reads the header lines, by offsets. -/
inductive Reads : Cursor → HeaderBlock → Prop where
  | blank {c : Cursor} {next : Bool × Cursor} : c.nextLine? = some next → next.1 = true →
      next.2.segment.isEmpty = true → Reads c ⟨[], true, next.2⟩
  | line {c : Cursor} {next : Bool × Cursor} {block : HeaderBlock} : c.nextLine? = some next →
      next.1 = true → next.2.segment.isEmpty = false → Reads next.2 block →
      Reads c { block with lines := next.2.segment :: block.lines }
  | exhausted {c : Cursor} {next : Bool × Cursor} : c.nextLine? = some next → next.1 = false →
      Reads c ⟨[], false, next.2⟩

variable {c : Cursor} {block other : HeaderBlock}

theorem Reads.unique (first : Reads c block) (second : Reads c other) : block = other := by
  induction first generalizing other with
  | blank moved found empty => cases second <;> simp_all
  | line moved found filled _ ih =>
    cases second with
    | blank => simp_all
    | line moved' _ _ rest =>
      obtain rfl := Option.some.inj (moved.symm.trans moved')
      rw [ih rest]
    | exhausted => simp_all
  | exhausted moved missing => cases second <;> simp_all

theorem reads_read (within : c.Within body) : Reads c (read c) := by
  fun_induction read c with
  | case1 c next found line blank => exact .blank within.nextLine?_eq found blank
  | case2 c next found line filled block ih =>
    exact .line within.nextLine?_eq found (Bool.eq_false_iff.mpr filled) (ih within.nextLine)
  | case3 c next missing => exact .exhausted within.nextLine?_eq (Bool.eq_false_iff.mpr missing)

end HeaderBlock

namespace Decoder

variable {d : Decoder} {s : State} {outcome other : Except DecodeError State}

/-- What a step comes to, by offsets. -/
inductive Steps (d : Decoder) (s : State) : Except DecodeError State → Prop where
  | seeking {opening : Opening} : s.stage = .seeking → Opening.Finds d.markers s.cursor opening →
      Steps d s (.ok (s.afterOpening opening))
  | heading {block : HeaderBlock} : s.stage = .heading → HeaderBlock.Reads s.cursor block →
      Steps d s ((s.heading.noteLines d.policy block.lines).result.map (s.afterHeaders block))
  | capturing {moved : Bool × Cursor} : s.stage = .capturing →
      s.cursor.ReachesBoundary d.markers.delimiter moved →
      Steps d s ((s.heading.field d.policy s.nextIndex moved.2.segment).map (s.afterCapture moved))

theorem Steps.unique (first : d.Steps s outcome) (second : d.Steps s other) : outcome = other := by
  cases first with
  | seeking stage finds =>
    cases second with
    | seeking _ again => rw [finds.unique again]
    | heading stage' => cases stage.symm.trans stage'
    | capturing stage' => cases stage.symm.trans stage'
  | heading stage reads =>
    cases second with
    | heading _ again => rw [reads.unique again]
    | seeking stage' => cases stage.symm.trans stage'
    | capturing stage' => cases stage.symm.trans stage'
  | capturing stage reaches =>
    cases second with
    | capturing _ again => rw [reaches.unique again]
    | seeking stage' => cases stage.symm.trans stage'
    | heading stage' => cases stage.symm.trans stage'

theorem Passes.steps (passed : d.Passes body s) (running : ¬ s.stage.isFinished) :
    d.Steps s (d.step s).result := by
  have within := passed.sound.within
  have proper : d.markers.Proper := Markers.proper_ofBoundary d.boundary
  cases stage : s.stage with
  | seeking =>
    rw [step_of_seeking stage, result_seek]
    exact .seeking stage (Opening.finds_find within)
  | heading =>
    rw [step_of_heading stage, result_readHeading]
    exact .heading stage (HeaderBlock.reads_read within)
  | capturing =>
    rw [step_of_capturing stage, result_capture]
    exact .capturing stage (within.reachesBoundary proper.delimiter_ne_nil)
  | finished closed =>
    rw [stage] at running
    exact absurd rfl running

/-- A number of steps leads from a state to the end of the run, or to an error. -/
inductive EndsIn (d : Decoder) : Nat → State → Except DecodeError State → Prop where
  | finished {s : State} : s.stage.isFinished → EndsIn d 0 s (.ok s)
  | rejected {s : State} {e : DecodeError} : ¬ s.stage.isFinished → d.Steps s (.error e) →
      EndsIn d 1 s (.error e)
  | further {n : Nat} {s next : State} {outcome : Except DecodeError State} :
      ¬ s.stage.isFinished → d.Steps s (.ok next) → EndsIn d n next outcome → EndsIn d (n + 1) s outcome

theorem EndsIn.unique {n k : Nat} (first : d.EndsIn n s outcome) (second : d.EndsIn k s other) :
    n = k ∧ outcome = other := by
  induction first generalizing k with
  | finished ended =>
    cases second with
    | finished => exact ⟨rfl, rfl⟩
    | rejected running => exact absurd ended running
    | further running => exact absurd ended running
  | rejected running stopped =>
    cases second with
    | finished ended => exact absurd ended running
    | rejected _ again => exact ⟨rfl, stopped.unique again⟩
    | further _ stepped => cases stopped.unique stepped
  | further running stepped _ ih =>
    cases second with
    | finished ended => exact absurd ended running
    | rejected _ stopped => cases stepped.unique stopped
    | further _ again rest =>
      cases stepped.unique again
      obtain ⟨rfl, same⟩ := ih rest
      exact ⟨rfl, same⟩

theorem workLeft_pos (running : ¬ s.stage.isFinished) : 0 < s.workLeft := by
  rw [State.workLeft]
  cases stage : s.stage with
  | finished closed => simp [stage, Stage.isFinished] at running
  | seeking => exact Nat.succ_pos _
  | heading => exact Nat.succ_pos _
  | capturing => exact Nat.succ_pos _

theorem Passes.exists_endsIn (passed : d.Passes body s) :
    ∃ n ≤ s.workLeft, d.EndsIn n s (d.run s).result := by
  fun_induction d.run s with
  | case1 s finished => exact ⟨0, Nat.zero_le _, .finished finished⟩
  | case2 s running taken e stopped =>
    have steps := passed.steps running
    rw [stopped] at steps
    exact ⟨1, workLeft_pos running, .rejected running steps⟩
  | case3 s running taken next stepped rest ih =>
    have steps := passed.steps running
    rw [stepped] at steps
    obtain ⟨n, few, ends⟩ := ih (passed.step stepped)
    have closer := workLeft_lt_of_step running stepped
    exact ⟨n + 1, by omega, .further running steps ends⟩

/-- A part needs room for its delimiter and two line breaks, of which the last one may be missing. -/
theorem Passes.length_parts_le (passed : d.Passes body s) :
    s.parts.length * (d.markers.delimiter.length + 4) ≤ body.length + 2 := by
  have sound := passed.sound
  have resumed : s.resumeAt ≤ body.length + 2 := by
    unfold State.resumeAt
    cases captures : s.captures with
    | nil => exact Nat.zero_le _
    | cons latest earlier =>
      have mem : latest ∈ s.captures := captures ▸ List.mem_cons_self
      exact Nat.add_le_add_right (sound.sliced latest mem).stop_le 2
  rw [State.parts, List.length_reverse]
  exact Nat.le_trans sound.room resumed

/-- Whatever the boundary, the policy and the body are, a run ends after a number of steps that the
length of the body bounds, with or without an error, and in one way only. All loops on the way end,
everything that they look at lies inside of the body, and so does the cursor at every point of the run. The
number of parts that a run captures is bounded as well. -/
theorem run_ends (d : Decoder) (body : Bytes) :
    (∃ n ≤ 4 * body.length + 5, d.EndsIn n (.initial body) (d.run (.initial body)).result ∧
      ∀ k outcome, d.EndsIn k (.initial body) outcome →
        k = n ∧ outcome = (d.run (.initial body)).result) ∧
    ∀ s, d.Passes body s →
      s.cursor.start ≤ s.cursor.stop ∧ s.cursor.stop ≤ body.length ∧
      s.cursor.segment = body.extract s.cursor.start s.cursor.stop ∧
      s.parts.length * (d.markers.delimiter.length + 4) ≤ body.length + 2 := by
  refine ⟨?_, fun s passed => ?_⟩
  · obtain ⟨n, few, ends⟩ := (Passes.initial : d.Passes body _).exists_endsIn
    exact ⟨n, few, ends, fun k outcome other => other.unique ends⟩
  · have within := passed.sound.within
    exact ⟨Nat.le_add_right _ _, within.stop_le, within.segment_eq, passed.length_parts_le⟩

/-- Three parts that leave no room for more bytes between them. -/
def tightParts : Bytes := Text.Utf8.encode "--X\r\n\r\n--X\r\n\r\n--X\r\n".toList

theorem run_ends_tightParts :
    ∃ s, (Decoder.mk "X" .lenient).Passes tightParts s ∧ s.parts.length = 3 ∧
      3 * ((Markers.ofBoundary "X").delimiter.length + 4) ≤ tightParts.length + 2 ∧
      tightParts.length + 2 = 3 * ((Markers.ofBoundary "X").delimiter.length + 4) := by
  have outcome : ((Decoder.mk "X" .lenient).run (.initial tightParts)).result.map
      (fun s => s.parts.length) = .ok 3 := by decide +kernel
  obtain ⟨final, passed, three⟩ := exists_passes_of_run outcome
  have bound := ((run_ends ⟨"X", .lenient⟩ tightParts).2 final passed).2.2.2
  rw [three] at bound
  exact ⟨final, passed, three, bound, by decide⟩

end Decoder
end FormBody
