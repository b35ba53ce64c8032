import FormBody.Proofs.Cursor.Position
import FormBody.Proofs.Run.Basic

/-! What a run captures. Contents are slices of the body in its order, no content can be made longer
without a delimiter at the start of a line, and every part uses up at least its delimiter and two line
breaks. -/
namespace FormBody

open Bytes

variable {m : Markers} {body : Bytes}

namespace Cursor

variable {c : Cursor}

/-- The cursor has passed the header lines of a part: it is at the end of the body, or on the empty line
behind them, and a line break stands on either side of that. -/
structure Headed (body : Bytes) (c : Cursor) : Prop where
  begun : c.begun = true
  place : c.rest = [] ∨
    ∃ p, c.stop = p + crlf.length ∧ body.drop p = crlf ++ c.rest ∧ crlf <+: c.rest

end Cursor

namespace Opening

open Cursor

variable {c opened : Cursor}

theorem within_find (within : c.Within body) : (find m c).cursor.Within body := by
  fun_induction find m c with
  | case1 => exact within.nextLine
  | case2 => exact within.nextLine
  | case3 c next _ _ _ ih => exact ih within.nextLine
  | case4 => exact within.nextLine

theorem of_find_eq_part (within : c.Within body) (h : find m c = .part opened) :
    opened.AtBreak ∧ c.lineStart + m.delimiter.length ≤ opened.stop := by
  fun_induction find m c with
  | case1 => cases h
  | case2 c next _ found opening =>
    cases h
    have inside := (List.isPrefixOf_iff_prefix.mp opening).length_le
    refine ⟨atBreak_nextLine found, ?_⟩
    rw [stop, within.start_nextLine]
    exact Nat.add_le_add_left inside _
  | case3 c next _ found _ ih =>
    obtain ⟨atBreak, room⟩ := ih within.nextLine h
    have further := within.lineStart_le found
    exact ⟨atBreak, Nat.le_trans (Nat.add_le_add_right further _) room⟩
  | case4 => cases h

end Opening

namespace HeaderBlock

open Cursor

theorem headed_read {c : Cursor} (within : c.Within body) (atBreak : c.AtBreak) :
    (read c).cursor.Within body ∧ (read c).cursor.Headed body ∧
      c.stop + crlf.length ≤ (read c).cursor.stop := by
  fun_induction read c with
  | case1 c next found line blank =>
    have empty : next.2.segment = [] := List.isEmpty_iff.mp blank
    have stop : next.2.stop = c.stop + crlf.length := by
      rw [within.stop_nextLine, atBreak.lineStart within, empty, List.length_nil, Nat.add_zero]
    have broken := atBreak_nextLine found
    refine ⟨within.nextLine, ⟨broken.begun, .inr ⟨c.stop, stop, ?_, broken.broken⟩⟩,
      Nat.le_of_eq stop.symm⟩
    obtain ⟨behind, split⟩ := atBreak.broken
    rw [← within.nextLine.drop_stop, stop, ← List.drop_drop, within.drop_stop, ← split,
      List.drop_left]
  | case2 c next found line filled block ih =>
    obtain ⟨inside, headed, room⟩ := ih within.nextLine (atBreak_nextLine found)
    refine ⟨inside, headed, Nat.le_trans ?_ room⟩
    rw [within.stop_nextLine, atBreak.lineStart within]
    omega
  | case3 c next missing =>
    have ended := (nextLine_of_cutLine_none (cutLine_of_nextLine missing)).2.2
    refine ⟨within.nextLine, ⟨nextLine_begun c, .inl ended⟩, ?_⟩
    have total := within.nextLine.stop_add_length
    have before := within.stop_add_length
    have room := atBreak.broken.length_le
    rw [ended, List.length_nil] at total
    change _ ≤ c.nextLine.2.stop
    omega

end HeaderBlock

def Markers.anchored (m : Markers) : Bytes := crlf ++ m.delimiter

theorem Capture.stop_of_segment {field : Field} {c : Cursor} (content : field.content = c.segment) :
    Capture.stop ⟨field, c.start⟩ = c.stop := by
  rw [Capture.stop, content, Cursor.stop]

/-- A capture is a slice of the body that reaches from its start up to the next delimiter at the start of
a line, or to the end. -/
structure Capture.Sliced (m : Markers) (body : Bytes) (c : Capture) : Prop where
  content : c.field.content = body.extract c.start c.stop
  stop_le : c.stop ≤ body.length
  ended : m.anchored <+: body.drop c.stop ∨ c.stop = body.length
  apart : ∀ j, c.start ≤ j + crlf.length → j < c.stop → ¬ m.anchored <+: body.drop j

namespace Cursor

variable {c : Cursor}

/-- Directly in front of the place where the headers end no delimiter starts a line. -/
theorem Headed.apart (headed : c.Headed body) (within : c.Within body) (proper : m.Proper) {j : Nat}
    (near : c.stop ≤ j + crlf.length) (before : j < c.stop) : ¬ m.anchored <+: body.drop j := by
  intro here
  obtain ⟨token, dashes⟩ := proper.delimiter
  rcases headed.place with ended | ⟨p, stop, front, behind, split⟩
  · have total := within.stop_add_length
    have size := here.length_le
    rw [ended, List.length_nil] at total
    simp only [Markers.anchored, ← dashes, List.length_append, List.length_drop, length_crlf,
      Bytes.dashes, List.length_cons] at size near
    omega
  · -- The break behind the blank line stands where the delimiter would have to begin.
    rw [length_crlf] at near stop
    have place : j = p ∨ j = p + 1 := by omega
    rcases place with rfl | rfl
    · rw [front, Markers.anchored, List.prefix_append_right_inj, ← split, ← dashes] at here
      exact absurd (List.cons_prefix_cons.mp here).1 (by decide)
    · rw [← List.drop_drop, front] at here
      exact absurd (List.cons_prefix_cons.mp here).1 (by decide)

theorem Headed.sliced (headed : c.Headed body) (within : c.Within body) (proper : m.Proper)
    {field : Field} (content : field.content = (c.advanceToBoundary m.delimiter).2.segment) :
    Capture.Sliced m body ⟨field, (c.advanceToBoundary m.delimiter).2.start⟩ := by
  have inside := within.advanceToBoundary m.delimiter
  have front := le_start_advanceToBoundary within m.delimiter
  have stop := Capture.stop_of_segment content
  refine ⟨?_, stop ▸ inside.stop_le, ?_, ?_⟩
  · rw [stop, content, inside.segment_eq]
  · rw [stop]
    cases found : index? m.anchored c.rest with
    | none => exact .inr (advanceToBoundary_of_index?_none within found).2.2
    | some i =>
      rw [inside.drop_stop, (advanceToBoundary_of_index? within found).2.2.2]
      exact .inl (prefix_of_index? found)
  · intro j near before here
    rw [stop] at before
    by_cases early : j < c.stop
    · exact headed.apart within proper (Nat.le_trans front near) early here
    · rw [within.drop_of_le (Nat.not_lt.mp early)] at here
      cases found : index? m.anchored c.rest with
      | none =>
        exact index?_eq_none_iff.mp found (here.isInfix.trans (List.drop_suffix _ _).isInfix)
      | some i =>
        rw [(advanceToBoundary_of_index? within found).2.2.1] at before
        exact (index?_eq_some_iff.mp found).2 _ (by omega) here

end Cursor

namespace Decoder

open Cursor

variable {d : Decoder} {s next : State}

namespace State

/-- Where the line that opens the next part can start. -/
def resumeAt (s : State) : Nat :=
  match s.captures with
  | [] => 0
  | latest :: _ => latest.stop + crlf.length

/-- Where the cursor is at each stage. -/
def Stands (m : Markers) (body : Bytes) (s : State) : Prop :=
  match s.stage with
  | .seeking => s.cursor.lineStart = s.resumeAt
  | .heading => s.cursor.AtBreak ∧ s.resumeAt + m.delimiter.length ≤ s.cursor.stop
  | .capturing =>
    s.cursor.Headed body ∧ s.resumeAt + m.delimiter.length + crlf.length ≤ s.cursor.stop
  | .finished _ => True

/-- What holds of the captures at every point of a run. Only the latest of a finished run can lack the
delimiter behind it, and a part uses up at least its delimiter and two line breaks. -/
structure Sound (m : Markers) (body : Bytes) (s : State) : Prop where
  within : s.cursor.Within body
  stands : s.Stands m body
  sliced : ∀ c ∈ s.captures, c.Sliced m body
  ordered : s.captures.Pairwise fun later earlier => earlier.stop < later.start
  ended : ∀ c ∈ s.captures.tail, m.anchored <+: body.drop c.stop
  latest : s.stage.isFinished = false → ∀ c ∈ s.captures.head?, m.anchored <+: body.drop c.stop
  room : s.captures.length * (m.delimiter.length + 2 * crlf.length) ≤ s.resumeAt

theorem sound_initial (m : Markers) (body : Bytes) : (State.initial body).Sound m body where
  within := within_ofBytes body
  stands := rfl
  sliced := List.forall_mem_nil _
  ordered := .nil
  ended := List.forall_mem_nil _
  latest := fun _ => nofun
  room := Nat.zero_mul _ ▸ Nat.le_refl 0

namespace Sound

variable (sound : s.Sound m body)

include sound

theorem stop_le_resumeAt {c : Capture} (mem : c ∈ s.captures) : c.stop + crlf.length ≤ s.resumeAt := by
  have ordered := sound.ordered
  unfold resumeAt
  cases captures : s.captures with
  | nil => rw [captures] at mem; cases mem
  | cons latest earlier =>
    rw [captures] at mem ordered
    rcases List.mem_cons.mp mem with rfl | older
    · exact Nat.le_refl _
    · have before := (List.pairwise_cons.mp ordered).1 c older
      have : latest.start ≤ latest.stop := Nat.le_add_right _ _
      dsimp only
      omega

theorem all_ended (running : s.stage.isFinished = false) :
    ∀ c ∈ s.captures, m.anchored <+: body.drop c.stop := by
  intro c mem
  have latest := sound.latest running
  have ended := sound.ended
  cases captures : s.captures with
  | nil => rw [captures] at mem; cases mem
  | cons first earlier =>
    rw [captures] at mem latest ended
    rcases List.mem_cons.mp mem with rfl | older
    · exact latest c rfl
    · exact ended c older

theorem keep {next : State} (running : s.stage.isFinished = false)
    (same : next.captures = s.captures) (within : next.cursor.Within body)
    (stands : next.Stands m body) : next.Sound m body where
  within := within
  stands := stands
  sliced := same ▸ sound.sliced
  ordered := same ▸ sound.ordered
  ended := same ▸ sound.ended
  latest := fun _ => same ▸ sound.latest running
  room := by
    have resumed : next.resumeAt = s.resumeAt := by rw [resumeAt, same, resumeAt]
    rw [same, resumed]
    exact sound.room

theorem afterOpening (stage : s.stage = .seeking) :
    (s.afterOpening (Opening.find m s.cursor)).Sound m body := by
  have running : s.stage.isFinished = false := by rw [stage]; rfl
  have start : s.cursor.lineStart = s.resumeAt := by
    have stands := sound.stands
    rwa [Stands, stage] at stands
  have within := Opening.within_find (m := m) sound.within
  cases found : Opening.find m s.cursor with
  | closed cursor =>
    rw [found] at within
    exact sound.keep running rfl within trivial
  | exhausted cursor =>
    rw [found] at within
    exact sound.keep running rfl within trivial
  | part cursor =>
    rw [found] at within
    obtain ⟨atBreak, room⟩ := Opening.of_find_eq_part sound.within found
    rw [start] at room
    exact sound.keep running rfl within ⟨atBreak, room⟩

theorem afterHeaders (stage : s.stage = .heading) (heading : Heading) :
    (s.afterHeaders (HeaderBlock.read s.cursor) heading).Sound m body := by
  have running : s.stage.isFinished = false := by rw [stage]; rfl
  obtain ⟨atBreak, before⟩ : s.cursor.AtBreak ∧ s.resumeAt + m.delimiter.length ≤ s.cursor.stop := by
    have stands := sound.stands
    rwa [Stands, stage] at stands
  obtain ⟨within, headed, room⟩ := HeaderBlock.headed_read sound.within atBreak
  exact sound.keep running rfl within ⟨headed, Nat.le_trans (Nat.add_le_add_right before _) room⟩

theorem afterCapture (proper : m.Proper) (stage : s.stage = .capturing) {field : Field}
    (content : field.content = (s.cursor.advanceToBoundary m.delimiter).2.segment) :
    (s.afterCapture (s.cursor.advanceToBoundary m.delimiter) field).Sound m body := by
  have running : s.stage.isFinished = false := by rw [stage]; rfl
  obtain ⟨headed, before⟩ : s.cursor.Headed body ∧
      s.resumeAt + m.delimiter.length + crlf.length ≤ s.cursor.stop := by
    have stands := sound.stands
    rwa [Stands, stage] at stands
  have within := sound.within.advanceToBoundary m.delimiter
  have sliced := headed.sliced sound.within proper content
  have front := le_start_advanceToBoundary sound.within m.delimiter
  have stop := Capture.stop_of_segment content
  refine ⟨within, ?_, ?_, ?_, sound.all_ended running, ?_, ?_⟩
  · cases more : (s.cursor.advanceToBoundary m.delimiter).1 with
    | false => simp [Stands, State.afterCapture, more]
    | true =>
      have begun := (advanceToBoundary_begun m.delimiter s.cursor).trans headed.begun
      have broken := (List.prefix_append crlf m.delimiter).trans
        (prefix_of_advanceToBoundary sound.within more)
      simp only [Stands, State.afterCapture, more, if_true, resumeAt, stop]
      exact AtBreak.lineStart ⟨begun, broken⟩ within
  · exact List.forall_mem_cons.mpr ⟨sliced, sound.sliced⟩
  · refine List.pairwise_cons.mpr ⟨fun c mem => ?_, sound.ordered⟩
    have earlier := sound.stop_le_resumeAt mem
    dsimp only
    rw [length_crlf] at earlier before
    omega
  · intro unfinished c mem
    obtain rfl := Option.some.inj mem
    cases more : (s.cursor.advanceToBoundary m.delimiter).1 with
    | false => simp [State.afterCapture, more, Stage.isFinished] at unfinished
    | true =>
      rw [stop, within.drop_stop]
      exact prefix_of_advanceToBoundary sound.within more
  · -- The line that opens the part takes the delimiter and a line break, its end another line break.
    have room := sound.room
    change (s.captures.length + 1) * _ ≤ Capture.stop _ + crlf.length
    have moved : (s.cursor.advanceToBoundary m.delimiter).2.start ≤
        (s.cursor.advanceToBoundary m.delimiter).2.stop := Nat.le_add_right _ _
    rw [stop, Nat.succ_mul]
    omega

end Sound
end State

theorem Passes.sound (passed : d.Passes body s) : s.Sound d.markers body := by
  have proper : d.markers.Proper := Markers.proper_ofBoundary d.boundary
  refine passed.invariant (State.sound_initial d.markers body) ?_
  intro s next sound moved
  cases moved with
  | seeking stage => exact sound.afterOpening stage
  | heading stage noted => exact sound.afterHeaders stage _
  | capturing stage checked =>
    exact sound.afterCapture proper stage (by rw [Heading.eq_of_field checked])
  | finished stage => exact sound

/-- At every point of a run the captured contents are slices of the body, in its order and apart from each
other. Behind each of them stands the line break with the delimiter, only behind the last one it can be
the end of the body instead, and nowhere inside of a content, or of the line break in front of it, does
a line start with the delimiter. -/
theorem captures_are_slices (passed : d.Passes body s) :
    let anchored := crlf ++ d.markers.delimiter
    (∀ c ∈ s.parts, c.start ≤ c.stop ∧ c.stop ≤ body.length ∧
      c.field.content = body.extract c.start c.stop ∧
      (anchored <+: body.drop c.stop ∨ c.stop = body.length) ∧
      ∀ j, c.start ≤ j + 2 → j < c.stop → ¬ anchored <+: body.drop j) ∧
    (∀ c ∈ s.parts.dropLast, anchored <+: body.drop c.stop) ∧
    s.parts.Pairwise fun a b => a.stop < b.start := by
  have sound := passed.sound
  refine ⟨fun c mem => ?_, fun c mem => ?_, List.pairwise_reverse.mpr sound.ordered⟩
  · have sliced := sound.sliced c (List.mem_reverse.mp mem)
    exact ⟨Nat.le_add_right _ _, sliced.stop_le, sliced.content, sliced.ended, sliced.apart⟩
  · rw [State.parts, List.dropLast_reverse, List.mem_reverse] at mem
    exact sound.ended c mem

/-- An empty content directly in front of its delimiter, one that is replaced, and one that the end of
the body cuts off. -/
def threeParts : Bytes :=
  Text.Utf8.encode "--X\r\n\r\n\r\n--X\r\n\r\n1--X\r\n2\r\n--X\r\n\r\n3\r\n".toList

theorem captures_are_slices_threeParts :
    ∃ s, (Decoder.mk "X" .lenient).Passes threeParts s ∧
      s.parts.map (fun c => (c.start, c.stop)) = [(7, 7), (16, 23), (32, 35)] ∧
      s.parts.Pairwise (fun a b => a.stop < b.start) ∧
      ∀ c ∈ s.parts, c.field.content = threeParts.extract c.start c.stop := by
  have outcome : ((Decoder.mk "X" .lenient).run (.initial threeParts)).result.map
      (fun s => s.parts.map fun c => (c.start, c.stop)) = .ok [(7, 7), (16, 23), (32, 35)] := by decide +kernel
  obtain ⟨final, passed, captured⟩ := exists_passes_of_run outcome
  obtain ⟨slices, _, ordered⟩ := captures_are_slices passed
  exact ⟨final, passed, captured, ordered, fun c mem => (slices c mem).2.2.1⟩

end Decoder
end FormBody
