import FormBody.Proofs.Cursor.Moves

/-! The moves of a cursor as a machine makes them. It keeps two offsets, which are words, and looks
everything else up in the buffer. A sum that is no word and a slice that the buffer does not have give no
result. From the start of a buffer every move has one, and it is the cursor's. -/
namespace FormBody

namespace Word

def add? (largest a b : Nat) : Option Nat := if a + b ≤ largest then some (a + b) else none

def addUpTo (largest a b : Nat) : Nat := min (a + b) largest

theorem add?_of_le {largest a b : Nat} (fits : a + b ≤ largest) : add? largest a b = some (a + b) :=
  if_pos fits

theorem add?_eq_some {largest a b sum : Nat} (h : add? largest a b = some sum) : sum = a + b := by
  unfold add? at h
  split at h
  · exact (Option.some.inj h).symm
  · cases h

theorem min_addUpTo {largest a b n : Nat} (room : n ≤ largest) :
    min (addUpTo largest a b) n = min (a + b) n := by
  rw [addUpTo]
  omega

theorem addUpTo_le_iff {largest a b n : Nat} (room : n < largest) :
    addUpTo largest a b ≤ n ↔ a + b ≤ n := by
  rw [addUpTo]
  omega

end Word

namespace Bytes

theorem of_slice? {buffer text : Bytes} {start stop : Nat} (h : slice? buffer start stop = some text) :
    start ≤ stop ∧ stop ≤ buffer.length ∧ text = buffer.extract start stop := by
  unfold slice? at h
  split at h
  · next bounds => exact ⟨bounds.1, bounds.2, (Option.some.inj h).symm⟩
  · cases h

/-- Where a text occurs first, from an offset on. -/
def indexIn? (largest : Nat) (needle buffer : Bytes) (offset : Nat) : Option (Option Nat) :=
  (slice? buffer offset buffer.length).bind fun text =>
    match index? needle text with
    | some i => (Word.add? largest offset i).map some
    | none => some none

variable {largest offset : Nat} {needle buffer : Bytes}

theorem indexIn?_of_le (room : buffer.length ≤ largest) (inside : offset ≤ buffer.length) :
    indexIn? largest needle buffer offset =
      some ((index? needle (buffer.drop offset)).map (offset + ·)) := by
  rw [indexIn?, slice?_length inside, Option.bind_some]
  cases found : index? needle (buffer.drop offset) with
  | none => rfl
  | some i =>
    have fits := length_le_of_index? found
    rw [List.length_drop] at fits
    dsimp only
    rw [Word.add?_of_le (by omega)]
    rfl

theorem indexIn?_of_index? {text : Bytes} {result : Option Nat} (room : buffer.length ≤ largest)
    (sliced : slice? buffer offset buffer.length = some text) (found : index? needle text = result) :
    indexIn? largest needle buffer offset = some (result.map (offset + ·)) := by
  obtain ⟨inside, _⟩ := of_slice? sliced
  obtain rfl := Option.some.inj ((slice?_length inside).symm.trans sliced)
  rw [indexIn?_of_le room inside, found]

theorem bounds_of_indexIn? {found : Nat} (h : indexIn? largest needle buffer offset = some (some found)) :
    offset ≤ found ∧ found ≤ buffer.length := by
  obtain ⟨text, sliced, rest⟩ := Option.bind_eq_some_iff.mp h
  obtain ⟨inside, _, rfl⟩ := of_slice? sliced
  split at rest
  · next i hit =>
    have fits := length_le_of_index? hit
    rw [List.extract_eq_take_drop, List.length_take, List.length_drop] at fits
    obtain ⟨sum, added, same⟩ := Option.map_eq_some_iff.mp rest
    have := Word.add?_eq_some added
    have := Option.some.inj same
    omega
  · cases rest

end Bytes

/-- A cursor without the bytes that it marks. -/
structure Offsets where
  start : Nat
  stop : Nat
  begun : Bool
  deriving DecidableEq, Repr

namespace Offsets

open Bytes Word Cursor

variable (largest : Nat) (buffer : Bytes)

def skipBreak (o : Offsets) : Offsets :=
  let start := min (addUpTo largest o.stop crlf.length) buffer.length
  { o with start, stop := start }

def toBreak? (o : Offsets) : Option (Bool × Offsets) :=
  (indexIn? largest crlf buffer o.start).map fun
    | some stop => (true, { o with stop })
    | none => (false, { o with stop := buffer.length })

def nextLine? (o : Offsets) : Option (Bool × Offsets) :=
  if o.begun then (o.skipBreak largest buffer).toBreak? largest buffer
  else ({ o with start := 0, begun := true } : Offsets).toBreak? largest buffer

/-- A length that no buffer has leads to the largest word, which is behind the end of the buffer. -/
def nextFixed? (length : Nat) (o : Offsets) : Option (Bool × Offsets) :=
  if o.begun then
    let skipped := o.skipBreak largest buffer
    let stop := addUpTo largest skipped.start length
    some (stop ≤ buffer.length, { skipped with stop := min stop buffer.length })
  else o.nextLine? largest buffer

def search? (delimiter : Bytes) (o : Offsets) (offset : Nat) : Option (Bool × Offsets) :=
  match _ : indexIn? largest delimiter buffer offset with
  | none => none
  | some none => some (false, { o with stop := buffer.length })
  | some (some found) =>
    match breakBefore? buffer found with
    | none => none
    | some true =>
      let stop := found - crlf.length
      some (true, { o with start := min o.start stop, stop })
    | some false =>
      match _ : add? largest found 1 with
      | none => none
      | some next => search? delimiter o next
termination_by buffer.length + 1 - offset
decreasing_by
  have bounds := bounds_of_indexIn? ‹indexIn? _ _ _ _ = _›
  have sum := add?_eq_some ‹add? _ _ _ = _›
  omega

section

variable {largest buffer} {delimiter : Bytes} {o : Offsets} {offset found : Nat}

theorem search?_of_none (missing : indexIn? largest delimiter buffer offset = some none) :
    o.search? largest buffer delimiter offset = some (false, { o with stop := buffer.length }) := by
  rw [search?]
  split <;> simp_all

theorem search?_of_anchored (hit : indexIn? largest delimiter buffer offset = some (some found))
    (broken : breakBefore? buffer found = some true) :
    let stop := found - crlf.length
    o.search? largest buffer delimiter offset = some (true, { o with start := min o.start stop, stop }) := by
  rw [search?]
  split <;> simp_all

theorem search?_of_loose (hit : indexIn? largest delimiter buffer offset = some (some found))
    (unbroken : breakBefore? buffer found = some false) (word : found + 1 ≤ largest) :
    o.search? largest buffer delimiter offset = o.search? largest buffer delimiter (found + 1) := by
  conv_lhs => rw [search?]
  split
  · simp_all
  · simp_all
  · next other same =>
    obtain rfl := Option.some.inj (Option.some.inj (same.symm.trans hit))
    rw [unbroken]
    dsimp only
    split
    · next failed => rw [add?_of_le word] at failed; cases failed
    · next sum => rw [add?_eq_some sum]

end

def advanceToBoundary? (delimiter : Bytes) (o : Offsets) : Option (Bool × Offsets) :=
  let skipped := o.skipBreak largest buffer
  skipped.search? largest buffer delimiter skipped.start

def move? (o : Offsets) : Move → Option (Bool × Offsets)
  | .line => o.nextLine? largest buffer
  | .fixed length => o.nextFixed? largest buffer length
  | .boundary delimiter => o.advanceToBoundary? largest buffer delimiter

def run? (o : Offsets) : List Move → Option (List (Bool × Offsets))
  | [] => some []
  | m :: moves =>
    (o.move? largest buffer m).bind fun moved => (run? moved.2 moves).map (moved :: ·)

end Offsets

namespace Cursor

open Bytes Word

def offsets (c : Cursor) : Offsets := ⟨c.start, c.stop, c.begun⟩

def located (moved : Bool × Cursor) : Bool × Offsets := (moved.1, moved.2.offsets)

variable {largest : Nat} {buffer delimiter : Bytes} {c next : Cursor} {start stop : Nat}

theorem offsets_of_mark? (h : c.mark? start stop = some next) : next.offsets = ⟨start, stop, c.begun⟩ := by
  obtain ⟨segment, sliced, rfl⟩ := Option.map_eq_some_iff.mp h
  obtain ⟨forward, inside, rfl⟩ := of_slice? sliced
  have size : start + (c.buffer.extract start stop).length = stop := by
    rw [List.extract_eq_take_drop, List.length_take, List.length_drop]
    omega
  rw [offsets, Cursor.stop, size]

theorem Within.offsets_skipBreak (h : c.Within buffer) (room : buffer.length ≤ largest) :
    c.offsets.skipBreak largest buffer =
      ⟨c.skipBreak.stop, c.skipBreak.stop, c.begun⟩ := by
  have stop := h.stop_skipBreak
  rw [h.buffer] at stop
  rw [stop, ← min_addUpTo room]
  rfl

theorem Within.toBreak?_eq (h : c.Within buffer) (room : buffer.length ≤ largest) (start : Nat) :
    Offsets.toBreak? largest buffer ⟨c.stop, start, c.begun⟩ = some (located c.advanceToBreak) := by
  rw [Offsets.toBreak?, indexIn?_of_le room h.stop_le, Option.map_some, h.drop_stop, located,
    Cursor.advanceToBreak]
  cases found : index? crlf c.rest with
  | none =>
    have whole := h.advanceToEnd.stop_add_length
    rw [show c.advanceToEnd.rest = [] from rfl] at whole
    simp only [Option.map_none, offsets, ← whole]
    rfl
  | some i =>
    have fits := length_le_of_index? found
    have taken : (c.advance i).stop = c.stop + i := by
      change c.stop + (c.rest.take i).length = _
      rw [List.length_take]
      omega
    simp only [Option.map_some, offsets, taken]
    rfl

theorem Within.offsets_nextLine? (h : c.Within buffer) (room : buffer.length ≤ largest) :
    c.offsets.nextLine? largest buffer = some (located c.nextLine) := by
  rw [Offsets.nextLine?, Cursor.nextLine, h.offsets_skipBreak room]
  change (if c.begun then _ else _) = _
  split
  · exact (h.advance crlf.length).toBreak?_eq room _
  · exact h.rewind.toBreak?_eq room _

theorem Within.offsets_nextFixed? (h : c.Within buffer) (room : buffer.length < largest) (length : Nat) :
    c.offsets.nextFixed? largest buffer length = some (located (c.nextFixed length)) := by
  have weak := Nat.le_of_lt room
  rw [Offsets.nextFixed?, Cursor.nextFixed, h.offsets_skipBreak weak]
  change (if c.begun then _ else _) = _
  split
  · have total := (h.advance crlf.length).stop_add_length
    change c.skipBreak.stop + c.skipBreak.rest.length = buffer.length at total
    have size : (c.skipBreak.advance length).segment.length = min length c.skipBreak.rest.length :=
      List.length_take
    have stop : (c.skipBreak.advance length).stop = min (c.skipBreak.stop + length) buffer.length := by
      change c.skipBreak.stop + _ = _
      rw [size]
      omega
    have answer : (c.skipBreak.stop + length ≤ buffer.length) =
        ((c.skipBreak.advance length).segment.length = length) := by
      rw [size, eq_iff_iff]
      omega
    simp only [located, offsets, min_addUpTo weak, addUpTo_le_iff room, stop, answer]
    rfl
  · exact h.offsets_nextLine? weak

/-- The search by words goes the way of the search by offsets, as all its sums are words. -/
theorem Searches.search?_eq {moved : Bool × Cursor} {offset : Nat} (room : c.buffer.length < largest)
    (searches : c.Searches delimiter start offset moved) :
    Offsets.search? largest c.buffer delimiter ⟨start, start, c.begun⟩ offset = some (located moved) := by
  have weak := Nat.le_of_lt room
  induction searches with
  | missing sliced absent marked =>
    have found := indexIn?_of_index? weak sliced absent
    rw [Offsets.search?_of_none found, located, offsets_of_mark? marked]
  | anchored sliced present broken marked =>
    have found := indexIn?_of_index? weak sliced present
    rw [Offsets.search?_of_anchored found broken, located, offsets_of_mark? marked]
  | loose sliced present unbroken _ ih =>
    have found := indexIn?_of_index? weak sliced present
    have word := Nat.lt_of_le_of_lt (bounds_of_indexIn? found).2 room
    rw [Offsets.search?_of_loose found unbroken word, ih]

theorem Within.offsets_advanceToBoundary? (h : c.Within buffer) (room : buffer.length < largest)
    (nonempty : delimiter ≠ []) : c.offsets.advanceToBoundary? largest buffer delimiter =
      some (located (c.advanceToBoundary delimiter)) := by
  obtain rfl := h.buffer
  rw [Offsets.advanceToBoundary?, h.offsets_skipBreak (Nat.le_of_lt room), h.stop_skipBreak]
  exact (h.reachesBoundary nonempty).search?_eq room

/-- Inside of a body no move needs a sum that is no word or a slice that there is not. -/
theorem Within.offsets_move? (h : c.Within buffer) (room : buffer.length < largest) {m : Move}
    (proper : m.Proper) : c.offsets.move? largest buffer m = some (located (c.move m)) := by
  cases m with
  | line => exact h.offsets_nextLine? (Nat.le_of_lt room)
  | fixed length => exact h.offsets_nextFixed? room length
  | boundary delimiter => exact h.offsets_advanceToBoundary? room proper

def trace (c : Cursor) : List Move → List (Bool × Cursor)
  | [] => []
  | m :: moves => c.move m :: (c.move m).2.trace moves

theorem Within.offsets_run? (h : c.Within buffer) (room : buffer.length < largest) {moves : List Move}
    (proper : ∀ m ∈ moves, m.Proper) :
    c.offsets.run? largest buffer moves = some ((c.trace moves).map located) := by
  induction moves generalizing c with
  | nil => rfl
  | cons m moves ih =>
    rw [List.forall_mem_cons] at proper
    rw [Offsets.run?, h.offsets_move? room proper.1, Option.bind_some]
    change (Offsets.run? largest buffer (c.move m).2.offsets moves).map _ = _
    rw [ih (h.move m) proper.2]
    rfl

end Cursor
end FormBody
