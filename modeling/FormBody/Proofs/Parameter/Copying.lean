import FormBody.Proofs.Parameter.Quoted
import FormBody.Proofs.Text.Positions

/-! Quoted values that are copied only if they must be. As long as no backslash has been met the reader keeps
the offset at which it stands and nothing else, and a value that ends there is a stretch of the input. The
first backslash makes it copy what is in front, and from then on it adds to the copy. Whichever way a value is
handed out, it is the text that the characters in front of the first free quote stand for. -/
namespace FormBody.Parameter.Quoted

open Text

/-- The stretch of the input that a value is read from, the value, and what follows. The stretch ends in
front of the first free quote; without one it is all of the input, of which a backslash at the very end
stands for nothing. -/
inductive Delimits : List Char → List Char → List Char → List Char → Prop where
  | closed {stretch value : List Char} (rest : List Char) :
      Resolves stretch value → Delimits (stretch ++ '"' :: rest) stretch value rest
  | unclosed {input value : List Char} : Resolves input value → Delimits input input value []
  | dangling {front value : List Char} :
      Resolves front value → Delimits (front ++ ['\\']) (front ++ ['\\']) value []

variable {input front value rest : List Char}

theorem Delimits.unescape_eq {stretch : List Char} (delimits : Delimits input stretch value rest) :
    unescape input = (value, rest) := by
  cases delimits with
  | closed _ resolves => rw [resolves.unescape_append, unescape, List.append_nil]
  | unclosed resolves =>
    have whole := resolves.unescape_append []
    rwa [List.append_nil, unescape, List.append_nil] at whole
  | dangling resolves => rw [resolves.unescape_append, unescape, List.append_nil]

theorem Delimits.eq_self {stretch : List Char} (delimits : Delimits input stretch value rest)
    (free : '\\' ∉ stretch) : stretch = value := by
  cases delimits with
  | closed _ resolves | unclosed resolves => exact resolves.eq_self free
  | dangling => exact absurd (List.mem_append_right _ List.mem_cons_self) free

/-- A value as it is handed out. -/
inductive Held where
  | slice (text : List Char)
  | copy (text : List Char)
  deriving DecidableEq, Repr

def Held.text : Held → List Char
  | .slice text | .copy text => text

/-- What the reader keeps between two turns: the offset of the next character, the copy if one has been
begun, and the characters ahead. -/
structure Reading where
  offset : Nat
  copied : Option (List Char)
  ahead : List Char
  deriving DecidableEq, Repr

namespace Reading

/-- A turn leads to the next one, or it ends the value in front of a rest. -/
inductive Turn where
  | goes (next : Reading)
  | ends (held : Held) (rest : List Char)

def start (input : List Char) : Reading := ⟨0, none, input⟩

def held (r : Reading) (stretch : List Char) : Held :=
  match r.copied with
  | some copy => .copy copy
  | none => .slice stretch

def held? (r : Reading) (input : List Char) : Option Held :=
  match r.copied with
  | some copy => some (.copy copy)
  | none => (cutAt? input r.offset).map fun cut => .slice cut.1

/-- The copy to go on with. A first one is made of what is in front. -/
def copy? (r : Reading) (input : List Char) : Option (List Char) :=
  match r.copied with
  | some copy => some copy
  | none => (cutAt? input r.offset).map (·.1)

/-- One turn of the reader, which comes to nothing if it would cut the input inside of a character. -/
def turn? (input : List Char) (r : Reading) : Option Turn :=
  match r.ahead with
  | [] => some (.ends (r.held input) [])
  | '"' :: _ => (r.held? input).bind fun held =>
      (cutAt? input (r.offset + 1)).map fun cut => .ends held cut.2
  | ['\\'] => (r.copy? input).map fun copy => .goes ⟨r.offset + 1, some copy, []⟩
  | '\\' :: c :: rest => (r.copy? input).map fun copy =>
      .goes ⟨r.offset + 1 + byteLength [c], some (copy ++ [c]), rest⟩
  | c :: rest => some (.goes ⟨r.offset + byteLength [c], r.copied.map (· ++ [c]), rest⟩)

theorem length_ahead_of_turn? {r next : Reading} (h : r.turn? input = some (.goes next)) :
    next.ahead.length < r.ahead.length := by
  unfold turn? at h
  split at h
  · cases h
  · obtain ⟨held, _, inner⟩ := Option.bind_eq_some_iff.mp h
    obtain ⟨cut, _, same⟩ := Option.map_eq_some_iff.mp inner
    cases same
  · next last =>
    obtain ⟨copy, _, same⟩ := Option.map_eq_some_iff.mp h
    cases same
    rw [last]
    exact Nat.zero_lt_one
  · next c rest taken =>
    obtain ⟨copy, _, same⟩ := Option.map_eq_some_iff.mp h
    cases same
    rw [taken]
    exact Nat.lt_succ_of_lt (Nat.lt_succ_self _)
  · next c rest _ _ _ plain =>
    cases h
    rw [plain]
    exact Nat.lt_succ_self _

/-- The reader takes turns until one ends the value. -/
def run? (input : List Char) (r : Reading) : Option (Held × List Char) :=
  match _ : r.turn? input with
  | none => none
  | some (.ends held rest) => some (held, rest)
  | some (.goes next) => next.run? input
termination_by r.ahead.length
decreasing_by exact length_ahead_of_turn? ‹_›

/-- Turns lead from the start of the input to this point. -/
inductive Reached (input : List Char) : Reading → Prop where
  | start : Reached input (.start input)
  | turned {r next : Reading} : Reached input r → r.turn? input = some (.goes next) → Reached input next

/-- What the reader has to show for the characters in front. A backslash at the very end is taken without
a character behind it. -/
structure Sound (input front : List Char) (r : Reading) : Prop where
  split : front ++ r.ahead = input
  offset : r.offset = byteLength front
  copied : r.copied = none ↔ '\\' ∉ front
  value : Resolves front (r.copied.getD front) ∨
    r.ahead = [] ∧ Delimits front front (r.copied.getD front) []

/-- A turn leads to another sound point, or it ends the value there and hands it out as a copy if a
backslash has been met. -/
def Turn.Sound (input : List Char) : Turn → Prop
  | .goes next => ∃ front, next.Sound input front
  | .ends held rest => ∃ stretch value, Delimits input stretch value rest ∧
      held = if '\\' ∈ stretch then .copy value else .slice stretch

namespace Sound

variable {r : Reading} (h : r.Sound input front)

theorem start (input : List Char) : (Reading.start input).Sound input [] :=
  ⟨rfl, rfl, by simp [Reading.start], .inl .nil⟩

include h

theorem cut : cutAt? input r.offset = some (front, r.ahead) := by
  rw [← h.split, h.offset, cutAt?_append]

theorem copy? : r.copy? input = some (r.copied.getD front) := by
  rw [Reading.copy?, h.cut]
  split <;> simp [*]

theorem held? : r.held? input = some (r.held front) := by
  rw [Reading.held?, Reading.held, h.cut]
  split <;> simp [*]

theorem held : r.held front = if '\\' ∈ front then .copy (r.copied.getD front) else .slice front := by
  rw [Reading.held]
  split
  · next copy begun =>
    have met : '\\' ∈ front := by
      refine Classical.byContradiction fun free => ?_
      rw [h.copied.mpr free] at begun
      cases begun
    rw [if_pos met, begun, Option.getD_some]
  · next none => rw [if_neg (h.copied.mp none)]

theorem resolves {c : Char} (more : r.ahead = c :: rest) : Resolves front (r.copied.getD front) := by
  refine h.value.resolve_right fun ⟨nothing, _⟩ => ?_
  rw [more] at nothing
  cases nothing

/-- A character that stands for itself is added to a copy, and without one it is left where it is. -/
theorem pass {c : Char} (plain : r.ahead = c :: rest) (noQuote : c ≠ '"') (noBackslash : c ≠ '\\') :
    Sound input (front ++ [c]) ⟨r.offset + byteLength [c], r.copied.map (· ++ [c]), rest⟩ := by
  refine ⟨?_, ?_, ?_, .inl ?_⟩
  · rw [List.append_assoc, ← h.split, plain]
    rfl
  · rw [byteLength_append, h.offset]
  · simp [h.copied, noBackslash.symm]
  · have resolves := (h.resolves plain).append (.plain noQuote noBackslash .nil)
    cases begun : r.copied with
    | none => rwa [begun] at resolves
    | some copy => rwa [begun] at resolves

/-- A backslash leaves a copy with the character behind it at its end. -/
theorem take {c : Char} (taken : r.ahead = '\\' :: c :: rest) : Sound input (front ++ ['\\', c])
    ⟨r.offset + 1 + byteLength [c], some (r.copied.getD front ++ [c]), rest⟩ := by
  refine ⟨?_, ?_, by simp, .inl ((h.resolves taken).append (.taken c .nil))⟩
  · rw [List.append_assoc, ← h.split, taken]
    rfl
  · rw [byteLength_append, byteLength_cons '\\' [c], h.offset, Nat.add_assoc]
    rfl

theorem takeNothing (last : r.ahead = ['\\']) :
    Sound input (front ++ ['\\']) ⟨r.offset + 1, some (r.copied.getD front), []⟩ := by
  refine ⟨?_, ?_, by simp, .inr ⟨rfl, .dangling (h.resolves last)⟩⟩
  · rw [List.append_nil, ← h.split, last]
  · rw [byteLength_append, h.offset]
    rfl

theorem close (quote : r.ahead = '"' :: rest) :
    cutAt? input (r.offset + 1) = some (front ++ ['"'], rest) ∧
      Delimits input front (r.copied.getD front) rest := by
  have split := h.split
  rw [quote] at split
  rw [← split, h.offset]
  exact ⟨cutAt?_succ _ _ rfl, .closed rest (h.resolves quote)⟩

theorem exhaust (nothing : r.ahead = []) : front = input ∧ Delimits front front (r.copied.getD front) [] := by
  refine ⟨by rw [← h.split, nothing, List.append_nil], ?_⟩
  rcases h.value with resolves | ⟨_, delimits⟩
  · exact .unclosed resolves
  · exact delimits

/-- There always is a turn to take, and it goes on soundly or ends the value where it has to end. -/
theorem turn : ∃ t, r.turn? input = some t ∧ t.Sound input := by
  unfold turn?
  split
  · next nothing =>
    obtain ⟨rfl, delimits⟩ := h.exhaust nothing
    exact ⟨_, rfl, front, _, delimits, h.held⟩
  · next rest quote =>
    obtain ⟨behind, delimits⟩ := h.close quote
    rw [h.held?, behind]
    exact ⟨_, rfl, front, _, delimits, h.held⟩
  · next last =>
    rw [h.copy?]
    exact ⟨_, rfl, _, h.takeNothing last⟩
  · next c rest taken =>
    rw [h.copy?]
    exact ⟨_, rfl, _, h.take taken⟩
  · next c rest noQuote notLast noEscape plain =>
    have noBackslash : c ≠ '\\' := by
      rintro rfl
      cases rest with
      | nil => exact notLast rfl rfl
      | cons d rest => exact noEscape d rest rfl rfl
    exact ⟨_, rfl, _, h.pass plain noQuote noBackslash⟩

theorem of_turn? {t : Turn} (taken : r.turn? input = some t) : t.Sound input := by
  obtain ⟨_, same, sound⟩ := h.turn
  obtain rfl := Option.some.inj (taken.symm.trans same)
  exact sound

theorem unescape_eq :
    unescape input = (r.copied.getD front ++ (unescape r.ahead).1, (unescape r.ahead).2) := by
  rcases h.value with resolves | ⟨nothing, delimits⟩
  · rw [← h.split, resolves.unescape_append]
  · obtain ⟨rfl, _⟩ := h.exhaust nothing
    rw [delimits.unescape_eq, nothing, unescape, List.append_nil]

theorem exists_of_run? : ∃ stretch value rest, Delimits input stretch value rest ∧
    r.run? input = some (if '\\' ∈ stretch then .copy value else .slice stretch, rest) := by
  fun_induction r.run? input generalizing front with
  | case1 r stuck =>
    obtain ⟨_, taken, _⟩ := h.turn
    rw [stuck] at taken
    cases taken
  | case2 r held rest ended =>
    obtain ⟨stretch, value, delimits, rfl⟩ := h.of_turn? ended
    exact ⟨stretch, value, rest, delimits, rfl⟩
  | case3 r next went ih =>
    obtain ⟨_, sound⟩ := h.of_turn? went
    exact ih sound

end Sound

theorem Reached.sound {r : Reading} (reached : r.Reached input) : ∃ front, r.Sound input front := by
  induction reached with
  | start => exact ⟨[], .start input⟩
  | turned _ went ih =>
    obtain ⟨_, sound⟩ := ih
    exact sound.of_turn? went

end Reading

/-- The reader by positions, whichever way it hands out the value. -/
def readAt? (input : List Char) : Option (List Char × List Char) :=
  ((Reading.start input).run? input).map fun (held, rest) => (held.text, rest)

theorem readAt?_eq (input : List Char) : readAt? input = some (read input) := by
  obtain ⟨stretch, value, rest, delimits, ends⟩ := (Reading.Sound.start input).exists_of_run?
  rw [readAt?, ends, read_eq_unescape, delimits.unescape_eq]
  by_cases met : '\\' ∈ stretch
  · rw [if_pos met]
    rfl
  · rw [if_neg met, delimits.eq_self met]
    rfl

/-- The value is what plain unescaping makes of the input up to the first free quote, or of all of it, and the
rest is what stands behind that quote. The reader takes its turns to the end without a cut inside of a
character. If there is no backslash in front of the end it hands out the stretch that it has read, which is
the value as it stands, and else its copy. At every point on the way what it has, be it a stretch or a copy,
and what is still ahead make up the whole value, and a copy has been begun if a backslash has been met. -/
theorem reading_eq_unescape (input : List Char) :
    ∃ stretch value rest,
      read input = (value, rest) ∧ unescape input = (value, rest) ∧
      Delimits input stretch value rest ∧
      (Reading.start input).run? input =
        some (if '\\' ∈ stretch then .copy value else .slice stretch, rest) ∧
      ('\\' ∉ stretch → stretch = value) ∧
      ∀ r, Reading.Reached input r → ∃ front, front ++ r.ahead = input ∧
        r.offset = byteLength front ∧ (r.copied = none ↔ '\\' ∉ front) ∧
        (r.copied.getD front ++ (unescape r.ahead).1, (unescape r.ahead).2) = (value, rest) := by
  obtain ⟨stretch, value, rest, delimits, ends⟩ := (Reading.Sound.start input).exists_of_run?
  have plain := delimits.unescape_eq
  refine ⟨stretch, value, rest, (read_eq_unescape input).trans plain, plain, delimits, ends, ?_, ?_⟩
  · exact delimits.eq_self
  · intro r reached
    obtain ⟨front, sound⟩ := reached.sound
    exact ⟨front, sound.split, sound.offset, sound.copied, sound.unescape_eq.symm.trans plain⟩

example : (Reading.start "a\u3000\\\"b\" c".toList).run? "a\u3000\\\"b\" c".toList =
    some (.copy "a\u3000\"b".toList, " c".toList) := by decide +kernel

end FormBody.Parameter.Quoted
