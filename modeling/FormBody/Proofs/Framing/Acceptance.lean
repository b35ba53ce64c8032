import FormBody.Proofs.Form
import FormBody.Proofs.Framing.Refinement
import FormBody.Proofs.Framing.Writing

/-! Which bodies a policy accepts. What a part says is settled by its header lines and by the name that
the parts in front of it leave; a policy asks three things of each part, in the order of the body, and
the first part that fails it decides the error. -/
namespace FormBody

/-- A part of a framing and the name that the part in front of it leaves. -/
structure Part where
  inherited : String
  frame : Frame
  deriving DecidableEq, Repr

namespace Part

def headers (p : Part) : List PartHeader := p.frame.lines.filterMap PartHeader.ofLine?

/-- What the header lines say, whatever a policy makes of it. -/
def heading (p : Part) : Heading := p.headers.foldl Heading.apply (.ofName p.inherited)

/-- The name of the part: the last one that its lines give, or the inherited one. -/
def name (p : Part) : String := (p.headers.filterMap PartHeader.fieldName?).getLast?.getD p.inherited

theorem name_heading (p : Part) : p.heading.name = p.name := Heading.name_foldl_apply _ _

/-- The parts of a framing in order, each with the name that is left to it. -/
def ofFrames : String → List Frame → List Part
  | _, [] => []
  | inherited, f :: rest => ⟨inherited, f⟩ :: ofFrames (name ⟨inherited, f⟩) rest

theorem map_frame_ofFrames (inherited : String) (frames : List Frame) :
    (ofFrames inherited frames).map frame = frames := by
  induction frames generalizing inherited with
  | nil => rfl
  | cons f rest ih => rw [ofFrames, List.map_cons, ih]

theorem frame_of_getElem? {inherited : String} {frames : List Frame} {i : Nat} {p : Part}
    (h : (ofFrames inherited frames)[i]? = some p) : frames[i]? = some p.frame := by
  rw [← map_frame_ofFrames inherited frames, List.getElem?_map, h, Option.map_some]

theorem inherited_of_getElem? {inherited : String} {frames : List Frame} {i : Nat} {p q : Part}
    (first : (ofFrames inherited frames)[i]? = some p)
    (second : (ofFrames inherited frames)[i + 1]? = some q) : q.inherited = p.name := by
  induction frames generalizing inherited i with
  | nil => simp [ofFrames] at first
  | cons f rest ih =>
    rw [ofFrames] at first second
    cases i with
    | succ i => exact ih first second
    | zero =>
      obtain rfl : _ = p := Option.some.inj first
      cases rest with
      | nil => simp [ofFrames] at second
      | cons g rest =>
        obtain rfl : _ = q := Option.some.inj second
        rfl

def field (p : Part) (index : Nat) : Field :=
  { name := p.name, fileName := p.heading.fileName, contentType := p.heading.contentType,
    contentLength := p.heading.contentLength, index, content := p.frame.content }

def fields (index : Nat) : List Part → List Field
  | [] => []
  | p :: rest => p.field index :: fields (index + 1) rest

theorem getElem?_fields (index : Nat) (parts : List Part) (i : Nat) :
    (fields index parts)[i]? = parts[i]?.map fun p => p.field (index + i) := by
  induction parts generalizing index i with
  | nil => rfl
  | cons p rest ih =>
    cases i with
    | zero => rfl
    | succ i =>
      have shift : index + 1 + i = index + (i + 1) := by omega
      rw [fields, List.getElem?_cons_succ, List.getElem?_cons_succ, ih, shift]

theorem fields_append (index : Nat) (front back : List Part) :
    fields index (front ++ back) = fields index front ++ fields (index + front.length) back := by
  induction front generalizing index with
  | nil => rfl
  | cons p front ih =>
    have shift : index + 1 + front.length = index + (front.length + 1) := by omega
    rw [List.cons_append, fields, ih, shift, fields, List.cons_append, List.length_cons]

theorem map_name_fields (index : Nat) (parts : List Part) :
    (fields index parts).map Field.name = parts.map name := by
  induction parts generalizing index with
  | nil => rfl
  | cons p parts ih => rw [fields, List.map_cons, List.map_cons, ih, field]

theorem map_index_fields (index : Nat) (parts : List Part) :
    (fields index parts).map Field.index = List.range' index parts.length := by
  induction parts generalizing index with
  | nil => rfl
  | cons p parts ih => rw [fields, List.map_cons, ih, List.length_cons, List.range'_succ, field]

def TypesAllowed (policy : Policy) (p : Part) : Prop :=
  ∀ value, .type value ∈ p.headers → policy.allowsType value

/-- What a policy asks of a part. -/
structure Obeys (policy : Policy) (p : Part) : Prop where
  types : p.TypesAllowed policy
  name : policy.allowsName p.name
  size : p.frame.content.length ≤ (policy.sizes.limitFor p.name).toNat

/-- What a policy finds fault with: a declared type, then the name, then the size. -/
def fault? (policy : Policy) (p : Part) : Option DecodeError :=
  match (Heading.noteLines policy (.ofName p.inherited) p.frame.lines).result with
  | .error e => some e
  | .ok _ =>
    let limit := policy.sizes.limitFor p.name
    if !policy.allowsName p.name then some (.unknownField p.name)
    else if limit.toNat < p.frame.content.length then some (.fieldTooLarge limit p.name)
    else none

variable {policy : Policy} {p : Part}

theorem typesAllowed_iff : p.TypesAllowed policy ↔ ∀ h ∈ p.headers, policy.accepts h := by
  constructor
  · intro allowed h mem
    cases h with
    | disposition value => rfl
    | length value => rfl
    | type value => exact allowed value mem
  · exact fun accepted value mem => accepted (.type value) mem

theorem noteLines_eq_ok_iff {heading : Heading} :
    (Heading.noteLines policy (.ofName p.inherited) p.frame.lines).result = .ok heading ↔
      p.TypesAllowed policy ∧ p.heading = heading := by
  rw [Heading.result_noteLines_eq_ok_iff, typesAllowed_iff]
  rfl

theorem noteLines_eq_error {e : DecodeError}
    (h : (Heading.noteLines policy (.ofName p.inherited) p.frame.lines).result = .error e) :
    ¬ p.TypesAllowed policy ∧ ∃ name type, e = .disallowedContentType name type := by
  obtain ⟨front, value, back, split, _, refused, rfl⟩ := Heading.result_noteLines_eq_error_iff.mp h
  refine ⟨fun allowed => ?_, _, _, rfl⟩
  have mem : .type value ∈ p.headers := by
    rw [headers, split]
    exact List.mem_append_right front List.mem_cons_self
  rw [allowed value mem] at refused
  cases refused

theorem fault?_cases (policy : Policy) (p : Part) :
    (¬ p.TypesAllowed policy ∧ ∃ name type, p.fault? policy = some (.disallowedContentType name type)) ∨
    (p.TypesAllowed policy ∧ ¬ policy.allowsName p.name ∧
      p.fault? policy = some (.unknownField p.name)) ∨
    (p.TypesAllowed policy ∧ policy.allowsName p.name ∧
      (policy.sizes.limitFor p.name).toNat < p.frame.content.length ∧
      p.fault? policy = some (.fieldTooLarge (policy.sizes.limitFor p.name) p.name)) ∨
    (p.Obeys policy ∧ p.fault? policy = none) := by
  unfold fault?
  cases noted : (Heading.noteLines policy (.ofName p.inherited) p.frame.lines).result with
  | error e =>
    obtain ⟨refused, name, type, rfl⟩ := noteLines_eq_error noted
    exact .inl ⟨refused, name, type, rfl⟩
  | ok heading =>
    have allowed := (noteLines_eq_ok_iff.mp noted).1
    by_cases named : policy.allowsName p.name
    · by_cases large : (policy.sizes.limitFor p.name).toNat < p.frame.content.length
      · exact .inr (.inr (.inl ⟨allowed, named, large, by simp [named, large]⟩))
      · exact .inr (.inr (.inr ⟨⟨allowed, named, Nat.not_lt.mp large⟩, by simp [named, large]⟩))
    · exact .inr (.inl ⟨allowed, named, by simp [named]⟩)

theorem fault?_eq_none_iff : p.fault? policy = none ↔ p.Obeys policy := by
  rcases p.fault?_cases policy with ⟨h, _, _, fault⟩ | ⟨_, h, fault⟩ | ⟨_, _, h, fault⟩ | ⟨h, fault⟩
  · simp only [fault, reduceCtorEq, false_iff]
    exact fun obeys => h obeys.types
  · simp only [fault, reduceCtorEq, false_iff]
    exact fun obeys => h obeys.name
  · simp only [fault, reduceCtorEq, false_iff]
    exact fun obeys => Nat.not_lt.mpr obeys.size h
  · exact iff_of_true fault h

theorem fault?_eq_unknownField_iff {name : String} : p.fault? policy = some (.unknownField name) ↔
    p.TypesAllowed policy ∧ policy.allowsName p.name = false ∧ name = p.name := by
  rcases p.fault?_cases policy with ⟨h, _, _, fault⟩ | ⟨types, h, fault⟩ | ⟨_, h, _, fault⟩ | ⟨h, fault⟩
  · simp [fault, h]
  · simp [fault, h, types, eq_comm]
  · simp [fault, h]
  · simp [fault, h.name]

theorem fault?_eq_fieldTooLarge_iff {limit : UInt64} {name : String} :
    p.fault? policy = some (.fieldTooLarge limit name) ↔
      p.TypesAllowed policy ∧ policy.allowsName p.name ∧ limit = policy.sizes.limitFor p.name ∧
        limit.toNat < p.frame.content.length ∧ name = p.name := by
  rcases p.fault?_cases policy with ⟨h, _, _, fault⟩ | ⟨_, h, fault⟩ | ⟨types, h, large, fault⟩ | ⟨h, fault⟩
  · simp [fault, h]
  · simp [fault, h]
  · simp only [fault, Option.some.injEq, DecodeError.fieldTooLarge.injEq]
    constructor
    · rintro ⟨rfl, rfl⟩
      exact ⟨types, h, rfl, large, rfl⟩
    · rintro ⟨_, _, rfl, _, rfl⟩
      exact ⟨rfl, rfl⟩
  · simp only [fault, reduceCtorEq, false_iff]
    rintro ⟨_, _, rfl, large, _⟩
    exact Nat.not_lt.mpr h.size large

theorem fault?_ne {e : DecodeError} (fault : p.fault? policy = some e) :
    e ≠ .incompleteBody ∧ ∀ limit, e ≠ .bodyTooLarge limit := by
  rcases p.fault?_cases policy with ⟨_, _, _, h⟩ | ⟨_, _, h⟩ | ⟨_, _, _, h⟩ | ⟨_, h⟩ <;>
    rw [h] at fault <;> cases fault
  · exact ⟨nofun, nofun⟩
  · exact ⟨nofun, nofun⟩
  · exact ⟨nofun, nofun⟩

end Part

/-- The first fault that a policy finds with the parts. -/
def Policy.fault? (policy : Policy) (parts : List Part) : Option DecodeError :=
  parts.findSome? (·.fault? policy)

namespace Policy

variable {policy : Policy} {parts : List Part}

theorem fault?_eq_none_iff : policy.fault? parts = none ↔ ∀ p ∈ parts, p.Obeys policy := by
  rw [fault?, List.findSome?_eq_none_iff]
  exact forall₂_congr fun p _ => Part.fault?_eq_none_iff

theorem fault?_eq_some_iff {e : DecodeError} : policy.fault? parts = some e ↔
    ∃ front p back, parts = front ++ p :: back ∧ (∀ q ∈ front, q.Obeys policy) ∧
      p.fault? policy = some e := by
  rw [fault?, List.findSome?_eq_some_iff]
  constructor
  · rintro ⟨front, p, back, split, fault, others⟩
    exact ⟨front, p, back, split, fun q mem => Part.fault?_eq_none_iff.mp (others q mem), fault⟩
  · rintro ⟨front, p, back, split, others, fault⟩
    exact ⟨front, p, back, split, fault, fun q mem => Part.fault?_eq_none_iff.mpr (others q mem)⟩

end Policy

/-- What becomes of a closed body with these parts. -/
def Policy.verdict (policy : Policy) (parts : List Part) : Except DecodeError Form :=
  match policy.fault? parts with
  | some e => .error e
  | none => .ok (.ofFields (Part.fields 0 parts))

namespace Frame

theorem field_eq (policy : Policy) (inherited : String) (index : Nat) (f : Frame) :
    f.field policy inherited index =
      match Part.fault? policy ⟨inherited, f⟩ with
      | some e => .error e
      | none => .ok (Part.field ⟨inherited, f⟩ index) := by
  unfold Frame.field Part.fault?
  cases noted : (Heading.noteLines policy (.ofName inherited) f.lines).result with
  | error e => rfl
  | ok heading =>
    obtain ⟨_, rfl⟩ := (Part.noteLines_eq_ok_iff (p := ⟨inherited, f⟩)).mp noted
    simp only [Except.bind, Heading.field, Part.name_heading]
    split
    · rfl
    · split
      · rfl
      · rw [Part.field]

/-- Reading parts in order stops at the first that the policy finds fault with, and without a fault
gives what the parts say. -/
theorem fields_eq (policy : Policy) (inherited : String) (index : Nat) (frames : List Frame) :
    fields policy inherited index frames =
      match policy.fault? (Part.ofFrames inherited frames) with
      | some e => .error e
      | none => .ok (Part.fields index (Part.ofFrames inherited frames)) := by
  induction frames generalizing inherited index with
  | nil => rfl
  | cons f rest ih =>
    rw [fields, field_eq, Part.ofFrames, Policy.fault?, List.findSome?_cons]
    cases Part.fault? policy ⟨inherited, f⟩ with
    | some e => rfl
    | none =>
      change (fields policy (Part.name ⟨inherited, f⟩) (index + 1) rest).map _ = _
      rw [ih, Policy.fault?]
      cases (Part.ofFrames (Part.name ⟨inherited, f⟩) rest).findSome? (·.fault? policy) <;> rfl

end Frame

namespace Decoder

/-- The parts of a body, the one that the end of the input cuts off included. The boundary and the
positions of line breaks settle them. -/
def parts (d : Decoder) (body : Bytes) : List Part :=
  Part.ofFrames "" (Framing.ofBytes d.markers body).frames

/-- A terminator closes the body. An empty body needs none. -/
def closes (d : Decoder) (body : Bytes) : Bool :=
  body.isEmpty || (Framing.ofBytes d.markers body).closed

theorem run_eq (d : Decoder) (body : Bytes) :
    (d.run (.initial body)).result.map State.outcome =
      match d.policy.fault? (d.parts body) with
      | some e => .error e
      | none => .ok (Part.fields 0 (d.parts body),
          .finished (Framing.ofBytes d.markers body).closed) := by
  rw [run_initial, Frame.fields_eq, parts]
  split <;> simp_all [Except.map]

theorem parts_nil (d : Decoder) : d.parts [] = [] := by
  have proper : d.markers.Proper := Markers.proper_ofBoundary d.boundary
  rw [parts, Framing.ofBytes_of_exhausted (Framing.gap_nil proper)]
  rfl

/-- A body is too large, has a part at fault, lacks its terminator, or gives the form of its parts. -/
theorem result_decode_eq (d : Decoder) (body : Bytes) :
    (d.decode body).result =
      if d.policy.sizes.wholeBody.toNat < body.length then
        .error (.bodyTooLarge d.policy.sizes.wholeBody)
      else match d.policy.fault? (d.parts body) with
        | some e => .error e
        | none =>
          if d.policy.terminatorRequired && !d.closes body then .error .incompleteBody
          else .ok (.ofFields (Part.fields 0 (d.parts body))) := by
  by_cases empty : body = []
  · subst empty
    rw [parts_nil]
    simp [decode, closes, Policy.fault?, Part.fields, Form.ofFields]
  · split
    · next large => rw [decode, if_neg (by simpa using empty), if_pos large]
    · next fits =>
      rw [result_decode d empty (Nat.not_lt.mp fits), Framing.form, Frame.fields_eq, parts, closes]
      split <;> simp_all [Except.bind]

/-- What it takes that a body is accepted, and the form that it gives. -/
theorem result_decode_eq_ok_iff {d : Decoder} {body : Bytes} {form : Form} :
    (d.decode body).result = .ok form ↔
      body.length ≤ d.policy.sizes.wholeBody.toNat ∧ (∀ p ∈ d.parts body, p.Obeys d.policy) ∧
        (d.policy.terminatorRequired → d.closes body) ∧
        form = .ofFields (Part.fields 0 (d.parts body)) := by
  rw [result_decode_eq, ← Policy.fault?_eq_none_iff, ← Nat.not_lt]
  split
  · next large => simp [large]
  · next fits =>
    cases d.policy.fault? (d.parts body) with
    | some e => simp
    | none =>
      dsimp only
      split
      · next lacking => simp_all
      · next complete => simp_all [eq_comm (a := form)]

theorem exists_part_of_accepted {d : Decoder} {body : Bytes} {form : Form} {field : Field}
    (accepted : (d.decode body).result = .ok form) (mem : field ∈ form.fields) :
    ∃ part, (d.parts body)[field.index]? = some part ∧ part.field field.index = field := by
  obtain ⟨_, _, _, rfl⟩ := result_decode_eq_ok_iff.mp accepted
  obtain ⟨i, here⟩ := List.mem_iff_getElem?.mp ((Form.sublist_ofFields _).subset mem)
  rw [Part.getElem?_fields, Nat.zero_add] at here
  obtain ⟨part, there, rfl⟩ := Option.map_eq_some_iff.mp here
  exact ⟨part, there, rfl⟩

/-- The policy has no fault to find in front of this part of the body. -/
def Reaches (d : Decoder) (body : Bytes) (part : Part) : Prop :=
  ∃ front back, d.parts body = front ++ part :: back ∧ ∀ p ∈ front, p.Obeys d.policy

/-- What it takes that a body is rejected for a fault of a part. -/
theorem result_decode_eq_fault_iff {d : Decoder} {body : Bytes} (e : DecodeError)
    (complete : e ≠ .incompleteBody) (small : ∀ limit, e ≠ .bodyTooLarge limit) :
    (d.decode body).result = .error e ↔
      body.length ≤ d.policy.sizes.wholeBody.toNat ∧
      ∃ part, d.Reaches body part ∧ part.fault? d.policy = some e := by
  have found : (∃ part, d.Reaches body part ∧ part.fault? d.policy = some e) ↔
      d.policy.fault? (d.parts body) = some e := by
    rw [Policy.fault?_eq_some_iff]
    constructor
    · rintro ⟨part, ⟨front, back, split, others⟩, fault⟩
      exact ⟨front, part, back, split, others, fault⟩
    · rintro ⟨front, part, back, split, others, fault⟩
      exact ⟨part, ⟨front, back, split, others⟩, fault⟩
  rw [found, result_decode_eq, ← Nat.not_lt]
  split
  · next large => simp [large, (small _).symm]
  · next fits =>
    cases d.policy.fault? (d.parts body) with
    | some f => simp [fits]
    | none =>
      dsimp only
      split <;> simp [complete.symm]

/-- The body is made up of these parts, with lines in front of them and any text behind the terminator,
and it is not too large. -/
structure MadeOf (d : Decoder) (sections : List Section) (body : Bytes) : Prop where
  plain : '\r' ∉ d.boundary.toList
  written : ∀ s ∈ sections, s.Proper d.markers
  encoded : ∃ preamble epilogue, (∀ line ∈ preamble, Bytes.IsLine line ∧ ¬ d.markers.delimiter <+: line) ∧
    body = Framing.encode d.markers preamble sections epilogue
  fits : body.length ≤ d.policy.sizes.wholeBody.toNat

namespace MadeOf

variable {d : Decoder} {sections : List Section} {body : Bytes} (made : d.MadeOf sections body)

include made

theorem framing : Framing.ofBytes d.markers body = ⟨sections.map Section.frame, .closed⟩ := by
  obtain ⟨preamble, epilogue, skipped, rfl⟩ := made.encoded
  exact Framing.ofBytes_encode (Markers.proper_ofBoundary d.boundary) (Markers.delimiter_fresh made.plain)
    skipped made.written epilogue

theorem parts : d.parts body = Part.ofFrames "" (sections.map Section.frame) := by
  rw [Decoder.parts, made.framing]
  rfl

theorem result_decode :
    (d.decode body).result = d.policy.verdict (Part.ofFrames "" (sections.map Section.frame)) := by
  have closes : d.closes body = true := by simp [closes, made.framing, Framing.closed]
  rw [result_decode_eq, if_neg (Nat.not_lt.mpr made.fits), made.parts, closes, Policy.verdict]
  simp

end MadeOf

end Decoder
end FormBody
