import FormBody.Proofs.Framing.Acceptance

/-! What a policy does to a decoder. Its rules hold of every part of an accepted body, the first part
that breaks one decides the error, and beyond that it has no influence: two policies that accept a
body agree on its form, and a body that is accepted stays accepted when rules are relaxed. -/
namespace FormBody

/-- Rule by rule, the second policy allows at least what the first one does. -/
structure Policy.Relaxes (strict loose : Policy) : Prop where
  wholeBody : strict.sizes.wholeBody ≤ loose.sizes.wholeBody
  limits : ∀ name, strict.sizes.limitFor name ≤ loose.sizes.limitFor name
  names : ∀ name, strict.allowsName name → loose.allowsName name
  types : ∀ a ∈ strict.allowedTypes, ∃ b ∈ loose.allowedTypes, b.essence = a.essence
  terminator : loose.terminatorRequired → strict.terminatorRequired

namespace Policy.Relaxes

variable {strict loose : Policy}

theorem allowsType (relaxed : strict.Relaxes loose) {value : Bytes}
    (allowed : strict.allowsType value) : loose.allowsType value := by
  obtain ⟨a, listed, occurs⟩ := List.any_eq_true.mp allowed
  obtain ⟨b, listed, same⟩ := relaxed.types a listed
  exact List.any_eq_true.mpr ⟨b, listed, by rw [same]; exact occurs⟩

theorem obeys (relaxed : strict.Relaxes loose) {part : Part} (obeys : part.Obeys strict) :
    part.Obeys loose where
  types value mem := relaxed.allowsType (obeys.types value mem)
  name := relaxed.names _ obeys.name
  size := Nat.le_trans obeys.size (UInt64.le_iff_toNat_le.mp (relaxed.limits _))

end Policy.Relaxes

namespace Decoder

variable {d : Decoder} {body : Bytes}

theorem exists_run_of_accepted {form : Form} (accepted : (d.decode body).result = .ok form) :
    ∃ final, (d.run (.initial body)).result = .ok final ∧
      final.parts.map (·.field) = Part.fields 0 (d.parts body) ∧
      form = .ofFields (final.parts.map (·.field)) := by
  obtain ⟨_, obeys, _, rfl⟩ := result_decode_eq_ok_iff.mp accepted
  have outcome := run_eq d body
  rw [Policy.fault?_eq_none_iff.mpr obeys] at outcome
  cases reached : (d.run (.initial body)).result with
  | error e => rw [reached] at outcome; cases outcome
  | ok final =>
    rw [reached] at outcome
    have captured : final.parts.map (·.field) = Part.fields 0 (d.parts body) :=
      congrArg Prod.fst (Except.ok.inj outcome)
    exact ⟨final, rfl, captured, by rw [captured]⟩

theorem exists_of_mem_fields {index : Nat} {parts : List Part} {field : Field}
    (mem : field ∈ Part.fields index parts) :
    ∃ p ∈ parts, field.name = p.name ∧ field.content = p.frame.content := by
  obtain ⟨i, here⟩ := List.mem_iff_getElem?.mp mem
  rw [Part.getElem?_fields] at here
  obtain ⟨p, there, rfl⟩ := Option.map_eq_some_iff.mp here
  exact ⟨p, List.mem_of_getElem? there, rfl, rfl⟩

theorem result_decode_eq_bodyTooLarge_iff {limit : UInt64} :
    (d.decode body).result = .error (.bodyTooLarge limit) ↔
      d.policy.sizes.wholeBody.toNat < body.length ∧ limit = d.policy.sizes.wholeBody := by
  rw [result_decode_eq]
  split
  · next large => simp [large, eq_comm]
  · next fits =>
    simp only [fits, false_and, iff_false]
    cases found : d.policy.fault? (d.parts body) with
    | some e =>
      obtain ⟨_, p, _, _, _, fault⟩ := Policy.fault?_eq_some_iff.mp found
      intro same
      cases same
      exact (Part.fault?_ne fault).2 limit rfl
    | none => dsimp only; split <;> exact nofun

/-- The rules of a policy hold of every part that an accepted body has, also of those that inherit
their names and of those that a later part replaces. A body is too large if and only if it is longer
than the limit, and a name or a size is reported if and only if no part in front breaks a rule, all
types of the part itself are allowed, and what is reported is so. A name is allowed if it is in the list
of names or there is none, and its limit is the one set for it or else the one for every field. -/
theorem decode_enforces_policy (d : Decoder) (body : Bytes) :
    (∀ form, (d.decode body).result = .ok form →
      body.length ≤ d.policy.sizes.wholeBody.toNat ∧
      (∀ part ∈ d.parts body, part.Obeys d.policy) ∧
      ∃ final, (d.run (.initial body)).result = .ok final ∧
        final.parts.map (·.field) = Part.fields 0 (d.parts body) ∧
        form = .ofFields (final.parts.map (·.field)) ∧
        ∀ capture ∈ final.parts, (∀ names ∈ d.policy.allowedNames, capture.field.name ∈ names) ∧
          ∀ limit, d.policy.sizes.overrides.lookup capture.field.name = some limit ∨
              d.policy.sizes.overrides.lookup capture.field.name = none ∧
                limit = d.policy.sizes.perField →
            capture.field.content.length ≤ limit.toNat) ∧
    (∀ limit, (d.decode body).result = .error (.bodyTooLarge limit) ↔
      d.policy.sizes.wholeBody.toNat < body.length ∧ limit = d.policy.sizes.wholeBody) ∧
    (∀ name, (d.decode body).result = .error (.unknownField name) ↔
      body.length ≤ d.policy.sizes.wholeBody.toNat ∧
      ∃ part, d.Reaches body part ∧ part.TypesAllowed d.policy ∧
        (∃ names ∈ d.policy.allowedNames, part.name ∉ names) ∧ name = part.name) ∧
    ∀ limit name, (d.decode body).result = .error (.fieldTooLarge limit name) ↔
      body.length ≤ d.policy.sizes.wholeBody.toNat ∧
      ∃ part, d.Reaches body part ∧ part.TypesAllowed d.policy ∧
        (∀ names ∈ d.policy.allowedNames, part.name ∈ names) ∧
        (d.policy.sizes.overrides.lookup part.name = some limit ∨
          d.policy.sizes.overrides.lookup part.name = none ∧ limit = d.policy.sizes.perField) ∧
        limit.toNat < part.frame.content.length ∧ name = part.name := by
  refine ⟨?_, ?_, ?_, ?_⟩
  · intro form accepted
    obtain ⟨fits, obeys, _, _⟩ := result_decode_eq_ok_iff.mp accepted
    obtain ⟨final, reached, captured, given⟩ := exists_run_of_accepted accepted
    refine ⟨fits, obeys, final, reached, captured, given, ?_⟩
    intro capture mem
    have field : capture.field ∈ Part.fields 0 (d.parts body) :=
      captured ▸ List.mem_map_of_mem mem
    obtain ⟨part, inside, name, content⟩ := exists_of_mem_fields field
    rw [name, content]
    refine ⟨Policy.allowsName_iff.mp (obeys part inside).name, fun limit governs => ?_⟩
    rw [SizeLimits.eq_limitFor_iff.mpr governs]
    exact (obeys part inside).size
  · exact fun limit => result_decode_eq_bodyTooLarge_iff
  · intro name
    rw [result_decode_eq_fault_iff (.unknownField name) nofun nofun]
    simp only [Part.fault?_eq_unknownField_iff, Policy.allowsName_eq_false_iff]
  · intro limit name
    rw [result_decode_eq_fault_iff (.fieldTooLarge limit name) nofun nofun]
    simp only [Part.fault?_eq_fieldTooLarge_iff, Policy.allowsName_iff, SizeLimits.eq_limitFor_iff]

/-- A part that inherits its name, under a limit for that name. -/
def inheritingBody : Bytes :=
  Text.Utf8.encode "--X\r\nContent-Disposition: form-data; name=a\r\n\r\n1\r\n--X\r\n\r\n22\r\n--X--".toList

def limiting : Decoder := ⟨"X", { Policy.lenient with sizes := SizeLimits.unlimited.setFor "a" 1 }⟩

theorem decode_enforces_policy_inheritingBody :
    ∃ part, limiting.Reaches inheritingBody part ∧ part.name = "a" ∧
      (1 : UInt64).toNat < part.frame.content.length := by
  have rejected : (limiting.decode inheritingBody).result = .error (.fieldTooLarge 1 "a") := by decide +kernel
  obtain ⟨_, _, _, tooLarge⟩ := decode_enforces_policy limiting inheritingBody
  obtain ⟨_, part, reached, _, _, _, long, name⟩ := (tooLarge 1 "a").mp rejected
  exact ⟨part, reached, name.symm, long⟩

/-- What a body says does not depend on the policy. When rules are relaxed an accepted body stays
accepted and its form stays the same, and any two policies that accept a body give the same form. -/
theorem decode_of_relaxes (boundary : String) (body : Bytes) (p q : Policy) :
    (p.Relaxes q → ∀ form, ((Decoder.mk boundary p).decode body).result = .ok form →
      ((Decoder.mk boundary q).decode body).result = .ok form) ∧
    ∀ a b, ((Decoder.mk boundary p).decode body).result = .ok a →
      ((Decoder.mk boundary q).decode body).result = .ok b → a = b := by
  constructor
  · intro relaxed form accepted
    obtain ⟨fits, obeys, closed, rfl⟩ := result_decode_eq_ok_iff.mp accepted
    refine result_decode_eq_ok_iff.mpr ⟨?_, fun part mem => relaxed.obeys (obeys part mem), ?_, rfl⟩
    · exact Nat.le_trans fits (UInt64.le_iff_toNat_le.mp relaxed.wholeBody)
    · exact fun required => closed (relaxed.terminator required)
  · intro a b first second
    obtain ⟨_, _, _, rfl⟩ := result_decode_eq_ok_iff.mp first
    obtain ⟨_, _, _, rfl⟩ := result_decode_eq_ok_iff.mp second
    rfl

def strictPolicy : Policy := { Policy.lenient with allowedNames := some ["a"], terminatorRequired := true }

theorem decode_of_relaxes_strictPolicy :
    strictPolicy.Relaxes .lenient ∧
      ((Decoder.mk "X" .lenient).decode inheritingBody).result =
        .ok (.ofFields [⟨"a", none, none, none, 0, [49]⟩, ⟨"a", none, none, none, 1, [50, 50]⟩]) := by
  have relaxed : strictPolicy.Relaxes .lenient :=
    ⟨by decide, fun _ => UInt64.le_refl _, fun _ _ => rfl, fun a listed => ⟨a, listed, rfl⟩, nofun⟩
  exact ⟨relaxed, (decode_of_relaxes "X" inheritingBody strictPolicy .lenient).1 relaxed _ (by decide +kernel)⟩

end Decoder
end FormBody
