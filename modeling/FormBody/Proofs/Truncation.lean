import FormBody.Proofs.Framing.Acceptance
import FormBody.Proofs.Framing.Truncation
import FormBody.Proofs.RoundTrip
import Mathlib.Data.List.Flatten

/-! What is left of a written form when its body is cut off. Every part that is there with the
delimiter behind it is read as it was written. A part whose opening line is there and whose name is
not still counts as a part, of the field in front of it, and that field is lost to it. -/
namespace FormBody

open Bytes Text

def PartHeader.names (line : Bytes) : Bool := ((ofLine? line).bind fieldName?).isSome

namespace WrittenItem

variable {m : Markers} {w : WrittenItem} {p : Part} {name : String}

theorem Proper.mem_headers (proper : w.Proper m) {lines : List Bytes} (front : lines <+: w.lines)
    {h : PartHeader} (given : h ∈ lines.filterMap PartHeader.ofLine?) : h ∈ w.item.headers := by
  obtain ⟨headers, order, spelled⟩ := proper.spelled
  have all : h ∈ w.lines.filterMap PartHeader.ofLine? := (front.filterMap _).subset given
  rw [PartHeader.filterMap_ofLine? spelled] at all
  exact order.subset all

theorem Proper.any_names (proper : w.Proper m) (own : w.item.name = some name) :
    w.lines.any PartHeader.names := by
  obtain ⟨headers, order, spelled⟩ := proper.spelled
  have given : w.item.dispositionHeader = some (.disposition (Item.spaced w.item.write)) := by
    rw [Item.dispositionHeader, if_neg]
    intro nothing
    rw [nothing] at own
    cases own
  have mem : .disposition (Item.spaced w.item.write) ∈ w.lines.filterMap PartHeader.ofLine? := by
    rw [PartHeader.filterMap_ofLine? spelled]
    exact order.mem_iff.mpr (Item.mem_headers.mpr (.inl given))
  obtain ⟨line, inside, spells⟩ := List.mem_filterMap.mp mem
  refine List.any_eq_true.mpr ⟨line, inside, ?_⟩
  rw [PartHeader.names, spells, Option.bind_some, PartHeader.fieldName?,
    Item.ofBytes_spaced proper.item, own]
  rfl

theorem Proper.name_eq (proper : w.Proper m) (own : w.item.name = some name)
    (front : p.frame.lines <+: w.lines) :
    p.name = if p.frame.lines.any PartHeader.names then name else p.inherited := by
  have only : ∀ x ∈ p.headers.filterMap PartHeader.fieldName?, x = name := by
    intro x mem
    obtain ⟨h, given, named⟩ := List.mem_filterMap.mp mem
    have same := Item.name_of_fieldName? proper.item (proper.mem_headers front given) named
    exact Option.some.inj (same.symm.trans own)
  have anyNames : p.frame.lines.any PartHeader.names ↔
      p.headers.filterMap PartHeader.fieldName? ≠ [] := by
    rw [Part.headers, List.filterMap_filterMap, Ne, List.filterMap_eq_nil_iff, List.any_eq_true]
    simp [PartHeader.names, Option.isSome_iff_ne_none]
  rw [Part.name]
  cases last : (p.headers.filterMap PartHeader.fieldName?).getLast? with
  | none =>
    have none := List.getLast?_eq_none_iff.mp last
    rw [if_neg (by simp [anyNames, none])]
    rfl
  | some x =>
    have mem := List.mem_of_getLast? last
    rw [if_pos (anyNames.mpr (List.ne_nil_of_mem mem)), only x mem]
    rfl

theorem Proper.obeys (proper : w.Proper m) (front : p.frame.lines <+: w.lines)
    (fits : p.frame.content.length ≤ noLimit.toNat) : p.Obeys .lenient where
  types := Part.typesAllowed_iff.mpr fun _ given =>
    Item.accepts_of_mem (Policy.allowsType_withTerminator false) (proper.mem_headers front given)
  name := rfl
  size := fits

theorem Proper.field_eq (proper : w.Proper m) (own : w.item.name = some name)
    (whole : p.frame = w.toSection.frame) (index : Nat) : p.field index = w.item.field name index := by
  obtain ⟨inherited, _⟩ := p
  obtain rfl : _ = w.toSection.frame := whole
  have noted := result_noteLines proper (Policy.allowsType_withTerminator false) inherited
  have heading : Part.heading ⟨inherited, w.toSection.frame⟩ = w.item.heading inherited :=
    (Part.noteLines_eq_ok_iff.mp noted).2
  rw [Part.field, ← Part.name_heading, heading, Item.heading, own]
  rfl

/-- The number of bytes in front of a part. -/
def offset (m : Markers) (preamble : List Bytes) (parts : List WrittenItem) (i : Nat) : Nat :=
  (unlines preamble).length + Section.offset m (parts.map toSection) i

/-- The number of bytes of a part up to the end of the line that names it. -/
def naming (m : Markers) (w : WrittenItem) : Nat :=
  w.toSection.opening m + (unlines (w.lines.take (w.lines.findIdx PartHeader.names + 1))).length

theorem naming_lt (m : Markers) (w : WrittenItem) : w.naming m < w.toSection.heading m := by
  have front : (unlines (w.lines.take (w.lines.findIdx PartHeader.names + 1))).length ≤
      (unlines w.lines).length := (List.Sublist.flatMap (List.take_sublist _ _) _).length_le
  have whole : w.toSection.heading m =
      w.toSection.opening m + ((unlines w.lines).length + crlf.length) := rfl
  rw [naming, whole, length_crlf]
  omega

theorem offset_succ {m : Markers} {preamble : List Bytes} {parts : List WrittenItem} {i : Nat}
    {w : WrittenItem} (here : parts[i]? = some w) : offset m preamble parts (i + 1) =
      offset m preamble parts i + (w.toSection.encode m).length := by
  have there : (parts.map toSection)[i]? = some w.toSection := by
    rw [List.getElem?_map, here, Option.map_some]
  rw [offset, offset, Section.offset, Section.offset, List.take_add_one, there]
  simp [Nat.add_assoc]

/-- The first bytes of the part open it, but do not name it. -/
def Nameless (m : Markers) (n : Nat) (w : WrittenItem) : Prop :=
  w.toSection.opening m ≤ n ∧ n < w.naming m

theorem not_received_of_nameless {m : Markers} {preamble : List Bytes} {parts : List WrittenItem}
    {i n : Nat} {w : WrittenItem} (here : parts[i]? = some w)
    (nameless : w.Nameless m (n - offset m preamble parts i)) :
    ¬ offset m preamble parts (i + 1) + m.delimiter.length ≤ n := by
  have := nameless.2
  have := w.naming_lt m
  rw [offset_succ here, Section.length_encode]
  omega

/-- These frames are those of the first parts, and behind them the one that the first bytes of the
next part give. -/
def FramedUpTo (m : Markers) (parts : List WrittenItem) (k n : Nat) (frames : List Frame) : Prop :=
  ∀ i, frames[i]? =
    if i < k then parts[i]?.map (·.toSection.frame)
    else if i = k then parts[k]?.bind (·.toSection.cut? m n)
    else none

variable {preamble : List Bytes} {parts : List WrittenItem}

theorem exists_framedUpTo (proper : m.Proper) (plain : 13 ∉ m.delimiter)
    (skipped : ∀ line ∈ preamble, IsLine line ∧ ¬ m.delimiter <+: line)
    (written : ∀ w ∈ parts, w.Proper m) (epilogue : Bytes) (n : Nat) :
    ∃ k,
      (∀ i < parts.length, i < k ↔ offset m preamble parts (i + 1) + m.delimiter.length ≤ n) ∧
      FramedUpTo m parts k (n - offset m preamble parts k)
        (Framing.ofBytes m ((encode m preamble parts epilogue).take n)).frames := by
  obtain ⟨k, inside, complete, frames⟩ :=
    Framing.frames_take_encode proper plain skipped (proper_toSection written) epilogue n
  rw [List.length_map] at inside complete
  refine ⟨k, complete, fun i => ?_⟩
  have size : (((parts.map toSection).take k).map Section.frame).length = k := by
    simp [inside]
  rw [encode, frames, getElem?_append_toList, size]
  simp only [List.getElem?_map, List.getElem?_take]
  by_cases before : i < k
  · simp [before, Function.comp_def]
  · simp only [before, if_false, Option.bind_map, offset]
    rfl

theorem Proper.cut? (proper : w.Proper m) (own : w.item.name = some name) {n : Nat} {f : Frame}
    (h : w.toSection.cut? m n = some f) :
    w.toSection.opening m ≤ n ∧ (f.lines.any PartHeader.names ↔ w.naming m ≤ n) := by
  unfold Section.cut? at h
  split at h
  · cases h
  · next opened =>
    cases h
    have := any_linesWithin (proper.any_names own) (n - w.toSection.opening m)
    refine ⟨Nat.not_lt.mp opened, this.trans ?_⟩
    rw [naming]
    omega

theorem cut?_of_nameless {n : Nat} (nameless : w.Nameless m n) :
    w.toSection.cut? m n = some ⟨linesWithin (n - w.toSection.opening m) w.lines, []⟩ := by
  obtain ⟨opened, unnamed⟩ := nameless
  have early : n - w.toSection.heading m = 0 := by
    have := w.naming_lt m
    omega
  rw [Section.cut?, if_neg (Nat.not_lt.mpr opened), early]
  rfl

theorem eq_of_name_eq {parts : List WrittenItem} (distinct : (parts.map (·.item.name)).Nodup)
    {i j : Nat} {v w : WrittenItem} (first : parts[i]? = some v) (second : parts[j]? = some w)
    (same : v.item.name = w.item.name) : i = j := by
  have bound : i < (parts.map (·.item.name)).length := by
    rw [List.length_map]
    exact (List.getElem?_eq_some_iff.mp first).1
  refine (List.getElem?_inj bound distinct).mp ?_
  rw [List.getElem?_map, List.getElem?_map, first, second, Option.map_some, Option.map_some, same]

namespace FramedUpTo

variable {k n i : Nat} {frames : List Frame} {f : Frame}

theorem cases (framed : FramedUpTo m parts k n frames) (h : frames[i]? = some f) :
    ∃ w, parts[i]? = some w ∧
      (i < k ∧ f = w.toSection.frame ∨ i = k ∧ w.toSection.cut? m n = some f) := by
  rw [framed i] at h
  split at h
  · next before =>
    obtain ⟨w, there, rfl⟩ := Option.map_eq_some_iff.mp h
    exact ⟨w, there, .inl ⟨before, rfl⟩⟩
  · split at h
    · next here =>
      obtain ⟨w, there, cut⟩ := Option.bind_eq_some_iff.mp h
      exact ⟨w, here ▸ there, .inr ⟨here, cut⟩⟩
    · cases h

theorem obeys (framed : FramedUpTo m parts k n frames) (written : ∀ w ∈ parts, w.Proper m)
    (fits : ∀ f ∈ frames, f.content.length ≤ noLimit.toNat) {inherited : String}
    (mem : p ∈ Part.ofFrames inherited frames) : p.Obeys .lenient := by
  obtain ⟨i, here⟩ := List.mem_iff_getElem?.mp mem
  have frame := Part.frame_of_getElem? here
  obtain ⟨w, there, ⟨_, same⟩ | ⟨_, cut⟩⟩ := framed.cases frame
  · have proper := written w (List.mem_of_getElem? there)
    exact proper.obeys (same ▸ List.prefix_refl _) (fits _ (List.mem_of_getElem? frame))
  · have proper := written w (List.mem_of_getElem? there)
    exact proper.obeys (Section.prefix_of_cut? cut) (fits _ (List.mem_of_getElem? frame))

theorem part_of_lt (framed : FramedUpTo m parts k n frames) (here : parts[i]? = some w)
    (before : i < k) (inherited : String) :
    ∃ p, (Part.ofFrames inherited frames)[i]? = some p ∧ p.frame = w.toSection.frame := by
  have frame := framed i
  rw [if_pos before, here, Option.map_some, ← Part.map_frame_ofFrames inherited frames,
    List.getElem?_map] at frame
  exact Option.map_eq_some_iff.mp frame

/-- A part that is there as a whole gives the field that was written. -/
theorem field_of_lt (framed : FramedUpTo m parts k n frames) (proper : w.Proper m)
    (own : w.item.name = some name) (here : parts[i]? = some w) (before : i < k) (inherited : String) :
    (Part.fields 0 (Part.ofFrames inherited frames))[i]? = some (w.item.field name i) := by
  obtain ⟨p, there, whole⟩ := framed.part_of_lt here before inherited
  rw [Part.getElem?_fields, there, Option.map_some, proper.field_eq own whole, Nat.zero_add]

theorem name_of_lt (framed : FramedUpTo m parts k n frames) (proper : w.Proper m)
    (own : w.item.name = some name) (here : parts[i]? = some w) (before : i < k) {inherited : String}
    (there : (Part.ofFrames inherited frames)[i]? = some p) : p.name = name := by
  obtain ⟨q, found, whole⟩ := framed.part_of_lt here before inherited
  rw [there] at found
  cases found
  exact congrArg Field.name (proper.field_eq own whole i)

theorem inherited_of_last (framed : FramedUpTo m parts (i + 1) n frames) (proper : w.Proper m)
    (own : w.item.name = some name) (here : parts[i]? = some w) {inherited : String}
    (there : (Part.ofFrames inherited frames)[i + 1]? = some p) : p.inherited = name := by
  obtain ⟨q, previous, _⟩ := framed.part_of_lt here (Nat.lt_succ_self i) inherited
  have origin : q.name = name := framed.name_of_lt proper own here (Nat.lt_succ_self i) previous
  exact (Part.inherited_of_getElem? previous there).trans origin

/-- A later part takes the name of one that is there as a whole only if it is the next one, and cut
off in front of the end of the line that names it. -/
theorem nameless_of_same_name (framed : FramedUpTo m parts k n frames)
    (written : ∀ w ∈ parts, w.Proper m) (named : ∀ w ∈ parts, w.item.name.isSome)
    (distinct : (parts.map (·.item.name)).Nodup) (here : parts[i]? = some w)
    (own : w.item.name = some name) {j : Nat} (after : i < j) {inherited : String}
    (there : (Part.ofFrames inherited frames)[j]? = some p) (same : p.name = name) :
    ∃ next, parts[i + 1]? = some next ∧ k = i + 1 ∧ next.Nameless m n := by
  have unshared {l : Nat} {v : WrittenItem} (other : parts[l]? = some v)
      (shared : v.item.name = some name) : i = l :=
    eq_of_name_eq distinct here other (own.trans shared.symm)
  obtain ⟨next, behind, kind⟩ := framed.cases (Part.frame_of_getElem? there)
  have proper := written next (List.mem_of_getElem? behind)
  obtain ⟨other, given⟩ := Option.isSome_iff_exists.mp (named next (List.mem_of_getElem? behind))
  have different : other ≠ name := by
    rintro rfl
    exact Nat.ne_of_lt after (unshared behind given)
  rcases kind with ⟨before, _⟩ | ⟨rfl, cut⟩
  · exact absurd ((framed.name_of_lt proper given behind before there).symm.trans same) different
  · obtain ⟨opened, reached⟩ := proper.cut? given cut
    have name := proper.name_eq given (Section.prefix_of_cut? cut)
    split at name
    · exact absurd (name.symm.trans same) different
    · next unnamed =>
      -- The part in front has a name of its own, and it is the one that the last part has.
      obtain ⟨l, rfl⟩ : ∃ l, j = l + 1 := ⟨j - 1, by omega⟩
      have inside : l < parts.length :=
        Nat.lt_of_succ_lt (List.getElem?_eq_some_iff.mp behind).1
      have front : parts[l]? = some parts[l] := List.getElem?_eq_getElem inside
      obtain ⟨earlier, gives⟩ := Option.isSome_iff_exists.mp (named _ (List.getElem_mem inside))
      have left : p.inherited = earlier :=
        framed.inherited_of_last (written _ (List.getElem_mem inside)) gives front there
      obtain rfl := unshared front (gives.trans (congrArg some (left.symm.trans (name.symm.trans same))))
      exact ⟨next, behind, rfl, opened, Nat.not_le.mp (mt reached.mpr unnamed)⟩

/-- What is there as a whole is in the form, unless such a part comes behind it. -/
theorem get?_of_lt (framed : FramedUpTo m parts k n frames) (written : ∀ w ∈ parts, w.Proper m)
    (named : ∀ w ∈ parts, w.item.name.isSome) (distinct : (parts.map (·.item.name)).Nodup)
    (here : parts[i]? = some w) (own : w.item.name = some name) (before : i < k)
    (nextNamed : ∀ next, parts[i + 1]? = some next → k = i + 1 → ¬ next.Nameless m n)
    (inherited : String) :
    (Form.ofFields (Part.fields 0 (Part.ofFrames inherited frames))).get? name =
      some (w.item.field name i) := by
  have field := framed.field_of_lt (written w (List.mem_of_getElem? here)) own here before inherited
  refine Form.get?_ofFields_of_getElem? field fun j later after there same => ?_
  rw [Part.getElem?_fields] at there
  obtain ⟨p, behind, rfl⟩ := Option.map_eq_some_iff.mp there
  obtain ⟨next, following, last, nameless⟩ :=
    framed.nameless_of_same_name written named distinct here own after behind same
  exact nextNamed next following last nameless

/-- A nameless part takes the name of the one in front of it, and with it the place in the form. -/
theorem get?_of_nameless (framed : FramedUpTo m parts (i + 1) n frames)
    (written : ∀ w ∈ parts, w.Proper m) (named : ∀ w ∈ parts, w.item.name.isSome)
    (here : parts[i]? = some w) (own : w.item.name = some name) {next : WrittenItem}
    (behind : parts[i + 1]? = some next) (nameless : next.Nameless m n) (inherited : String) :
    ∃ field, (Form.ofFields (Part.fields 0 (Part.ofFrames inherited frames))).get? name = some field ∧
      field.index = i + 1 ∧ field.content = [] := by
  have proper := written next (List.mem_of_getElem? behind)
  obtain ⟨other, given⟩ := Option.isSome_iff_exists.mp (named next (List.mem_of_getElem? behind))
  have cut := cut?_of_nameless nameless
  have frame := framed (i + 1)
  rw [if_neg (Nat.lt_irrefl _), if_pos rfl, behind, Option.bind_some, cut,
    ← Part.map_frame_ofFrames inherited frames, List.getElem?_map] at frame
  obtain ⟨p, there, whole⟩ := Option.map_eq_some_iff.mp frame
  have unnamed : ¬ p.frame.lines.any PartHeader.names := by
    rw [whole, (proper.cut? given cut).2]
    exact Nat.not_le.mpr nameless.2
  have inherits := proper.name_eq given (p := p) (whole ▸ Section.prefix_of_cut? cut)
  rw [if_neg unnamed, framed.inherited_of_last (written w (List.mem_of_getElem? here)) own here there]
    at inherits
  have field : (Part.fields 0 (Part.ofFrames inherited frames))[i + 1]? = some (p.field (i + 1)) := by
    rw [Part.getElem?_fields, there, Option.map_some, Nat.zero_add]
  refine ⟨p.field (i + 1), ?_, rfl, by rw [Part.field, whole]⟩
  rw [← inherits]
  refine Form.get?_ofFields_of_getElem? field fun j later after beyond => ?_
  rw [Part.getElem?_fields] at beyond
  obtain ⟨q, last, rfl⟩ := Option.map_eq_some_iff.mp beyond
  obtain ⟨_, _, ⟨inside, _⟩ | ⟨rfl, _⟩⟩ := framed.cases (Part.frame_of_getElem? last)
  · omega
  · omega

end FramedUpTo

end WrittenItem

namespace Decoder

open WrittenItem

/-- Wherever the body of a written form is cut off, it is accepted, and every part that is there with
the delimiter behind it gives the field that was written, except where the cut stands behind the
opening line of the next part and in front of the end of the line that names that part: then the next
part takes the place of the field, and is empty. -/
theorem decode_take_encode (boundary : String) (preamble : List Bytes) (parts : List WrittenItem)
    (epilogue : Bytes) (n : Nat) (plain : '\r' ∉ boundary.toList)
    (skipped : ∀ line ∈ preamble, IsLine line ∧ ¬ (Markers.ofBoundary boundary).delimiter <+: line)
    (written : ∀ w ∈ parts, w.Proper (.ofBoundary boundary))
    (named : ∀ w ∈ parts, w.item.name.isSome) (distinct : (parts.map (·.item.name)).Nodup)
    (fits : ((encode (.ofBoundary boundary) preamble parts epilogue).take n).length ≤
      noLimit.toNat) :
    let m := Markers.ofBoundary boundary
    ∃ form, ((Decoder.mk boundary .lenient).decode
        ((encode m preamble parts epilogue).take n)).result = .ok form ∧
      ∀ i w name, parts[i]? = some w → w.item.name = some name →
        offset m preamble parts (i + 1) + m.delimiter.length ≤ n →
        ((∀ next, parts[i + 1]? = some next →
            ¬ next.Nameless m (n - offset m preamble parts (i + 1))) →
          form.get? name = some (w.item.field name i)) ∧
        ∀ next, parts[i + 1]? = some next →
          next.Nameless m (n - offset m preamble parts (i + 1)) →
          ∃ field, form.get? name = some field ∧ field.index = i + 1 ∧ field.content = [] := by
  intro m
  have proper : m.Proper := Markers.proper_ofBoundary boundary
  obtain ⟨k, complete, framed⟩ :=
    exists_framedUpTo proper (Markers.delimiter_fresh plain) skipped written epilogue n
  have small : ∀ f ∈ (Framing.ofBytes m ((encode m preamble parts epilogue).take n)).frames,
      f.content.length ≤ noLimit.toNat := fun f mem =>
    Nat.le_trans (Framing.length_content_le mem) fits
  refine ⟨_, result_decode_eq_ok_iff.mpr
    ⟨fits, fun p mem => framed.obeys written small mem, nofun, rfl⟩, ?_⟩
  intro i w name here own received
  have before : i < k := (complete i (List.getElem?_eq_some_iff.mp here).1).mpr received
  constructor
  · intro nextNamed
    refine framed.get?_of_lt written named distinct here own before ?_ ""
    rintro next following rfl
    exact nextNamed next following
  · intro next following nameless
    have missing : ¬ i + 1 < k := by
      rw [complete (i + 1) (List.getElem?_eq_some_iff.mp following).1]
      exact not_received_of_nameless following nameless
    obtain rfl : k = i + 1 := by omega
    exact framed.get?_of_nameless written named here own following nameless ""

def fooAndBar : List WrittenItem :=
  [.plain ⟨⟨some "a", none⟩, none, false, [102, 111, 111]⟩,
    .plain ⟨⟨some "b", none⟩, none, false, [98, 97, 114]⟩]

theorem proper_fooAndBar : ∀ w ∈ fooAndBar, w.Proper (.ofBoundary "X") := by
  rw [fooAndBar, List.forall_mem_cons, List.forall_mem_cons]
  exact ⟨proper_plain ⟨by decide, by decide⟩ (by decide),
    proper_plain ⟨by decide, by decide⟩ (by decide), List.forall_mem_nil _⟩

theorem decode_take_encode_fooAndBar :
    ∃ form, ((Decoder.mk "X" .lenient).decode
        ((encode (.ofBoundary "X") [] fooAndBar []).take 101)).result = .ok form ∧
      form.get? "a" = some ⟨"a", none, none, none, 0, [102, 111, 111]⟩ := by
  obtain ⟨form, decoded, found⟩ := decode_take_encode "X" [] fooAndBar [] 101 (by decide)
    (List.forall_mem_nil _) proper_fooAndBar (by decide) (by decide) (by decide +kernel)
  refine ⟨form, decoded, (found 0 _ "a" rfl rfl (by decide +kernel)).1 ?_⟩
  rintro next following ⟨_, unnamed⟩
  cases following
  exact absurd unnamed (by decide +kernel)

/-- The field of a part that is there as a whole, with the delimiter behind it, can be lost. -/
theorem received_field_lost :
    (∀ w ∈ fooAndBar, w.Proper (.ofBoundary "X") ∧ w.item.name.isSome) ∧
      (fooAndBar.map (·.item.name)).Nodup ∧
      offset (.ofBoundary "X") [] fooAndBar 1 + (Markers.ofBoundary "X").delimiter.length ≤ 59 ∧
      ∃ w form, fooAndBar[0]? = some w ∧
        ((Decoder.mk "X" .lenient).decode
          ((encode (.ofBoundary "X") [] fooAndBar []).take 59)).result = .ok form ∧
        form.get? "a" = some ⟨"a", none, none, none, 1, []⟩ ∧
        form.get? "a" ≠ some (w.item.field "a" 0) := by
  have decoded : ((Decoder.mk "X" .lenient).decode
      ((encode (.ofBoundary "X") [] fooAndBar []).take 59)).result =
        .ok (.ofFields [⟨"a", none, none, none, 0, [102, 111, 111]⟩, ⟨"a", none, none, none, 1, []⟩]) := by
    decide +kernel
  have last : (Form.ofFields [⟨"a", none, none, none, 0, [102, 111, 111]⟩,
      ⟨"a", none, none, none, 1, []⟩]).get? "a" = some ⟨"a", none, none, none, 1, []⟩ := by decide
  refine ⟨?_, by decide, by decide +kernel, _, _, rfl, decoded, last, ?_⟩
  · exact fun w mem => ⟨proper_fooAndBar w mem, by revert w; decide⟩
  · rw [last]
    decide

end Decoder
end FormBody
