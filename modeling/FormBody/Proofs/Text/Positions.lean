import FormBody.Text.Utf8

/-! Texts cut by the positions of bytes. A text is kept in UTF-8, what is looked for is found at the offset of
a byte, and a text can be cut only where a character begins or the text ends. -/
namespace FormBody.Text

def byteLength (text : List Char) : Nat := (Utf8.encode text).length

theorem byteLength_append (a b : List Char) : byteLength (a ++ b) = byteLength a + byteLength b := by
  rw [byteLength, Utf8.encode, List.flatMap_append, List.length_append]
  rfl

theorem byteLength_cons (c : Char) (text : List Char) :
    byteLength (c :: text) = byteLength [c] + byteLength text := byteLength_append [c] text

theorem byteLength_pos (c : Char) : 0 < byteLength [c] := by
  rw [byteLength, Utf8.encode, List.flatMap_singleton, Utf8.encodeChar]
  split
  · exact Nat.succ_pos _
  · split
    · exact Nat.succ_pos _
    · split <;> exact Nat.succ_pos _

/-- The two parts of a text in front of and behind the offset of a byte, if a character begins there or the
text ends. -/
def cutAt? : List Char → Nat → Option (List Char × List Char)
  | text, 0 => some ([], text)
  | [], _ + 1 => none
  | c :: rest, offset + 1 =>
    if byteLength [c] ≤ offset + 1 then
      (cutAt? rest (offset + 1 - byteLength [c])).map fun (front, back) => (c :: front, back)
    else none

theorem cutAt?_eq_some_iff {text front back : List Char} {offset : Nat} :
    cutAt? text offset = some (front, back) ↔ text = front ++ back ∧ byteLength front = offset := by
  fun_induction cutAt? text offset generalizing front with
  | case1 text =>
    cases front with
    | nil => simp [byteLength, Utf8.encode]
    | cons c front =>
      have whole := byteLength_cons c front
      have pos := byteLength_pos c
      simp only [Option.some.injEq, Prod.mk.injEq, reduceCtorEq, false_and, false_iff]
      omega
  | case2 offset =>
    simp only [reduceCtorEq, false_iff]
    rintro ⟨split, size⟩
    rw [(List.append_eq_nil_iff.mp split.symm).1] at size
    cases size
  | case3 c rest offset fits ih =>
    constructor
    · intro cut
      obtain ⟨_, inner, same⟩ := Option.map_eq_some_iff.mp cut
      obtain ⟨rfl, rfl⟩ := Prod.mk.inj same
      obtain ⟨split, size⟩ := ih.mp inner
      rw [byteLength_cons, size]
      exact ⟨congrArg (c :: ·) split, by omega⟩
    · rintro ⟨split, size⟩
      cases front with
      | nil => cases size
      | cons d front =>
        obtain ⟨rfl, tail⟩ := List.cons.inj split
        rw [byteLength_cons] at size
        rw [ih.mpr ⟨tail, by omega⟩]
        rfl
  | case4 c rest offset large =>
    simp only [reduceCtorEq, false_iff]
    rintro ⟨split, size⟩
    cases front with
    | nil => cases size
    | cons d front =>
      obtain ⟨rfl, _⟩ := List.cons.inj split
      rw [byteLength_cons] at size
      omega

theorem cutAt?_append (front back : List Char) :
    cutAt? (front ++ back) (byteLength front) = some (front, back) :=
  cutAt?_eq_some_iff.mpr ⟨rfl, rfl⟩

theorem cutAt?_byteLength (text : List Char) : cutAt? text (byteLength text) = some (text, []) := by
  have whole := cutAt?_append text []
  rwa [List.append_nil] at whole

def indexAt? (p : Char → Bool) : List Char → Option Nat
  | [] => none
  | c :: rest => if p c then some 0 else (indexAt? p rest).map (byteLength [c] + ·)

theorem indexAt?_eq (p : Char → Bool) (text : List Char) :
    indexAt? p text =
      if (text.dropWhile (!p ·)).isEmpty then none else some (byteLength (text.takeWhile (!p ·))) := by
  induction text with
  | nil => rfl
  | cons c text ih =>
    rw [indexAt?, List.dropWhile_cons, List.takeWhile_cons, ih]
    by_cases here : p c
    · simp only [here, Bool.not_true, Bool.false_eq_true, if_true, if_false]
      rfl
    · rw [if_neg here]
      simp only [here, Bool.not_false, if_true, byteLength_cons c (text.takeWhile _)]
      split <;> rfl

theorem cutAt?_indexAt? (p : Char → Bool) (text : List Char) :
    cutAt? text ((indexAt? p text).getD (byteLength text)) =
      some (text.takeWhile (!p ·), text.dropWhile (!p ·)) := by
  have whole : text.takeWhile (!p ·) ++ text.dropWhile (!p ·) = text := List.takeWhile_append_dropWhile
  have split := cutAt?_append (text.takeWhile (!p ·)) (text.dropWhile (!p ·))
  rw [whole] at split
  rw [indexAt?_eq]
  split
  · next nothing =>
    rw [List.isEmpty_iff] at nothing
    rw [nothing, List.append_nil] at whole
    rw [nothing, whole, Option.getD_none]
    exact cutAt?_byteLength text
  · exact split

theorem cutAt?_succ {c : Char} (front back : List Char) (ascii : byteLength [c] = 1) :
    cutAt? (front ++ c :: back) (byteLength front + 1) = some (front ++ [c], back) := by
  have split := cutAt?_append (front ++ [c]) back
  rwa [byteLength_append, ascii, List.append_assoc] at split

theorem stop_of_dropWhile {p : Char → Bool} {text rest : List Char} {c : Char}
    (behind : text.dropWhile p = c :: rest) : p c = false := by
  have kept := List.head?_dropWhile_not p text
  rw [behind] at kept
  simpa using kept

/-- A text can be cut in front of the character at which a stretch ends, and behind it if it is ASCII. -/
theorem cuts_of_dropWhile {p : Char → Bool} {text rest : List Char} {c : Char}
    (behind : text.dropWhile p = c :: rest) (ascii : byteLength [c] = 1) :
    cutAt? text (byteLength (text.takeWhile p)) = some (text.takeWhile p, c :: rest) ∧
      cutAt? text (byteLength (text.takeWhile p) + 1) = some (text.takeWhile p ++ [c], rest) := by
  have whole : text.takeWhile p ++ c :: rest = text := behind ▸ List.takeWhile_append_dropWhile
  have before := cutAt?_append (text.takeWhile p) (c :: rest)
  have after := cutAt?_succ (text.takeWhile p) rest ascii
  rw [whole] at before after
  exact ⟨before, after⟩

end FormBody.Text
