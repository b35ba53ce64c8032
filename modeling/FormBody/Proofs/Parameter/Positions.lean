import FormBody.Proofs.Parameter.Copying
import FormBody.Parameter.Basic

/-! Parameter lists read by the positions of bytes. The reader that cuts its text at such positions always
can, and it reads what the reader of characters reads. -/
namespace FormBody

namespace Parameter

open Text

def splitAt? (value : List Char) : Option (List Char × List Char) :=
  match indexAt? (· == ';') value with
  | none => some (trim value, [])
  | some i =>
    (cutAt? value i).bind fun token => (cutAt? value (i + 1)).map fun list => (trim token.1, list.2)

def readValueAt? (text : List Char) : Option (List Char × List Char) :=
  let shown := trimLeft text
  if shown.head? = some '"' then (cutAt? shown 1).bind fun cut => Quoted.readAt? cut.2
  else
    let stop := (indexAt? (· == ';') shown).getD (byteLength shown)
    (cutAt? shown stop).map fun cut => (trimRight cut.1, cut.2)

/-- What one pass of the reader comes to, with the text that the next one begins with. -/
inductive Pass where
  | ended
  | skipped (rest : List Char)
  | entry (p : Parameter) (rest : List Char)
  deriving DecidableEq, Repr

def Pass.ofEntry (entry : Parameter × List Char) : Pass :=
  if entry.1.key.isEmpty then .skipped entry.2 else .entry entry.1 entry.2

/-- One pass of the reader of entries. -/
def pass? (text : List Char) : Option Pass :=
  let rest := text.dropWhile isSeparator
  if rest.isEmpty then some .ended
  else
    let stop := (indexAt? endsKey rest).getD (byteLength rest)
    (cutAt? rest stop).bind fun cut =>
      let key := trim cut.1
      if cut.2.head? = some '=' then
        (cutAt? rest (stop + 1)).bind fun behind =>
          (readValueAt? behind.2).map fun read => .ofEntry (⟨key, read.1⟩, read.2)
      else some (.ofEntry (⟨key, []⟩, cut.2))

theorem splitAt?_eq (value : List Char) : splitAt? value = some (split value) := by
  have found : indexAt? (· == ';') value = if (value.dropWhile (· != ';')).isEmpty then none
      else some (byteLength (value.takeWhile (· != ';'))) := indexAt?_eq (· == ';') value
  have whole : value.takeWhile (· != ';') ++ value.dropWhile (· != ';') = value :=
    List.takeWhile_append_dropWhile
  rw [splitAt?, found, split]
  cases behind : value.dropWhile (· != ';') with
  | nil =>
    rw [behind, List.append_nil] at whole
    rw [whole]
    rfl
  | cons c rest =>
    have semicolon : c = ';' := by simpa using stop_of_dropWhile behind
    obtain ⟨before, after⟩ := cuts_of_dropWhile behind (semicolon ▸ rfl)
    rw [List.isEmpty_cons, if_neg Bool.false_ne_true]
    dsimp only
    rw [before, after]
    rfl

theorem readValueAt?_eq (text : List Char) : readValueAt? text = some (readValue text) := by
  rw [readValueAt?, readValue]
  cases shown : trimLeft text with
  | nil => rfl
  | cons c rest =>
    by_cases quote : c = '"'
    · subst quote
      have opened : cutAt? ('"' :: rest) 1 = some (['"'], rest) := cutAt?_append ['"'] rest
      rw [List.head?_cons, if_pos rfl, opened]
      exact Quoted.readAt?_eq rest
    · have bare : cutAt? (c :: rest) ((indexAt? (· == ';') (c :: rest)).getD (byteLength (c :: rest))) =
          some ((c :: rest).takeWhile (· != ';'), (c :: rest).dropWhile (· != ';')) :=
        cutAt?_indexAt? (· == ';') (c :: rest)
      dsimp only
      rw [if_neg (by simpa using quote), bare]
      split
      · next same => exact absurd (List.cons.inj same).1 quote
      · rfl

theorem pass?_eq (text : List Char) : pass? text = some (match text.dropWhile isSeparator with
    | [] => .ended
    | c :: rest => .ofEntry (readEntry (c :: rest))) := by
  rw [pass?]
  cases skipped : text.dropWhile isSeparator with
  | nil => rfl
  | cons c rest =>
    have cut := cutAt?_indexAt? endsKey (c :: rest)
    dsimp only
    rw [List.isEmpty_cons, if_neg Bool.false_ne_true, cut, Option.bind_some, readEntry]
    dsimp only
    cases behind : (c :: rest).dropWhile (!endsKey ·) with
    | nil => rfl
    | cons d tail =>
      by_cases equals : d = '='
      · subst equals
        obtain ⟨-, after⟩ := cuts_of_dropWhile behind rfl
        have place : (indexAt? endsKey (c :: rest)).getD (byteLength (c :: rest)) =
            byteLength ((c :: rest).takeWhile (!endsKey ·)) := by
          rw [indexAt?_eq, behind]
          rfl
        rw [List.head?_cons, if_pos rfl, place, after, Option.bind_some, readValueAt?_eq]
        rfl
      · rw [if_neg (by simpa using equals)]
        split
        · next same => exact absurd (List.cons.inj same).1 equals
        · rfl

end Parameter
end FormBody
