import FormBody.Proofs.Parameter.Entries
import FormBody.Proofs.Parameter.Positions
import Mathlib.Data.List.DropRight

/-! What a list of parameters takes from any text, well formed or not. The reader ends after a number of
passes that the length of the text bounds, keys and values are stretches of the text in their order with
nothing added, and every parameter uses up two characters. -/
namespace FormBody

open List

namespace Text

theorem prefix_trimRight (text : List Char) : trimRight text <+: text := rdropWhile_prefix isBlank text

theorem trimLeft_sublist (text : List Char) : trimLeft text <+ text := dropWhile_sublist isBlank

theorem trim_sublist (text : List Char) : trim text <+ text :=
  (prefix_trimRight _).sublist.trans (trimLeft_sublist text)

/-- Trimmed text has no blanks left at its ends. -/
theorem trim_trim (text : List Char) : trim (trim text) = trim text := by
  have solid : ∀ c ∈ (trim text).head?, isBlank c = false := by
    intro c head
    cases shown : trimLeft text with
    | nil =>
      rw [trim, shown] at head
      cases head
    | cons d rest =>
      have first : isBlank d = false := stop_of_dropWhile shown
      obtain ⟨behind, split⟩ := prefix_trimRight (trimLeft text)
      cases kept : trim text with
      | nil => rw [kept] at head; cases head
      | cons e others =>
        rw [kept] at head
        obtain rfl := Option.some.inj head
        rw [← trim, kept, shown] at split
        rwa [(List.cons.inj split).1]
  have right : trimRight (trim text) = trim text := rdropWhile_idempotent isBlank (trimLeft text)
  rw [trim, trimLeft_eq_self solid, right]

end Text

namespace Parameter

open Text

theorem Quoted.unescape_sublist (input : List Char) : (unescape input).1 ++ (unescape input).2 <+ input := by
  fun_induction unescape input with
  | case1 => exact .slnil
  | case2 rest => exact sublist_cons_self _ rest
  | case3 => exact nil_sublist _
  | case4 c rest ih => exact (ih.cons_cons c).cons _
  | case5 c rest _ _ _ ih => exact ih.cons_cons c

variable {text : List Char}

theorem readValue_sublist (text : List Char) : (readValue text).1 ++ (readValue text).2 <+ text := by
  refine Sublist.trans ?_ (trimLeft_sublist text)
  unfold readValue
  generalize trimLeft text = shown
  split
  · next quoted =>
    rw [Quoted.read_eq_unescape]
    exact (Quoted.unescape_sublist quoted).cons _
  · have cut : shown.takeWhile (· != ';') ++ shown.dropWhile (· != ';') = shown :=
      takeWhile_append_dropWhile
    conv_rhs => rw [← cut]
    exact (prefix_trimRight _).sublist.append_right _

theorem readEntry_sublist (text : List Char) :
    (readEntry text).1.key ++ (readEntry text).1.value ++ (readEntry text).2 <+ text := by
  have cut : text.takeWhile (!endsKey ·) ++ text.dropWhile (!endsKey ·) = text := takeWhile_append_dropWhile
  have key := trim_sublist (text.takeWhile (!endsKey ·))
  conv_rhs => rw [← cut]
  unfold readEntry
  split
  · next rest behind =>
    rw [behind, append_assoc]
    exact key.append ((readValue_sublist rest).cons _)
  · next rest _ =>
    rw [append_nil]
    exact key.append_right _

theorem key_readEntry (text : List Char) :
    (readEntry text).1.key = trim (text.takeWhile (!endsKey ·)) := by
  unfold readEntry
  split <;> rfl

theorem isKey_readEntry (nonempty : (readEntry text).1.key ≠ []) : IsKey (readEntry text).1.key := by
  refine ⟨nonempty, ?_, ?_⟩
  · rw [key_readEntry, all_eq_true]
    intro c mem
    have inKey := (trim_sublist _).subset mem
    have free := mem_takeWhile_imp inKey
    exact free
  · rw [key_readEntry, trim_trim]

theorem rest_of_readEntry (nonempty : (readEntry text).1.key ≠ []) :
    (readEntry text).2 = [] ∨ ((readEntry text).2.dropWhile isSeparator).length + 2 ≤ text.length := by
  have inKey : text.takeWhile (!endsKey ·) ≠ [] := by
    intro nothing
    rw [key_readEntry, nothing] at nonempty
    exact nonempty rfl
  have whole := congrArg length (takeWhile_append_dropWhile : text.takeWhile (!endsKey ·) ++ _ = text)
  have letters := length_pos_iff.mpr inKey
  rw [length_append] at whole
  unfold readEntry
  split
  -- Behind the key the second character is the equals sign, or else the semicolon of the next entry.
  · next rest behind =>
    have used := length_readValue_le rest
    have skipped := length_dropWhile_le isSeparator (readValue rest).2
    rw [behind, length_cons] at whole
    right
    dsimp only
    omega
  · next rest other =>
    cases behind : text.dropWhile (!endsKey ·) with
    | nil => exact .inl rfl
    | cons c tail =>
      have skipped := length_dropWhile_le isSeparator tail
      have ending : c = '=' ∨ c = ';' := by
        simpa [endsKey, or_iff_not_imp_left] using stop_of_dropWhile behind
      obtain rfl := ending.resolve_left fun equals => other tail (equals ▸ behind)
      rw [behind, length_cons] at whole
      right
      change (tail.dropWhile isSeparator).length + 2 ≤ _
      omega

theorem length_rest_readEntry {c : Char} {rest : List Char} (skipped : text.dropWhile isSeparator = c :: rest) :
    ((readEntry (c :: rest)).2.dropWhile isSeparator).length < (c :: rest).length := by
  have start : c ≠ ';' := by
    rintro rfl
    exact absurd (stop_of_dropWhile skipped) (by decide)
  exact Nat.lt_of_le_of_lt (length_dropWhile_le _ _) (length_readEntry_lt start)

theorem two_mul_length_entries_le (text : List Char) :
    2 * (entries text).length ≤ (text.dropWhile isSeparator).length + 1 := by
  fun_induction entries text with
  | case1 => exact Nat.zero_le _
  | case2 text c rest skipped entry empty ih =>
    have shorter : (entry.2.dropWhile isSeparator).length < (c :: rest).length := length_rest_readEntry skipped
    rw [skipped]
    omega
  | case3 text c rest skipped entry filled ih =>
    have left : entry.2 = [] ∨ (entry.2.dropWhile isSeparator).length + 2 ≤ (c :: rest).length :=
      rest_of_readEntry (by simpa using filled)
    have count : (entry.1 :: entries entry.2).length = (entries entry.2).length + 1 := length_cons
    rw [skipped, count]
    rcases left with nothing | used
    -- Only the last parameter of a list can be a single character.
    · rw [nothing, entries_of_nil rfl]
      simp
    · omega

theorem isKey_of_mem_entries : ∀ p ∈ entries text, IsKey p.key := by
  fun_induction entries text with
  | case1 => exact forall_mem_nil _
  | case2 text c rest skipped entry empty ih => exact ih
  | case3 text c rest skipped entry filled ih =>
    exact forall_mem_cons.mpr ⟨isKey_readEntry (by simpa using filled), ih⟩

/-- The keys and values of a list, without the marks around them, are read from its text in order. -/
theorem entries_sublist (text : List Char) : (entries text).flatMap (fun p => p.key ++ p.value) <+ text := by
  fun_induction entries text with
  | case1 => exact nil_sublist _
  | case2 text c rest skipped entry empty ih =>
    have left : entry.2 <+ c :: rest := (sublist_append_right _ _).trans (readEntry_sublist _)
    exact ih.trans (left.trans (skipped ▸ dropWhile_sublist _))
  | case3 text c rest skipped entry filled ih =>
    have first : entry.1.key ++ entry.1.value ++ entry.2 <+ c :: rest := readEntry_sublist _
    rw [flatMap_cons]
    exact (ih.append_left _).trans (first.trans (skipped ▸ dropWhile_sublist _))

theorem split_sublist (value : List Char) : (split value).1 ++ (split value).2 <+ value := by
  have cut : value.takeWhile (· != ';') ++ value.dropWhile (· != ';') = value := takeWhile_append_dropWhile
  conv_rhs => rw [← cut]
  exact (trim_sublist _).append (drop_sublist 1 _)

theorem list_of_split (value : List Char) : (split value).2 = [] ∨ (split value).2.length < value.length := by
  have shorter := length_dropWhile_le (· != ';') value
  rw [split]
  cases behind : value.dropWhile (· != ';') with
  | nil => exact .inl rfl
  | cons c rest =>
    rw [behind] at shorter
    exact .inr shorter

/-- The reader goes through a list in a number of passes, and comes to these parameters. -/
inductive TakesPasses : Nat → List Char → List Parameter → Prop where
  | ended {text : List Char} : pass? text = some .ended → TakesPasses 1 text []
  | skipped {n : Nat} {text rest : List Char} {params : List Parameter} :
      pass? text = some (.skipped rest) → TakesPasses n rest params → TakesPasses (n + 1) text params
  | entry {n : Nat} {text rest : List Char} {p : Parameter} {params : List Parameter} :
      pass? text = some (.entry p rest) → TakesPasses n rest params →
      TakesPasses (n + 1) text (p :: params)

theorem TakesPasses.unique {n k : Nat} {params others : List Parameter} (first : TakesPasses n text params)
    (second : TakesPasses k text others) : k = n ∧ others = params := by
  induction first generalizing k others with
  | ended passed => cases second <;> simp_all
  | skipped passed _ ih =>
    cases second with
    | ended | entry => simp_all
    | skipped again rest =>
      cases passed.symm.trans again
      obtain ⟨rfl, rfl⟩ := ih rest
      exact ⟨rfl, rfl⟩
  | entry passed _ ih =>
    cases second with
    | ended | skipped => simp_all
    | entry again rest =>
      cases passed.symm.trans again
      obtain ⟨rfl, rfl⟩ := ih rest
      exact ⟨rfl, rfl⟩

theorem exists_takesPasses (text : List Char) :
    ∃ n ≤ text.length + 1, TakesPasses n text (entries text) := by
  fun_induction entries text with
  | case1 text skipped =>
    refine ⟨1, Nat.le_add_left _ _, .ended ?_⟩
    rw [pass?_eq, skipped]
  | case2 text c rest skipped entry empty ih =>
    obtain ⟨n, few, passes⟩ := ih
    have shorter : entry.2.length < text.length := length_readEntry_lt_of_dropWhile skipped
    refine ⟨n + 1, by omega, .skipped ?_ passes⟩
    rw [pass?_eq, skipped]
    exact congrArg some (if_pos empty)
  | case3 text c rest skipped entry filled ih =>
    obtain ⟨n, few, passes⟩ := ih
    have shorter : entry.2.length < text.length := length_readEntry_lt_of_dropWhile skipped
    refine ⟨n + 1, by omega, .entry ?_ passes⟩
    rw [pass?_eq, skipped]
    exact congrArg some (if_neg filled)

/-- Whatever text a header value is, a token and a list of parameters are read from it. Every cut on the way
is made at a byte where a character begins or the text ends, and the list comes to its end after at most one
pass for each character and one more. A parameter costs two characters. Its key is not empty, has no equals
sign, no semicolon and no blanks around it, and token, keys and values in their order are characters of the
text in theirs, each one used once. -/
theorem entries_take_from_text (value : List Char) :
    let token := (split value).1
    let list := (split value).2
    let params := entries list
    splitAt? value = some (token, list) ∧
      (∃ n ≤ list.length + 1, TakesPasses n list params ∧
        ∀ k others, TakesPasses k list others → k = n ∧ others = params) ∧
      2 * params.length ≤ value.length ∧
      (∀ p ∈ params, p.key ≠ [] ∧ '=' ∉ p.key ∧ ';' ∉ p.key ∧ trim p.key = p.key) ∧
      token ++ params.flatMap (fun p => p.key ++ p.value) <+ value := by
  intro token list params
  refine ⟨splitAt?_eq value, ?_, ?_, fun p mem => ?_, ?_⟩
  · obtain ⟨n, few, passes⟩ := exists_takesPasses list
    exact ⟨n, few, passes, fun k others => passes.unique⟩
  · have few := two_mul_length_entries_le list
    have skipped := length_dropWhile_le isSeparator list
    rcases list_of_split value with nothing | shorter
    · have absent : params = [] := entries_of_nil (congrArg (dropWhile isSeparator) nothing)
      rw [absent]
      exact Nat.zero_le _
    · change list.length < value.length at shorter
      change 2 * (entries list).length ≤ value.length
      omega
  · obtain ⟨nonempty, free, trimmed⟩ := isKey_of_mem_entries p mem
    rw [all_eq_true] at free
    refine ⟨nonempty, fun mem => absurd (free _ mem) (by decide), fun mem => absurd (free _ mem) (by decide),
      trimmed⟩
  · exact ((entries_sublist list).append_left token).trans (split_sublist value)

example : entries (split "; =\u3000; a = \\ ;\"b\"=\"c\\".toList).2 =
    [⟨"a".toList, "\\".toList⟩, ⟨"\"b\"".toList, "c".toList⟩] := by decide +kernel

end Parameter
end FormBody
