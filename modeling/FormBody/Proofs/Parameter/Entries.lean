import FormBody.Parameter.Basic
import FormBody.Proofs.Parameter.Quoted
import FormBody.Proofs.Text

/-! Parameter lists read entry by entry. Behind every form of an entry the next one is read wherever
the entry ends, so that a list comes out as it was written. -/
namespace FormBody.Parameter

open Text

/-- A key that is read back as it was written. -/
structure IsKey (key : List Char) : Prop where
  nonempty : key ≠ []
  free : key.all (!endsKey ·)
  trimmed : trim key = key

instance (key : List Char) : Decidable (IsKey key) :=
  decidable_of_iff (key ≠ [] ∧ key.all (!endsKey ·) ∧ trim key = key)
    ⟨fun ⟨nonempty, free, trimmed⟩ => ⟨nonempty, free, trimmed⟩,
      fun word => ⟨word.nonempty, word.free, word.trimmed⟩⟩

/-- A value that is read back without quotes. -/
structure IsBare (value : List Char) : Prop where
  free : ';' ∉ value
  plain : value.head? ≠ some '"'
  trimmed : trim value = value

instance (value : List Char) : Decidable (IsBare value) :=
  decidable_of_iff (';' ∉ value ∧ value.head? ≠ some '"' ∧ trim value = value)
    ⟨fun ⟨free, plain, trimmed⟩ => ⟨free, plain, trimmed⟩,
      fun bare => ⟨bare.free, bare.plain, bare.trimmed⟩⟩

/-- What may stand behind an entry: nothing, or the separator of the next one. -/
def EndsEntry (text : List Char) : Prop := ∀ c ∈ text.head?, c = ';'

theorem endsEntry_nil : EndsEntry [] := nofun

theorem endsEntry_cons (text : List Char) : EndsEntry (';' :: text) :=
  fun _ head => (Option.some.inj head).symm

theorem EndsEntry.takeWhile_append {text rest : List Char} (ends : EndsEntry rest) (free : ';' ∉ text) :
    (text ++ rest).takeWhile (· != ';') = text ∧ (text ++ rest).dropWhile (· != ';') = rest := by
  refine takeWhile_append_stop (fun c mem => ?_) fun c head => ?_
  · exact bne_iff_ne.mpr fun same => free (same ▸ mem)
  · simp [ends c head]

theorem endsKey_of_isBlank {c : Char} (blank : isBlank c) : endsKey c = false := by
  suffices c ≠ '=' ∧ c ≠ ';' by simpa [endsKey] using this
  constructor <;> rintro rfl <;> exact absurd blank (by decide)

theorem entries_of_nil {text : List Char} (h : text.dropWhile isSeparator = []) :
    entries text = [] := by
  rw [entries]
  split
  · rfl
  · next c rest found => rw [h] at found; cases found

theorem entries_of_cons {c : Char} {text rest : List Char}
    (h : text.dropWhile isSeparator = c :: rest) :
    entries text = if (readEntry (c :: rest)).1.key.isEmpty then entries (readEntry (c :: rest)).2
      else (readEntry (c :: rest)).1 :: entries (readEntry (c :: rest)).2 := by
  rw [entries]
  split
  · next nothing => rw [h] at nothing; cases nothing
  · next d more found => rw [h] at found; cases found; rfl

theorem entries_append {front : List Char} (separators : ∀ c ∈ front, isSeparator c)
    (text : List Char) : entries (front ++ text) = entries text := by
  have skipped : (front ++ text).dropWhile isSeparator = text.dropWhile isSeparator :=
    List.dropWhile_append_of_pos separators
  cases found : text.dropWhile isSeparator with
  | nil => rw [entries_of_nil found, entries_of_nil (skipped.trans found)]
  | cons c rest => rw [entries_of_cons found, entries_of_cons (skipped.trans found)]

variable {key value before after behind marked text : List Char}

theorem readEntry_append (leading : ∀ c ∈ before, isBlank c) (text : List Char) :
    readEntry (before ++ text) = readEntry text := by
  have inKey : ∀ c ∈ before, (!endsKey c) = true := fun c mem => by
    rw [endsKey_of_isBlank (leading c mem)]
    rfl
  have trimmed (word : List Char) : trim (before ++ word) = trim word := by
    rw [trim, trimLeft_append leading, trim]
  simp only [readEntry, List.takeWhile_append_of_pos inKey, List.dropWhile_append_of_pos inKey, trimmed]

/-- The separators in front of an entry need not be skipped: what is read up to a semicolon among them
has no key, and blanks make no difference. -/
theorem entries_eq_readEntry (text : List Char) : entries text =
    if (readEntry text).1.key.isEmpty then entries (readEntry text).2
    else (readEntry text).1 :: entries (readEntry text).2 := by
  induction text with
  | nil => rfl
  | cons c text ih =>
    by_cases separator : isSeparator c
    · by_cases semicolon : c = ';'
      · subst semicolon
        rfl
      · have blank : ∀ d ∈ [c], isBlank d := by
          simp only [isSeparator, Bool.or_eq_true, beq_iff_eq, semicolon, false_or] at separator
          simpa using isBlank_of_isAsciiBlank separator
        have skipped : entries ([c] ++ text) = entries text := entries_append (by simpa using separator) text
        rw [← List.singleton_append, skipped, readEntry_append blank, ih]
    · exact entries_of_cons (by rw [List.dropWhile_cons, if_neg separator])

/-- What may stand between two entries: semicolons, and blanks of either set. -/
def isGap (c : Char) : Bool := c == ';' || isBlank c

theorem entries_gap {gap : List Char} (separators : ∀ c ∈ gap, isGap c) (text : List Char) :
    entries (gap ++ text) = entries text := by
  induction gap with
  | nil => rfl
  | cons c gap ih =>
    rw [List.forall_mem_cons] at separators
    rw [List.cons_append, ← List.singleton_append, ← ih separators.2]
    by_cases blank : isBlank c
    · rw [entries_eq_readEntry, readEntry_append (by simpa using blank), ← entries_eq_readEntry]
    · have semicolon : c = ';' := by simpa [isGap, blank] using separators.1
      exact entries_append (by simp [isSeparator, semicolon]) _

theorem isGap_of_isBlank {c : Char} (blank : isBlank c) : isGap c := by rw [isGap, blank, Bool.or_true]

theorem entries_of_readEntry {p : Parameter} {rest : List Char} (read : readEntry text = (p, rest))
    (nonempty : p.key ≠ []) : entries text = p :: entries rest := by
  rw [entries_eq_readEntry, read, if_neg (by simpa using nonempty)]

/-- The leading token goes up to the first separator, and it makes no difference to the list whether
that one still stands in front of it. -/
theorem split_append {token list : List Char} (free : ';' ∉ token) (ends : EndsEntry list) :
    (split (token ++ list)).1 = trim token ∧ entries (split (token ++ list)).2 = entries list := by
  obtain ⟨taken, dropped⟩ := ends.takeWhile_append free
  rw [split, taken, dropped]
  refine ⟨rfl, ?_⟩
  cases list with
  | nil => rfl
  | cons c rest =>
    obtain rfl := ends c rfl
    have separated : entries ([';'] ++ rest) = entries rest :=
      entries_append (List.all_eq_true.mp (by decide)) rest
    exact separated.symm

theorem readValue_quoted (leading : ∀ c ∈ before, isBlank c) (quote : '"' ∈ marked)
    (backslash : '\\' ∈ marked) (value rest : List Char) :
    readValue (before ++ '"' :: (Quoted.escape marked value ++ '"' :: rest)) = (value, rest) := by
  have start : trimLeft (before ++ '"' :: (Quoted.escape marked value ++ '"' :: rest)) =
      '"' :: (Quoted.escape marked value ++ '"' :: rest) := trimLeft_append leading _
  rw [readValue, start]
  exact Quoted.read_escape quote backslash value rest

theorem readValue_of_trimLeft {shown rest : List Char} (start : trimLeft text = shown ++ rest)
    (plain : (shown ++ rest).head? ≠ some '"') (free : ';' ∉ shown) (ends : EndsEntry rest) :
    readValue text = (trimRight shown, rest) := by
  obtain ⟨taken, dropped⟩ := ends.takeWhile_append free
  unfold readValue
  rw [start]
  split
  · next quoted h => rw [h] at plain; exact absurd rfl plain
  · rw [taken, dropped]

theorem readValue_nothing (leading : ∀ c ∈ before, isBlank c) {rest : List Char} (ends : EndsEntry rest) :
    readValue (before ++ rest) = ([], rest) := by
  have start : trimLeft (before ++ rest) = [] ++ rest := by
    rw [trimLeft_append leading]
    exact trimLeft_eq_self fun c head => by rw [ends c head]; decide
  refine readValue_of_trimLeft start ?_ List.not_mem_nil ends
  exact fun quote => absurd (ends '"' quote) (by decide)

theorem readValue_bare (leading : ∀ c ∈ before, isBlank c) (bare : IsBare value)
    (trailing : ∀ c ∈ behind, isBlank c) {rest : List Char} (ends : EndsEntry rest) :
    readValue (before ++ (value ++ (behind ++ rest))) = (value, rest) := by
  cases value with
  | nil =>
    -- Nothing but blanks stands between the equals sign and the separator.
    have blanks : ∀ c ∈ before ++ behind, isBlank c := List.forall_mem_append.mpr ⟨leading, trailing⟩
    rw [List.nil_append, ← List.append_assoc]
    exact readValue_nothing blanks ends
  | cons c value =>
    have solid : ∀ text, trimLeft (c :: value ++ text) = c :: value ++ text := fun text =>
      trimLeft_eq_self fun d head => Option.some.inj head ▸ isBlank_head_of_trim bare.trimmed
    have start : trimLeft (before ++ (c :: value ++ (behind ++ rest))) = (c :: value ++ behind) ++ rest := by
      rw [trimLeft_append leading, solid, List.append_assoc]
    have free : ';' ∉ c :: value ++ behind := by
      rw [List.mem_append, not_or]
      exact ⟨bare.free, fun mem => absurd (trailing ';' mem) (by decide)⟩
    have trimmed : trimRight (c :: value) = c :: value := by
      have front := solid []
      rw [List.append_nil] at front
      rw [← front, ← trim, bare.trimmed, front]
    rw [readValue_of_trimLeft start bare.plain free ends, trimRight_append _ trailing, trimmed]

theorem IsKey.takeWhile (word : IsKey key) (trailing : ∀ c ∈ after, isBlank c) {rest : List Char}
    (stop : ∀ c ∈ rest.head?, endsKey c) :
    trim ((key ++ (after ++ rest)).takeWhile (!endsKey ·)) = key ∧
      (key ++ (after ++ rest)).dropWhile (!endsKey ·) = rest := by
  have inKey : ∀ c ∈ key ++ after, (!endsKey c) = true := by
    intro c mem
    rcases List.mem_append.mp mem with inKey | inAfter
    · exact List.all_eq_true.mp word.free c inKey
    · rw [endsKey_of_isBlank (trailing c inAfter)]
      rfl
  have trimmed : trim ([] ++ (key ++ after)) = trim key := trim_append (List.forall_mem_nil _) key trailing
  obtain ⟨taken, dropped⟩ := takeWhile_append_stop inKey fun c head => by rw [stop c head]; rfl
  rw [← List.append_assoc, taken, dropped]
  exact ⟨trimmed.trans word.trimmed, rfl⟩

theorem readEntry_equals (word : IsKey key) (trailing : ∀ c ∈ after, isBlank c) (text : List Char) :
    readEntry (key ++ (after ++ '=' :: text)) = (⟨key, (readValue text).1⟩, (readValue text).2) := by
  have stop : ∀ c ∈ ('=' :: text).head?, endsKey c := by simp [endsKey]
  obtain ⟨taken, left⟩ := word.takeWhile trailing stop
  rw [readEntry, taken, left]
  rfl

theorem readEntry_alone (word : IsKey key) (trailing : ∀ c ∈ after, isBlank c) {rest : List Char}
    (ends : EndsEntry rest) : readEntry (key ++ (after ++ rest)) = (⟨key, []⟩, rest) := by
  obtain ⟨taken, left⟩ := word.takeWhile trailing fun c (head : c ∈ rest.head?) => by rw [ends c head]; rfl
  rw [readEntry, taken, left]
  cases rest with
  | nil => rfl
  | cons c rest =>
    obtain rfl := ends c rfl
    rfl

end FormBody.Parameter
