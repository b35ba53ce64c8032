import FormBody.Proofs.Parameter.Entries

/-! The ways to write a list of parameters. An entry stands alone, bare or in quotes, with blanks of
either set around everything and any number of separators in front; whatever the mixture, what is read
back are the token and the parameters that were written. -/
namespace FormBody.Parameter

open Text

/-- The text of an entry from its key on. -/
inductive Spells : List Char → Parameter → Prop where
  | alone (key after : List Char) (word : IsKey key) (trailing : after.all isBlank) :
      Spells (key ++ after) ⟨key, []⟩
  | bare (key after before value behind : List Char) (word : IsKey key) (bare : IsBare value)
      (blank : (after ++ before ++ behind).all isBlank) :
      Spells (key ++ (after ++ '=' :: (before ++ (value ++ behind)))) ⟨key, value⟩
  /-- At least the quotes and backslashes of the value are escaped. -/
  | quoted (key after before marked value behind : List Char) (word : IsKey key) (quote : '"' ∈ marked)
      (backslash : '\\' ∈ marked) (blank : (after ++ before ++ behind).all isBlank) :
      Spells (key ++ (after ++ '=' :: (before ++ '"' :: (Quoted.escape marked value ++ '"' :: behind))))
        ⟨key, value⟩

/-- The text of a list from the separator of its first entry on. -/
inductive SpellsList : List Char → List Parameter → Prop where
  | nil (gap : List Char) (ends : EndsEntry gap) (separators : gap.all isGap) :
      SpellsList gap []
  | cons (gap : List Char) {entry list : List Char} {p : Parameter} {params : List Parameter}
      (separators : gap.all isGap) (first : Spells entry p)
      (others : SpellsList list params) : SpellsList (';' :: (gap ++ (entry ++ list))) (p :: params)

theorem Spells.entries_append {entry : List Char} {p : Parameter} (spelled : Spells entry p)
    {rest : List Char} (ends : EndsEntry rest) : entries (entry ++ rest) = p :: entries rest := by
  cases spelled with
  | alone key after word trailing =>
    rw [List.append_assoc]
    exact entries_of_readEntry (readEntry_alone word (List.all_eq_true.mp trailing) ends) word.nonempty
  | bare key after before value behind word bare blank =>
    simp only [List.all_append, Bool.and_eq_true, List.all_eq_true] at blank
    obtain ⟨⟨trailing, leading⟩, last⟩ := blank
    have read := readEntry_equals word trailing (before ++ (value ++ (behind ++ rest)))
    rw [readValue_bare leading bare last ends] at read
    simpa using entries_of_readEntry read word.nonempty
  | quoted key after before marked value behind word quote backslash blank =>
    simp only [List.all_append, Bool.and_eq_true, List.all_eq_true] at blank
    obtain ⟨⟨trailing, leading⟩, last⟩ := blank
    have read := readEntry_equals word trailing
      (before ++ '"' :: (Quoted.escape marked value ++ '"' :: (behind ++ rest)))
    rw [readValue_quoted leading quote backslash] at read
    have here := entries_of_readEntry read word.nonempty
    -- the reader stops right behind the quote, so that the blanks there go with the next gap
    rw [entries_gap fun c mem => isGap_of_isBlank (last c mem)] at here
    simpa using here

theorem SpellsList.endsEntry {list : List Char} {params : List Parameter}
    (spelled : SpellsList list params) : EndsEntry list := by
  cases spelled with
  | nil _ ends _ => exact ends
  | cons => exact endsEntry_cons _

theorem SpellsList.entries_eq {list : List Char} {params : List Parameter}
    (spelled : SpellsList list params) : entries list = params := by
  induction spelled with
  | nil gap _ separators =>
    have nothing := entries_gap (List.all_eq_true.mp separators) []
    rw [List.append_nil] at nothing
    exact nothing.trans (entries_of_nil rfl)
  | cons gap separators first others ih =>
    have all : ∀ c ∈ ';' :: gap, isGap c := List.forall_mem_cons.mpr ⟨rfl, List.all_eq_true.mp separators⟩
    rw [← List.cons_append, entries_gap all, first.entries_append others.endsEntry, ih]

/-- A token and a list of parameters come back from every text that spells them. -/
theorem split_of_spelled {token front back list : List Char} {params : List Parameter}
    (free : ';' ∉ token) (trimmed : trim token = token) (leading : front.all isBlank)
    (trailing : back.all isBlank) (spelled : SpellsList list params) :
    (split (front ++ (token ++ (back ++ list)))).1 = token ∧
      entries (split (front ++ (token ++ (back ++ list)))).2 = params := by
  rw [List.all_eq_true] at leading trailing
  have noBlank {blanks : List Char} (blank : ∀ c ∈ blanks, isBlank c) : ';' ∉ blanks :=
    fun mem => absurd (blank ';' mem) (by decide)
  have apart : ';' ∉ front ++ (token ++ back) := by
    simp only [List.mem_append, not_or]
    exact ⟨noBlank leading, free, noBlank trailing⟩
  obtain ⟨first, rest⟩ := split_append apart spelled.endsEntry
  rw [trim_append leading token trailing, trimmed] at first
  rw [spelled.entries_eq] at rest
  simpa using And.intro first rest

/-- A flag alone, a bare value with a blank in it, and a quoted one that looks like more parameters. -/
def mixedForms : List Char := "; flag ;; size = 3 4 ;\tname=\"a; b=\\\"c\\\"\" ;".toList

def mixedParams : List Parameter :=
  [⟨"flag".toList, []⟩, ⟨"size".toList, "3 4".toList⟩, ⟨"name".toList, "a; b=\"c\"".toList⟩]

theorem spellsList_mixedForms : SpellsList mixedForms mixedParams := by
  have flag : Spells "flag ".toList ⟨"flag".toList, []⟩ :=
    .alone "flag".toList [' '] (by decide) (by decide)
  have size : Spells "size = 3 4 ".toList ⟨"size".toList, "3 4".toList⟩ :=
    .bare "size".toList [' '] [' '] "3 4".toList [' '] (by decide) (by decide) (by decide)
  have name : Spells "name=\"a; b=\\\"c\\\"\" ".toList ⟨"name".toList, "a; b=\"c\"".toList⟩ :=
    .quoted "name".toList [] [] ['"', '\\'] "a; b=\"c\"".toList [' '] (by decide) (by decide) (by decide)
      (by decide)
  have ended : SpellsList ";".toList [] := .nil [';'] (endsEntry_cons []) (by decide)
  exact .cons [' '] (by decide) flag (.cons [';', ' '] (by decide) size
    (.cons ['\t'] (by decide) name ended))

theorem split_of_spelled_mixedForms :
    (split (" form-data ".toList ++ mixedForms)).1 = "form-data".toList ∧
      entries (split (" form-data ".toList ++ mixedForms)).2 = mixedParams := by
  have free : ';' ∉ "form-data".toList := by decide
  have trimmed : trim "form-data".toList = "form-data".toList := by decide
  have blank : [' '].all isBlank := by decide
  exact split_of_spelled free trimmed blank blank spellsList_mixedForms

def marks : List Char := ['"', '\\', '\n']

def render (p : Parameter) : List Char :=
  "; ".toList ++ (p.key ++ '=' :: '"' :: (Quoted.escape marks p.value ++ ['"']))

theorem spellsList_render {params : List Parameter} (keys : ∀ p ∈ params, IsKey p.key) :
    SpellsList (params.flatMap render) params := by
  induction params with
  | nil => exact .nil [] endsEntry_nil rfl
  | cons p params ih =>
    rw [List.forall_mem_cons] at keys
    have first : Spells (p.key ++ '=' :: '"' :: (Quoted.escape marks p.value ++ ['"'])) p :=
      .quoted p.key [] [] marks p.value [] keys.1 (by decide) (by decide) rfl
    exact .cons [' '] (by decide) first (ih keys.2)

end FormBody.Parameter
