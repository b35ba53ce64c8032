import FormBody.Parameter.Quoted

/-! Quoted values read one character at a time. The reader that copies only from the first backslash
on gives the same value, what a text without free quotes stands for, and it gives back a text that was
written with its marks escaped. -/
namespace FormBody.Parameter.Quoted

/-- The value in front of the first free quote, every backslash resolved, and what follows. -/
def unescape : List Char → List Char × List Char
  | [] => ([], [])
  | '"' :: rest => ([], rest)
  | ['\\'] => ([], [])
  | '\\' :: c :: rest => (c :: (unescape rest).1, (unescape rest).2)
  | c :: rest => (c :: (unescape rest).1, (unescape rest).2)

/-- While nothing has been copied the value read so far is the input in front of the rest. -/
theorem readFrom_eq_unescape {input rest : List Char} {length : Nat} {own : Option (List Char)}
    (here : own = none → input.drop length = rest) :
    readFrom input length own rest =
      ((own.map List.reverse).getD (input.take length) ++ (unescape rest).1, (unescape rest).2) := by
  fun_induction readFrom input length own rest with
  | case1 length own =>
    cases own with
    | none => simp [unescape, List.take_of_length_le (List.drop_eq_nil_iff.mp (here rfl))]
    | some own => simp [unescape]
  | case2 => simp [unescape]
  | case3 => simp [unescape]
  | case4 length own c rest ih =>
    rw [ih fun missing => absurd missing (Option.some_ne_none _), unescape]
    cases own <;> simp
  | case5 length own c rest noQuote notLast noEscape ih =>
    have value : unescape (c :: rest) = (c :: (unescape rest).1, (unescape rest).2) := by
      rw [unescape] <;> assumption
    cases own with
    | none =>
      have here := here rfl
      have next : input.drop (length + 1) = rest := by rw [← List.drop_drop, here]; rfl
      have taken : input.take (length + 1) = input.take length ++ [c] := by
        rw [List.take_add, here]
        rfl
      rw [ih fun _ => next, value]
      simp [taken]
    | some own =>
      rw [ih fun missing => absurd missing (Option.some_ne_none _), value]
      simp

theorem read_eq_unescape (input : List Char) : read input = unescape input := by
  rw [read, readFrom_eq_unescape fun _ => List.drop_zero]
  simp

/-- A text in which no quote is free, and what it stands for. -/
inductive Resolves : List Char → List Char → Prop where
  | nil : Resolves [] []
  | plain {c : Char} {text value : List Char} (noQuote : c ≠ '"') (noBackslash : c ≠ '\\') :
      Resolves text value → Resolves (c :: text) (c :: value)
  | taken {text value : List Char} (c : Char) :
      Resolves text value → Resolves ('\\' :: c :: text) (c :: value)

variable {text value : List Char}

theorem Resolves.append {other more : List Char} (first : Resolves text value)
    (second : Resolves other more) : Resolves (text ++ other) (value ++ more) := by
  induction first with
  | nil => exact second
  | plain noQuote noBackslash _ ih => exact .plain noQuote noBackslash ih
  | taken c _ ih => exact .taken c ih

theorem Resolves.eq_self (resolves : Resolves text value) (free : '\\' ∉ text) : text = value := by
  induction resolves with
  | nil => rfl
  | plain _ _ _ ih => rw [ih fun mem => free (List.mem_cons_of_mem _ mem)]
  | taken c => exact absurd List.mem_cons_self free

theorem Resolves.unescape_append (resolves : Resolves text value) (rest : List Char) :
    unescape (text ++ rest) = (value ++ (unescape rest).1, (unescape rest).2) := by
  induction resolves with
  | nil => rfl
  | plain noQuote noBackslash _ ih =>
    rw [List.cons_append, unescape, ih]
    · rfl
    · exact noQuote
    · exact fun same _ => noBackslash same
    · exact fun _ _ same _ => noBackslash same
  | taken c _ ih =>
    rw [List.cons_append, List.cons_append, unescape, ih]
    rfl

/-- Puts a backslash in front of every marked character. -/
def escape (marked text : List Char) : List Char :=
  text.flatMap fun c => if c ∈ marked then ['\\', c] else [c]

/-- An escaped text stands for the text if at least quotes and backslashes are escaped. -/
theorem resolves_escape {marked : List Char} (quote : '"' ∈ marked) (backslash : '\\' ∈ marked)
    (text : List Char) : Resolves (escape marked text) text := by
  induction text with
  | nil => exact .nil
  | cons c text ih =>
    rw [escape, List.flatMap_cons]
    split
    · exact .taken c ih
    · next plain =>
      exact .plain (fun same => plain (same ▸ quote)) (fun same => plain (same ▸ backslash)) ih

theorem read_escape {marked : List Char} (quote : '"' ∈ marked) (backslash : '\\' ∈ marked)
    (text rest : List Char) : read (escape marked text ++ '"' :: rest) = (text, rest) := by
  rw [read_eq_unescape, (resolves_escape quote backslash text).unescape_append, unescape, List.append_nil]

end FormBody.Parameter.Quoted
