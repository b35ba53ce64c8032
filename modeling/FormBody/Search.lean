/-!
Searching lists: the first occurrence of one list inside another.
-/
namespace FormBody

variable {α : Type}

/-- Searches from `offset` on, which is where `haystack` stands in the list searched. -/
def indexFrom? [BEq α] (needle : List α) (offset : Nat) : List α → Option Nat
  | [] => if needle.isEmpty then some offset else none
  | b :: rest =>
    if needle.isPrefixOf (b :: rest) then some offset
    else indexFrom? needle (offset + 1) rest

/-- The least offset at which `needle` occurs in `haystack`. -/
def index? [BEq α] (needle haystack : List α) : Option Nat := indexFrom? needle 0 haystack

theorem indexFrom?_eq [BEq α] (needle : List α) (offset : Nat) (haystack : List α) :
    indexFrom? needle offset haystack = (index? needle haystack).map (· + offset) := by
  suffices general : ∀ k, indexFrom? needle (k + offset) haystack =
      (indexFrom? needle k haystack).map (· + offset) by
    simpa [index?] using general 0
  induction haystack with
  | nil => intro k; by_cases h : needle.isEmpty <;> simp [indexFrom?, h]
  | cons b rest ih =>
    intro k
    have step := ih (k + 1)
    by_cases h : needle.isPrefixOf (b :: rest)
    · simp [indexFrom?, h]
    · simp only [indexFrom?, h, Bool.false_eq_true, if_false, ← step]
      congr 1; omega

theorem index?_nil [BEq α] (needle : List α) :
    index? needle [] = if needle.isEmpty then some 0 else none := rfl

theorem index?_cons [BEq α] (needle : List α) (b : α) (rest : List α) :
    index? needle (b :: rest) =
      if needle.isPrefixOf (b :: rest) then some 0 else (index? needle rest).map (· + 1) := by
  simp only [index?, indexFrom?]
  split
  · rfl
  · exact indexFrom?_eq needle 1 rest

theorem length_le_of_index? [BEq α] [LawfulBEq α] {needle haystack : List α} {i : Nat}
    (found : index? needle haystack = some i) : i + needle.length ≤ haystack.length := by
  induction haystack generalizing i with
  | nil =>
    rw [index?_nil] at found
    split at found
    · next h =>
      obtain rfl : 0 = i := by simpa using found
      simp [List.isEmpty_iff.mp h]
    · cases found
  | cons b rest ih =>
    rw [index?_cons] at found
    split at found
    · next h =>
      obtain rfl : 0 = i := by simpa using found
      have := (List.isPrefixOf_iff_prefix.mp h).length_le
      simpa using this
    · obtain ⟨j, hj, rfl⟩ := Option.map_eq_some_iff.mp found
      have := ih hj
      simp only [List.length_cons]
      omega

theorem length_dropWhile_le (p : α → Bool) (list : List α) :
    (list.dropWhile p).length ≤ list.length :=
  (List.dropWhile_sublist p).length_le

end FormBody
