import FormBody.Search

/-! What a search for the first occurrence finds, and which changes of the text it does not
notice: elements behind the occurrence, and a stretch in front that it cannot overlap. -/
namespace FormBody

variable {α : Type}

theorem prefix_of_prefix_append {a b c : List α} (h : a <+: b ++ c) (fits : a.length ≤ b.length) :
    a <+: b :=
  List.prefix_of_prefix_length_le h (List.prefix_append b c) fits

theorem prefix_of_prefix_append_cons {x : α} {a b c : List α} (h : a <+: b ++ x :: c)
    (fresh : x ∉ a) : a <+: b := by
  induction b generalizing a with
  | nil =>
    cases a with
    | nil => exact List.nil_prefix
    | cons y a =>
      obtain ⟨rfl, _⟩ := List.cons_prefix_cons.mp h
      exact absurd List.mem_cons_self fresh
  | cons y b ih =>
    cases a with
    | nil => exact List.nil_prefix
    | cons z a =>
      obtain ⟨same, tail⟩ := List.cons_prefix_cons.mp h
      have further := ih tail fun mem => fresh (List.mem_cons_of_mem _ mem)
      exact List.cons_prefix_cons.mpr ⟨same, further⟩

variable [BEq α] [LawfulBEq α] {needle haystack : List α} {i : Nat}

theorem index?_eq_some_iff : index? needle haystack = some i ↔
    needle <+: haystack.drop i ∧ ∀ j < i, ¬ needle <+: haystack.drop j := by
  induction haystack generalizing i with
  | nil =>
    rw [index?_nil]
    cases needle with
    | nil =>
      cases i with
      | zero => simp
      | succ i =>
        constructor
        · intro found
          simp at found
        · rintro ⟨_, first⟩
          exact absurd List.nil_prefix (first 0 (Nat.succ_pos i))
    | cons x tail => simp
  | cons b rest ih =>
    rw [index?_cons]
    by_cases here : needle <+: b :: rest
    · rw [if_pos (List.isPrefixOf_iff_prefix.mpr here)]
      constructor
      · intro found
        cases found
        exact ⟨here, fun j before => absurd before (Nat.not_lt_zero j)⟩
      · rintro ⟨_, first⟩
        cases i with
        | zero => rfl
        | succ i => exact absurd here (first 0 (Nat.succ_pos i))
    · rw [if_neg (mt List.isPrefixOf_iff_prefix.mp here)]
      cases i with
      | zero => simp [here]
      | succ i =>
        simp only [Option.map_eq_some_iff, Nat.add_right_cancel_iff, exists_eq_right, ih,
          List.drop_succ_cons]
        refine and_congr_right fun _ => ⟨fun first j before => ?_, fun first j before => ?_⟩
        · cases j with
          | zero => exact here
          | succ j => exact first j (Nat.lt_of_succ_lt_succ before)
        · exact first (j + 1) (Nat.succ_lt_succ before)

theorem index?_eq_none_iff : index? needle haystack = none ↔ ¬ needle <:+: haystack := by
  induction haystack with
  | nil => rw [index?_nil]; cases needle <;> simp
  | cons b rest ih =>
    rw [index?_cons, List.infix_cons_iff]
    by_cases here : needle <+: b :: rest
    · simp [here]
    · simp [here, ih]

theorem prefix_of_index? (found : index? needle haystack = some i) :
    needle <+: haystack.drop i :=
  (index?_eq_some_iff.mp found).1

theorem eq_append_of_index? (found : index? needle haystack = some i) :
    haystack = haystack.take i ++ (needle ++ haystack.drop (i + needle.length)) := by
  obtain ⟨behind, split⟩ := prefix_of_index? found
  have rest : haystack.drop (i + needle.length) = behind := by
    rw [← List.drop_drop, ← split, List.drop_left]
  rw [rest, split, List.take_append_drop]

theorem not_infix_take_of_lt {n : Nat} (found : index? needle haystack = some i)
    (short : n < i + needle.length) : ¬ needle <:+: haystack.take n := by
  rintro ⟨front, back, split⟩
  have size := congrArg List.length split
  simp only [List.length_append, List.length_take] at size
  have whole := List.take_append_drop n haystack
  rw [← split, List.append_assoc, List.append_assoc] at whole
  apply (index?_eq_some_iff.mp found).2 front.length (by omega)
  rw [← whole, List.drop_left]
  exact List.prefix_append _ _

theorem not_infix_take_of_index? (found : index? needle haystack = some i) (nonempty : needle ≠ []) :
    ¬ needle <:+: haystack.take i :=
  not_infix_take_of_lt found (Nat.lt_add_of_pos_right (List.length_pos_iff.mpr nonempty))

theorem index?_drop {k : Nat} (none : ∀ j < k, ¬ needle <+: haystack.drop j) :
    index? needle haystack = (index? needle (haystack.drop k)).map (· + k) := by
  induction haystack generalizing k with
  | nil =>
    cases k with
    | zero => simp
    | succ k =>
      have nonempty := none 0 (Nat.succ_pos k)
      cases needle with
      | nil => simp at nonempty
      | cons x tail => rfl
  | cons b rest ih =>
    cases k with
    | zero => simp
    | succ k =>
      have here := none 0 (Nat.succ_pos k)
      rw [List.drop_zero] at here
      have later := ih fun j before => none (j + 1) (Nat.succ_lt_succ before)
      rw [index?_cons, if_neg (mt List.isPrefixOf_iff_prefix.mp here), later, Option.map_map]
      rfl

/-- What stands behind the first occurrence does not matter. -/
theorem index?_take_append (found : index? needle haystack = some i) (more : List α) :
    index? needle (haystack.take i ++ (needle ++ more)) = some i := by
  have fits := length_le_of_index? found
  have size : (haystack.take i).length = i := by
    rw [List.length_take]
    omega
  have whole := eq_append_of_index? found
  obtain ⟨_, first⟩ := index?_eq_some_iff.mp found
  refine index?_eq_some_iff.mpr ⟨?_, fun j before occurs => first j before ?_⟩
  · rw [List.drop_left' size]
    exact List.prefix_append _ _
  · rw [← List.append_assoc, List.drop_append_of_le_length (by simp only [List.length_append]; omega)]
      at occurs
    have inside := prefix_of_prefix_append occurs
      (by simp only [List.length_drop, List.length_append]; omega)
    rw [whole, ← List.append_assoc,
      List.drop_append_of_le_length (by simp only [List.length_append]; omega)]
    exact inside.trans (List.prefix_append _ _)

/-- A needle that does not hold its first element again cannot overlap itself, so that it is found
where it stands first. -/
theorem index?_append_needle {x : α} {tail front : List α} (back : List α) (fresh : x ∉ tail)
    (apart : ¬ x :: tail <:+: front) :
    index? (x :: tail) (front ++ (x :: tail ++ back)) = some front.length := by
  induction front with
  | nil =>
    rw [List.nil_append, List.cons_append, index?_cons, if_pos]
    · rfl
    · exact List.isPrefixOf_iff_prefix.mpr (List.prefix_append (x :: tail) back)
  | cons c front ih =>
    rw [List.infix_cons_iff, not_or] at apart
    rw [List.cons_append, index?_cons, if_neg, ih apart.2]
    · rfl
    · intro here
      obtain ⟨same, tails⟩ := List.cons_prefix_cons.mp (List.isPrefixOf_iff_prefix.mp here)
      rw [List.cons_append] at tails
      have inside := prefix_of_prefix_append_cons tails fresh
      exact apart.1 (List.cons_prefix_cons.mpr ⟨same, inside⟩)

end FormBody
