/-!
Quoted values: the text up to the next double quote, in which a backslash takes the character
after it literally.
-/
namespace FormBody.Parameter.Quoted

/-- Reads on at `rest`, behind the first `length` characters of `input`. As long as no backslash
has been met the value is a plain stretch of the input; `own` is the value read so far from the
first backslash on, latest character first. -/
def readFrom (input : List Char) (length : Nat) (own : Option (List Char)) :
    List Char → List Char × List Char
  | [] => ((own.map List.reverse).getD input, [])
  | '"' :: rest => ((own.map List.reverse).getD (input.take length), rest)
  | ['\\'] => ((own.map List.reverse).getD (input.take length), [])
  | '\\' :: c :: rest =>
    readFrom input (length + 2) (some (c :: own.getD (input.take length).reverse)) rest
  | c :: rest => readFrom input (length + 1) (own.map (c :: ·)) rest

/-- Reads a value behind its opening quote. The result is the value and what follows the closing
quote; without a closing quote the value is all of the input, and a backslash at its very end
stands for nothing. -/
def read (input : List Char) : List Char × List Char := readFrom input 0 none input

theorem length_readFrom_le (input : List Char) (length : Nat) (own : Option (List Char))
    (rest : List Char) : (readFrom input length own rest).2.length ≤ rest.length := by
  fun_induction readFrom input length own rest with
  | case1 | case3 => simp
  | case2 => simp
  | case4 _ _ _ _ ih => simp only [List.length_cons]; omega
  | case5 _ _ _ _ _ _ _ ih => simp only [List.length_cons]; omega

theorem length_read_le (input : List Char) : (read input).2.length ≤ input.length :=
  length_readFrom_le input 0 none input

end FormBody.Parameter.Quoted
