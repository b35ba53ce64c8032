/-!
Letter case in ASCII: `A`–`Z` and `a`–`z` are paired, every other character stands for itself.
-/
namespace FormBody.Text

def lower (text : List Char) : List Char := text.map Char.toLower

def eqIgnoreCase (a b : List Char) : Bool := lower a == lower b

theorem eqIgnoreCase_refl (a : List Char) : eqIgnoreCase a a := by simp [eqIgnoreCase]

end FormBody.Text
