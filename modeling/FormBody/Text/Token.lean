/-!
Tokens: the words of which header names and media types are made.
-/
namespace FormBody.Text

def tokenMarks : List Char := "!#$%&'*+-.^_`|~".toList

def isToken (c : Char) : Bool := c.isAlphanum || tokenMarks.contains c

def isControl (c : Char) : Bool := c.toNat < 32 || c.toNat == 127

end FormBody.Text
