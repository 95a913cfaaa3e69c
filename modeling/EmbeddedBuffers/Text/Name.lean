/-!
# Names

Identifiers: a letter or an underscore, then letters, digits and underscores, ASCII alone.
-/

namespace EmbeddedBuffers.Text

/-- Characters of a name after its first. -/
def isNameChar (c : Char) : Bool := c.isAlphanum || c == '_'

/-- Whether a text is a name. -/
def isName : List Char → Bool
  | [] => false
  | c :: rest => (c.isAlpha || c == '_') && rest.all isNameChar

end EmbeddedBuffers.Text
