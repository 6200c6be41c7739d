import QiIdl.Text.Alphabetic
import QiIdl.Text.Numeric

/-!
# Words

A word starts with a letter or an underscore, and goes on with letters, digits and underscores.
-/

namespace QiIdl.Text

def isWordStart (c : Char) : Bool := isAlphabetic c || c == '_'

/-- Whether a word may go on with a character. -/
def isWordPart (c : Char) : Bool := isAlphabetic c || isNumeric c || c == '_'

end QiIdl.Text
