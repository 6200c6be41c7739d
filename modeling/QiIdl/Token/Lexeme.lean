import QiIdl.Text.Word
import QiIdl.Text.Quoted
import QiIdl.Token.Basic

/-!
# Lexemes

A source text is cut into lexemes: blanks, line feeds, comments, and the words, signs, numbers and strings that
become tokens. Where a lexeme ends depends only on the characters it is made of and the next few, never on what
came before, so the text is the concatenation of its lexemes and each can be read on its own. Whether a comment
or a line feed becomes a token is settled later, with the layout.

A lexeme may be flawed. Reading goes on behind it, so that every flaw of a text is found in one pass.
-/

namespace QiIdl

/-- What can be wrong with the characters of a text. -/
inductive LexicalError where
  | unterminatedString
  | unknownEscape (c : Char)
  | badHexadecimal (digits : String)
  | integerTooLarge (digits : String)
  | unexpected (c : Char)
deriving DecidableEq, Repr

def LexicalError.message : LexicalError → String
  | unterminatedString => "Unterminated string literal"
  | unknownEscape c => s!"Unknown escape sequence '\\{c}'"
  | badHexadecimal digits => s!"Invalid hexadecimal literal '0x{digits}'"
  | integerTooLarge digits => s!"Integer literal '{digits}' does not fit in 64 bits"
  | unexpected c => s!"Unexpected character '{c}'"

/-- A lexical error, and how many bytes of the lexeme had been read when it was noticed. -/
structure Flaw where
  error : LexicalError
  length : Nat
deriving DecidableEq, Repr

/-- What a lexeme contributes. -/
inductive LexemeContent where
  /-- A space, a tab or a carriage return. -/
  | blank
  /-- A line feed. -/
  | feed
  /-- The rest of a line behind `#`, or behind `##` for documentation. -/
  | comment (isDoc : Bool) (text : String)
  /-- A word, a sign, a number or a string. -/
  | token (kind : TokenKind)
  /-- Characters that could not be read. -/
  | nothing
deriving DecidableEq, Repr

/-- A stretch of source text that is read as one. -/
structure Lexeme where
  text : List Char
  content : LexemeContent
  flaws : List Flaw
deriving DecidableEq, Repr

namespace Lexeme

def ofToken (text : List Char) (kind : TokenKind) : Lexeme := ⟨text, .token kind, []⟩

/-- A lexeme that could not be read. -/
def unread (text : List Char) (error : LexicalError) : Lexeme :=
  ⟨text, .nothing, [⟨error, byteLength text⟩]⟩

/-! ## Comments -/

/-- The text of a comment: without the carriage returns at its end and one space at its start. -/
def commentText (cs : List Char) : String :=
  match (cs.reverse.dropWhile (· == '\r')).reverse with
  | ' ' :: rest => String.ofList rest
  | all => String.ofList all

/-- A comment, from the characters behind its first `#`. -/
def comment (cs : List Char) : Lexeme × List Char :=
  let rest := cs.dropWhile (· != '\n')
  match cs.takeWhile (· != '\n') with
  | '#' :: body => (⟨'#' :: '#' :: body, .comment true (commentText body), []⟩, rest)
  | body => (⟨'#' :: body, .comment false (commentText body), []⟩, rest)

/-! ## Strings -/

/-- What has been read of a string: the characters taken from the text, the value they spell, the flaws found,
whether the closing quote was reached, and what follows. -/
structure StringBody where
  taken : List Char
  value : List Char
  flaws : List Flaw
  closed : Bool
  rest : List Char

/-- Puts characters that were read earlier in front. -/
def StringBody.after (taken : List Char) (value : Char) (flaws : List Flaw) (b : StringBody) : StringBody :=
  { b with taken := taken ++ b.taken, value := value :: b.value, flaws := flaws ++ b.flaws }

/-- Reads a string up to its closing quote. A line feed or the end of the text ends it too early. `before` is
the number of bytes of the string that stand before these characters. -/
def stringBody (before : Nat) : List Char → StringBody
  | [] => ⟨[], [], [⟨.unterminatedString, before⟩], false, []⟩
  | '"' :: rest => ⟨['"'], [], [], true, rest⟩
  | '\n' :: rest => ⟨['\n'], [], [⟨.unterminatedString, before + 1⟩], false, rest⟩
  | ['\\'] => ⟨['\\'], [], [⟨.unterminatedString, before + 1⟩], false, []⟩
  | '\\' :: c :: rest =>
    let next := before + 1 + c.utf8Size
    match Text.unescape? c with
    | some value => (stringBody next rest).after ['\\', c] value []
    | none => (stringBody next rest).after ['\\', c] c [⟨.unknownEscape c, next⟩]
  | c :: rest => (stringBody (before + c.utf8Size) rest).after [c] c []

/-- A string, from the characters behind its opening quote. -/
def string (cs : List Char) : Lexeme × List Char :=
  let body := stringBody 1 cs
  let content := if body.closed then .token (.string (String.ofList body.value)) else .nothing
  (⟨'"' :: body.taken, content, body.flaws⟩, body.rest)

/-! ## Numbers -/

def decimalValue (digits : List Char) : Nat :=
  digits.foldl (fun n c => n * 10 + (c.toNat - '0'.toNat)) 0

def hexDigit? (c : Char) : Option Nat :=
  if c.isDigit then some (c.toNat - '0'.toNat)
  else if 'a' ≤ c ∧ c ≤ 'f' then some (c.toNat - 'a'.toNat + 10)
  else if 'A' ≤ c ∧ c ≤ 'F' then some (c.toNat - 'A'.toNat + 10)
  else none

/-- The number that hexadecimal digits spell. -/
def hexValue (digits : List Char) : Nat :=
  digits.foldl (fun n c => n * 16 + (hexDigit? c).getD 0) 0

/-- Integers have 64 bits. -/
def integerBound : Nat := Nat.pow 2 64

/-- Underscores may stand between the digits of a number and mean nothing. -/
def isDigitOrGap (c : Char) : Bool := c.isDigit || c == '_'

def digitsOf (cs : List Char) : List Char := cs.filter (· != '_')

def startsWithDigit : List Char → Bool
  | c :: _ => c.isDigit
  | [] => false

/-- A hexadecimal integer, from the characters behind its `0x` or `0X`. -/
def hexadecimal (mark : Char) (cs : List Char) : Lexeme × List Char :=
  let isPart (c : Char) := (hexDigit? c).isSome || c == '_'
  let taken := cs.takeWhile isPart
  let rest := cs.dropWhile isPart
  let digits := digitsOf taken
  let text := '0' :: mark :: taken
  let value := hexValue digits
  if digits.isEmpty ∨ integerBound ≤ value then
    (unread text (.badHexadecimal (String.ofList digits)), rest)
  else (ofToken text (.int value), rest)

/-- The fraction of a number: a point with a digit right behind it, and what follows of digits. Gives the
characters taken, which are none without a fraction. -/
def fraction (cs : List Char) : List Char × List Char :=
  match cs with
  | '.' :: rest =>
    if startsWithDigit rest then ('.' :: rest.takeWhile isDigitOrGap, rest.dropWhile isDigitOrGap)
    else ([], cs)
  | _ => ([], cs)

/-- The exponent of a number: its mark, a sign or none, and digits, the first of them right there. Gives the
mark and sign, the digits and gaps, and what follows. -/
def exponent (cs : List Char) : List Char × List Char × List Char :=
  match cs with
  | mark :: rest =>
    if mark = 'e' ∨ mark = 'E' then
      match rest with
      | sign :: behind =>
        if (sign = '+' ∨ sign = '-') ∧ startsWithDigit behind then
          ([mark, sign], behind.takeWhile isDigitOrGap, behind.dropWhile isDigitOrGap)
        else if sign.isDigit then ([mark], rest.takeWhile isDigitOrGap, rest.dropWhile isDigitOrGap)
        else ([], [], cs)
      | [] => ([], [], cs)
    else ([], [], cs)
  | [] => ([], [], cs)

/-- A decimal integer or a float, from its first digit and the characters behind it. -/
def decimal (first : Char) (cs : List Char) : Lexeme × List Char :=
  let whole := first :: cs.takeWhile isDigitOrGap
  let (point, rest) := fraction (cs.dropWhile isDigitOrGap)
  let (mark, power, rest) := exponent rest
  let text := whole ++ point ++ mark ++ power
  if point.isEmpty ∧ mark.isEmpty then
    let digits := digitsOf whole
    if decimalValue digits < integerBound then (ofToken text (.int (decimalValue digits)), rest)
    else (unread text (.integerTooLarge (String.ofList digits)), rest)
  else
    let places := digitsOf (point.drop 1)
    let power : Int := decimalValue (digitsOf power)
    let power := if mark.contains '-' then -power else power
    let value := Binary64.ofDecimal (decimalValue (digitsOf whole ++ places)) (power - places.length)
    (ofToken text (.float value), rest)

/-- A number, from its first digit and the characters behind it. -/
def number (first : Char) (cs : List Char) : Lexeme × List Char :=
  match cs with
  | mark :: rest =>
    if first = '0' ∧ (mark = 'x' ∨ mark = 'X') then hexadecimal mark rest else decimal first cs
  | [] => decimal first cs

/-! ## Words and signs -/

/-- The token of a word: a keyword or a name. -/
def wordKind (name : String) : TokenKind :=
  match Keyword.ofSpelling? name with
  | some k => .keyword k
  | none => .ident name

/-- A word, from its first character and those behind it. -/
def word (first : Char) (cs : List Char) : Lexeme × List Char :=
  let text := first :: cs.takeWhile Text.isWordPart
  (ofToken text (wordKind (String.ofList text)), cs.dropWhile Text.isWordPart)

/-- The signs of two characters. -/
def longSign? : Char → Char → Option TokenKind
  | '-', '>' => some .arrow
  | '|', '|' => some (.operator .boolOr)
  | '&', '&' => some (.operator .boolAnd)
  | '=', '=' => some (.operator .equal)
  | '!', '=' => some (.operator .notEqual)
  | '>', '=' => some (.operator .greaterEqual)
  | '<', '=' => some (.operator .lessEqual)
  | _, _ => none

/-- The signs of one character. -/
def shortSign? : Char → Option TokenKind
  | '(' => some .lparen
  | ')' => some .rparen
  | '[' => some .lbracket
  | ']' => some .rbracket
  | '{' => some .lbrace
  | '}' => some .rbrace
  | ',' => some .comma
  | ':' => some .colon
  | '.' => some .dot
  | '=' => some .eq
  | '|' => some (.operator .bitOr)
  | '&' => some (.operator .bitAnd)
  | '^' => some (.operator .bitXor)
  | '>' => some (.operator .greater)
  | '<' => some (.operator .less)
  | '+' => some (.operator .plus)
  | '-' => some (.operator .minus)
  | '/' => some (.operator .divide)
  | '*' => some (.operator .multiply)
  | '%' => some (.operator .modulus)
  | '!' => some (.operator .negate)
  | _ => none

/-- A sign of one character, if there is such a sign. -/
def shortSign (c : Char) : Lexeme :=
  match shortSign? c with
  | some kind => ofToken [c] kind
  | none => unread [c] (.unexpected c)

/-- A sign, from its first character and those behind it. The longer of two signs is taken. -/
def sign (first : Char) (cs : List Char) : Lexeme × List Char :=
  match cs with
  | second :: rest =>
    match longSign? first second with
    | some kind => (ofToken [first, second] kind, rest)
    | none => (shortSign first, cs)
  | [] => (shortSign first, cs)

/-! ## Cutting a text -/

/-- Whether a character is skipped between tokens. -/
def isGap (c : Char) : Bool := c == ' ' || c == '\t' || c == '\r'

/-- The first lexeme of a text, and the rest of the text. -/
def first (c : Char) (cs : List Char) : Lexeme × List Char :=
  if isGap c then (⟨[c], .blank, []⟩, cs)
  else if c = '\n' then (⟨[c], .feed, []⟩, cs)
  else if c = '#' then comment cs
  else if c = '"' then string cs
  else if c.isDigit then number c cs
  else if Text.isWordStart c then word c cs
  else sign c cs

/-- The lexemes of a text, of which there are at most `count`. -/
def cut : (count : Nat) → List Char → List Lexeme
  | 0, _ => []
  | _ + 1, [] => []
  | count + 1, c :: cs =>
    let (lexeme, rest) := first c cs
    lexeme :: cut count rest

/-- The lexemes of a text. Each takes at least one character. -/
def all (cs : List Char) : List Lexeme := cut cs.length cs

end Lexeme
end QiIdl
