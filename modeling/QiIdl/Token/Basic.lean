import QiIdl.Binary64.Text
import QiIdl.Source.Span
import QiIdl.Text.Shown
import QiIdl.Vocabulary.Keyword
import QiIdl.Vocabulary.Operator

/-!
# Tokens

What the parser reads: words, signs, numbers and strings, the comments that stand on lines of their own, and
the ends of lines. A token knows the bytes it was read from.
-/

namespace QiIdl

/-- What a token is. -/
inductive TokenKind where
  | keyword (keyword : Keyword)
  | operator (operator : Operator)
  | lparen
  | rparen
  | lbracket
  | rbracket
  | lbrace
  | rbrace
  | comma
  | colon
  | dot
  | eq
  | arrow
  | ident (name : String)
  | int (value : Nat)
  | float (value : Binary64)
  | string (value : String)
  | comment (text : String)
  | docComment (text : String)
  | newline
  | eof
deriving DecidableEq, Repr

namespace TokenKind

/-- Whether a logical line ends at a token of this kind. -/
def isLineEnd : TokenKind → Bool
  | newline | eof | comment _ => true
  | _ => false

/-- The name of the kind, without what the token carries. -/
def name : TokenKind → String
  | keyword _ => "Keyword"
  | operator _ => "Operator"
  | lparen => "LParen"
  | rparen => "RParen"
  | lbracket => "LBracket"
  | rbracket => "RBracket"
  | lbrace => "LBrace"
  | rbrace => "RBrace"
  | comma => "Comma"
  | colon => "Colon"
  | dot => "Dot"
  | eq => "Eq"
  | arrow => "Arrow"
  | ident _ => "Ident"
  | int _ => "Int"
  | float _ => "Float"
  | string _ => "String"
  | comment _ => "Comment"
  | docComment _ => "DocComment"
  | newline => "Newline"
  | eof => "Eof"

/-- A token as messages describe it: its kind, and in brackets what it carries. -/
def describe (kind : TokenKind) : String :=
  let carrying (content : String) := s!"{kind.name}({content})"
  match kind with
  | keyword k => carrying k.name
  | operator o => carrying o.name
  | int value => carrying (toString value)
  | float value => carrying value.text
  | ident text | string text | comment text | docComment text => carrying (Text.shown text)
  | _ => kind.name

end TokenKind

/-- A token and the bytes it was read from. -/
structure Token where
  kind : TokenKind
  span : Span
deriving DecidableEq, Repr

end QiIdl
