/-!
# Quoted text

A string literal stands between double quotes. A line feed, a tab, a carriage return, a backslash and a double
quote are written as a backslash and a letter or sign; every other character stands for itself. `unescape`
reads the second half of an escape back.
-/

namespace QiIdl.Text

/-- What is written after the backslash for a character that needs one. -/
def escape? : Char → Option Char
  | '\n' => some 'n'
  | '\t' => some 't'
  | '\r' => some 'r'
  | '\\' => some '\\'
  | '"' => some '"'
  | _ => none

/-- The character that a backslash and this one stand for. -/
def unescape? : Char → Option Char
  | 'n' => some '\n'
  | 't' => some '\t'
  | 'r' => some '\r'
  | '\\' => some '\\'
  | '"' => some '"'
  | _ => none

/-- A character inside a quoted text. -/
def quoteChar (c : Char) : List Char :=
  match escape? c with
  | some e => ['\\', e]
  | none => [c]

/-- A text as a string literal, quotes included. -/
def quoteChars (cs : List Char) : List Char := '"' :: (cs.flatMap quoteChar ++ ['"'])

/-- A text as a string literal, quotes included. -/
def quote (s : String) : String := String.ofList (quoteChars s.toList)

theorem unescape?_escape? {c e : Char} (h : escape? c = some e) : unescape? e = some c := by
  unfold escape? at h
  split at h <;> cases h <;> rfl

end QiIdl.Text
