import QiIdl.Text.Extender
import QiIdl.Text.Unprintable

/-!
# Text shown in a message

A message shows a text between double quotes. The usual controls have a letter, other characters that leave no
mark of their own, and those that would attach to the quote, are written by number; the single quote and all
else stands for itself.
-/

namespace QiIdl.Text

/-- A character inside a shown text. -/
def showChar (c : Char) : String :=
  match c with
  | '\x00' => "\\0"
  | '\t' => "\\t"
  | '\n' => "\\n"
  | '\r' => "\\r"
  | '"' => "\\\""
  | '\\' => "\\\\"
  | c =>
    if isExtender c || isUnprintable c then
      "\\u\x7b" ++ String.ofList (Nat.toDigits 16 c.toNat) ++ "\x7d"
    else c.toString

/-- A text as a message shows it, quotes included. -/
def shown (s : String) : String := "\"" ++ String.join (s.toList.map showChar) ++ "\""

end QiIdl.Text
