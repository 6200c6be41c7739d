import QiIdl.Output.Writer
import QiIdl.Table

/-!
# JSON texts

The documents that documentation is written as: texts, lists of texts, and objects. They are kept and written by a
library for JSON, which is not ours. This module takes its place, and what is assumed of the library is what is defined
here, no more:

* an object has one member for a name, the one that was entered last, and its members are in increasing order of their
  names, by code points (`ofMembers`);
* a text is quoted. Quotes, backslashes and control characters are escaped, the latter by a letter where there is one
  and else by four lowercase hexadecimal digits, and everything else stands as it is (`quoted`);
* a document is written with two blanks for a level and a line for each item or member, with a colon and a blank between
  the name of a member and what it is. Where there are no items, the brackets stand side by side (`bracketed`).

Of these, theorems use the first only.
-/

namespace QiIdl

inductive JsonDoc where
  | text (value : String)
  | list (items : List String)
  | object (members : List (String × JsonDoc))

namespace JsonDoc

/-- The hexadecimal digit of a number below sixteen. -/
def hexDigit (n : Nat) : Char := Char.ofNat (if n < 10 then 48 + n else 87 + n)

/-- A character inside a quoted text. -/
def quotedChar (c : Char) : List Char :=
  match c with
  | '"' => ['\\', '"']
  | '\\' => ['\\', '\\']
  | '\n' => ['\\', 'n']
  | '\r' => ['\\', 'r']
  | '\t' => ['\\', 't']
  | '\x08' => ['\\', 'b']
  | '\x0c' => ['\\', 'f']
  | c => if c.toNat < 32 then ['\\', 'u', '0', '0', hexDigit (c.toNat / 16), hexDigit (c.toNat % 16)] else [c]

def quoted (s : String) : String := "\"" ++ String.ofList (s.toList.flatMap quotedChar) ++ "\""

/-- Some items between brackets, each on a line of its own with commas after all but the last. Each item
is given the text that goes behind it. -/
def bracketed (opening closing : String) (items : List (String → List Step)) : List Step :=
  match items.reverse with
  | [] => [.write (opening ++ closing)]
  | last :: before =>
    [.writeLine opening, .scope ((before.reverse.flatMap (· ",")) ++ last ""), .write closing]

/-- A line with an item of a list. -/
def itemLine (item : String) (tail : String) : List Step := [.writeLine (quoted item ++ tail)]

mutual

/-- A document, without the end of its last line. -/
def steps : JsonDoc → List Step
  | text value => [.write (quoted value)]
  | list items => bracketed "[" "]" (items.map itemLine)
  | object members => bracketed "\x7b" "\x7d" (memberSteps members)

/-- The members of an object. -/
def memberSteps : List (String × JsonDoc) → List (String → List Step)
  | [] => []
  | (name, value) :: rest =>
    (fun tail => .write (quoted name ++ ": ") :: (steps value ++ [.writeLine tail])) :: memberSteps rest

end

/-- A document as text, with two blanks for a level and the end of the last line. -/
def render (d : JsonDoc) : String := Step.render 2 (d.steps ++ [.newline])

/-- The object of some members that are entered in turn. Of two members of one name the later counts. -/
def ofMembers (members : List (String × JsonDoc)) : JsonDoc := .object (Table.ofEntries members)

end JsonDoc
end QiIdl
