import QiIdl.Text.Blank
import QiIdl.Text.Pieces
import QiIdl.Text.Word

/-!
# Documentation

A documentation text is free text followed by sections about parameters, the returned value and exceptions:

    Moves the robot. Blocks until the target is reached.
    \param target where to go
    \return the distance travelled
    \throw MotionError if the path is blocked

Paragraphs are separated by blank lines; line ends inside a paragraph count as spaces. Two backslashes stand for
one, and a single one before a word must start a section.
-/

namespace QiIdl

/-- What a section of documentation is about. -/
inductive DocCommand where
  | param
  | returns
  | throws
deriving DecidableEq, Repr

namespace DocCommand

/-- The word that starts a section. -/
def word : DocCommand → String
  | param => "param"
  | returns => "return"
  | throws => "throw"

/-- How the start of a section is written. -/
def spelling (c : DocCommand) : String := "\\" ++ c.word

def ofWord? (word : String) : Option DocCommand :=
  [DocCommand.param, .returns, .throws].find? (·.word == word)

end DocCommand

/-- What can be wrong with documentation. -/
inductive DocError where
  | missingName (command : DocCommand)
  | missingDescription (command : DocCommand)
  | unknownCommand (word : String)
deriving DecidableEq, Repr

/-- What is said about an error of documentation. -/
def DocError.message : DocError → String
  | missingName command => s!"expected a name after '{command.spelling}'"
  | missingDescription command => s!"expected a description after '{command.spelling}'"
  | unknownCommand word => s!"unknown documentation command '\\{word}'"

/-- A section, up to the start of the next. -/
structure DocSection where
  command : DocCommand
  body : List Char
deriving DecidableEq, Repr

/-- A documentation text cut up: the free text at its start, and the sections. -/
structure DocParts where
  free : List Char
  sections : List DocSection
deriving DecidableEq, Repr

namespace DocParts

/-- Puts a character in front of the free text. -/
def push (c : Char) (p : DocParts) : DocParts := { p with free := c :: p.free }

/-- Turns the free text into a section. -/
def under (command : DocCommand) (p : DocParts) : DocParts := ⟨[], ⟨command, p.free⟩ :: p.sections⟩

/-- The command that a word starts, if it does and a blank or the end of the text follows. -/
def command? (word rest : List Char) : Option DocCommand :=
  if rest.head?.all Text.isBlank then DocCommand.ofWord? (String.ofList word) else none

/-- The parts of a text, or the first word behind a single backslash that starts no section. -/
def ofText (cs : List Char) : Except DocError DocParts :=
  match cs with
  | [] => .ok ⟨[], []⟩
  | '\\' :: '\\' :: rest => (ofText rest).map (push '\\')
  | '\\' :: rest =>
    let word := rest.takeWhile Text.isWordPart
    if word.isEmpty then (ofText rest).map (push '\\')
    else
      match command? word (rest.dropWhile Text.isWordPart) with
      | some command => (ofText (rest.dropWhile Text.isWordPart)).map (under command)
      | none => .error (.unknownCommand (String.ofList word))
  | c :: rest => (ofText rest).map (push c)
termination_by cs.length
decreasing_by
  all_goals simp only [List.length_cons]
  all_goals first
    | omega
    | exact Nat.lt_succ_of_le (List.dropWhile_sublist _).length_le

end DocParts

/-! ## Paragraphs -/

/-- The runs of lines that are not empty, where `current` was met since the last empty line. -/
def paragraphRuns (current : List String) : List String → List (List String)
  | [] => if current.isEmpty then [] else [current]
  | line :: rest =>
    if line.isEmpty then
      if current.isEmpty then paragraphRuns [] rest else current :: paragraphRuns [] rest
    else paragraphRuns (current ++ [line]) rest

/-- The lines of a text without the blanks around them. -/
def trimmedLines (cs : List Char) : List String := (Text.lines cs).map fun l => String.ofList (Text.trim l)

/-- The paragraphs of a text, each on one line. -/
def paragraphs (cs : List Char) : List String :=
  (paragraphRuns [] (trimmedLines cs)).map (" ".intercalate ·)

/-- A text as it is handed on: its paragraphs with empty lines between them; nothing if there are none. -/
def description? (cs : List Char) : Option String :=
  match paragraphs cs with
  | [] => none
  | ps => some ("\n\n".intercalate ps)

/-- The start of a text up to its first full stop. -/
def upToStop (s : String) : String := String.ofList (s.toList.takeWhile (· != '.'))

/-! ## Reading -/

/-- The documentation of one declaration. Parameters and exceptions are in the order in which they come. -/
structure Doc where
  brief : Option String
  description : Option String
  params : List (String × String)
  returns : Option String
  throws : List (String × String)
  warnings : List String
deriving DecidableEq, Repr

namespace Doc

def param? (d : Doc) (name : String) : Option String := d.params.lookup name

/-- The description that a section must have. -/
def described (command : DocCommand) (cs : List Char) : Except DocError String :=
  match description? cs with
  | some text => .ok text
  | none => .error (.missingDescription command)

/-- The name at the start of a section, which must be there, and its description. -/
def named (command : DocCommand) (cs : List Char) : Except DocError (String × String) := do
  let cs := Text.trimLeft cs
  let name := cs.takeWhile (!Text.isBlank ·)
  if name.isEmpty then .error (.missingName command)
  else
    let text ← described command (cs.dropWhile (!Text.isBlank ·))
    pure (String.ofList name, text)

/-- Adds a warning after those there are. -/
def warn (d : Doc) (message : String) : Doc := { d with warnings := d.warnings ++ [message] }

/-- The warning that a name comes again. -/
def repeated (name : String) : String := s!"{name} documented multiple times"

/-- Adds a section. What comes a second time is left out with a warning. -/
def add (d : Doc) (s : DocSection) : Except DocError Doc :=
  match s.command with
  | .returns => do
    let text ← described .returns s.body
    pure (if d.returns.isSome then d.warn "multiple \\return declaration" else { d with returns := some text })
  | .param => do
    let (name, text) ← named .param s.body
    pure (if (d.params.lookup name).isSome then d.warn (repeated name)
      else { d with params := d.params ++ [(name, text)] })
  | .throws => do
    let (name, text) ← named .throws s.body
    pure (if (d.throws.lookup name).isSome then d.warn (repeated name)
      else { d with throws := d.throws ++ [(name, text)] })

/-- The documentation that free text alone gives. Its first paragraph up to the first full stop is the brief. -/
def ofFree (cs : List Char) : Doc :=
  ⟨(paragraphs cs).head?.map upToStop, description? cs, [], none, [], []⟩

def parse (text : String) : Except DocError Doc := do
  let parts ← DocParts.ofText text.toList
  parts.sections.foldlM add (ofFree parts.free)

end Doc
end QiIdl
