import QiIdl.Source.Position
import QiIdl.Text.Blank
import QiIdl.Text.Pieces

/-!
# Faults of a source text

What the lexer and the parser find wrong with a text. A fault is shown with the line it is on and a caret under
its first byte, or handed on as a report: the stretch to mark, and the notes and hints as help.
-/

namespace QiIdl

/-- Who found a fault. -/
inductive FaultKind where
  | general
  | lexical
  | grammatical
deriving DecidableEq, Repr

def FaultKind.text : FaultKind → String
  | general => "error"
  | lexical => "lexical error"
  | grammatical => "syntax error"

/-- Something wrong with a stretch of source text. -/
structure Fault where
  kind : FaultKind
  message : String
  span : Span
  notes : List String
  hints : List String
deriving DecidableEq, Repr

namespace Fault

/-- A fault without notes and hints. -/
def plain (kind : FaultKind) (message : String) (span : Span) : Fault := ⟨kind, message, span, [], []⟩

/-- Adds a note after those there are. -/
def withNote (f : Fault) (note : String) : Fault := { f with notes := f.notes ++ [note] }

/-- Adds a hint after those there are. -/
def withHint (f : Fault) (hint : String) : Fault := { f with hints := f.hints ++ [hint] }

/-- The line of a text with this number, counted from one; empty when there is none. -/
def sourceLine (source : String) (line : Nat) : String :=
  String.ofList ((Text.lines source.toList).getD (line - 1) [])

/-- A fault with the line it is on. A fault beyond the end of the text is shown at its end. -/
def text (file source : String) (f : Fault) : String :=
  let pos := (LineIndex.ofText source.toList).position (min f.span.start source.utf8ByteSize)
  let caret := String.ofList (List.replicate (pos.column - 1) ' ')
  s!"{file}:{pos.line}:{pos.column}: {f.kind.text}: {f.message}\n"
    ++ s!"  | {sourceLine source pos.line}\n"
    ++ s!"  | {caret}^\n"
    ++ String.join (f.notes.map fun note => s!"  = note: {note}\n")
    ++ String.join (f.hints.map fun hint => s!"  = hint: {hint}\n")

/-- Some faults one after the other, with empty lines between them and no blanks at the end. -/
def textAll (file source : String) (faults : List Fault) : String :=
  let all := String.join (faults.map fun f => f.text file source ++ "\n")
  String.ofList (Text.trimRight all.toList)

end Fault

/-- A fault ready to be drawn over its source: what to say, the bytes to mark, and the help below. -/
structure Report where
  message : String
  offset : Nat
  length : Nat
  help : Option String
deriving DecidableEq, Repr

/-- The report of a fault. The stretch to mark lies inside the text and covers at least one byte if there is
one; notes come before hints. -/
def Fault.report (source : String) (f : Fault) : Report :=
  let size := source.utf8ByteSize
  let offset := min f.span.start size
  let advice := f.notes ++ f.hints
  { message := s!"{f.kind.text}: {f.message}"
    offset := offset
    length := min (max (f.span.stop - f.span.start) 1) (size - offset)
    help := if advice.isEmpty then none else some ("\n".intercalate advice) }

end QiIdl
