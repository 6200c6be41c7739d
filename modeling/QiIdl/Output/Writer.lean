/-!
# Writing lines

Output is written piece by piece. A line that gets any text starts with blanks for the current level; a line
that gets none stays empty. What is to be written is given as a list of steps, in which a scope is a list of
steps one level deeper.

The blanks of a line are counted in a word of 64 bits, and the count is a product. Where it does not fit, the word
starts over from zero, and a line that should have more blanks than any memory holds has few or none.
-/

namespace QiIdl

/-- A step of writing. -/
inductive Step where
  | write (text : String)
  | writeLine (text : String)
  | newline
  | indent
  | dedent
  | scope (steps : List Step)

/-- What was written, how deep the next line is, how many blanks a level takes, and whether a line is about to
start. -/
structure Writer where
  text : String
  level : Nat
  width : Nat
  fresh : Bool
deriving DecidableEq, Repr

namespace Writer

def empty (width : Nat) : Writer := ⟨"", 0, width, true⟩

/-- The blanks in front of a line of a level, if a level takes so many. -/
def blanks (width level : Nat) : String := String.ofList (List.replicate (level * width % UInt64.size) ' ')

/-- The blanks that go before text written now. -/
def margin (w : Writer) : String := if w.fresh then blanks w.width w.level else ""

/-- Writes text. Empty text writes nothing, not even blanks. -/
def write (text : String) (w : Writer) : Writer :=
  if text.isEmpty then w else { w with text := w.text ++ w.margin ++ text, fresh := false }

def newline (w : Writer) : Writer := { w with text := w.text.push '\n', fresh := true }

def writeLine (text : String) (w : Writer) : Writer := (w.write text).newline

def indent (w : Writer) : Writer := { w with level := w.level + 1 }

/-- Goes back one level, if there is one. -/
def dedent (w : Writer) : Writer := { w with level := w.level - 1 }

mutual

def run (w : Writer) : Step → Writer
  | .write text => w.write text
  | .writeLine text => w.writeLine text
  | .newline => w.newline
  | .indent => w.indent
  | .dedent => w.dedent
  | .scope steps => (w.indent.runAll steps).dedent

def runAll (w : Writer) : List Step → Writer
  | [] => w
  | step :: steps => (w.run step).runAll steps

end

mutual

/-- The texts written so far after each of the steps that a step is made of. -/
def states (w : Writer) : Step → List String
  | .scope steps => w.indent.statesAll steps
  | .write text => [(w.write text).text]
  | .writeLine text => [(w.writeLine text).text]
  | .newline => [w.newline.text]
  | .indent => [w.indent.text]
  | .dedent => [w.dedent.text]

/-- The texts written so far after each of some steps. -/
def statesAll (w : Writer) : List Step → List String
  | [] => []
  | step :: steps => w.states step ++ (w.run step).statesAll steps

end

end Writer

/-- The text that some steps write, with so many blanks for a level. -/
def Step.render (width : Nat) (steps : List Step) : String := ((Writer.empty width).runAll steps).text

end QiIdl
