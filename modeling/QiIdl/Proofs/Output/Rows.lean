import QiIdl.Proofs.Output.Writes
import QiIdl.Proofs.Text.Pieces

/-!
# Rows of output

C++ output is written row by row: what is written starts a row and ends it. Which rows some steps write is then known
from the steps and the level alone (`Step.rows`), and the output is these rows with a line feed behind each
(`Step.render_of_whole`).

A row may have line feeds of its own, if a text in it has. So the lines of the output, as who reads it sees them, are
the lines of its rows (`Step.physicalLines_render`), and a row is a line of the output just if it is unbroken.
-/

namespace QiIdl

variable {steps : List Step}

namespace Text

/-- The lines of a text: what stands between its line feeds. -/
def physicalLines (text : String) : List String := (pieces '\n' text.toList).map String.ofList

/-- A text without a line feed. -/
def Unbroken (text : String) : Prop := '\n' ∉ text.toList

instance (text : String) : Decidable (Unbroken text) := inferInstanceAs (Decidable ('\n' ∉ text.toList))

theorem Unbroken.append {a b : String} (ha : Unbroken a) (hb : Unbroken b) : Unbroken (a ++ b) := by
  rw [Unbroken, String.toList_append, List.mem_append, not_or]
  exact ⟨ha, hb⟩

theorem physicalLines_of_unbroken {text : String} (h : Unbroken text) : physicalLines text = [text] := by
  simp [physicalLines, pieces_of_not_mem h]

theorem physicalLines_feed (a b : String) : physicalLines (a ++ "\n" ++ b) = physicalLines a ++ physicalLines b := by
  have hlist : (a ++ "\n" ++ b).toList = a.toList ++ '\n' :: b.toList := by simp
  rw [physicalLines, hlist, pieces_append_cons, List.map_append]
  rfl

/-- Rows that are ended by line feeds have the lines of the rows, and an empty one behind the last line feed. -/
theorem physicalLines_ended (rows : List String) :
    physicalLines (String.join (rows.map (· ++ "\n"))) = rows.flatMap physicalLines ++ [""] := by
  induction rows with
  | nil => rfl
  | cons row rows ih => rw [List.map_cons, String.join_cons, physicalLines_feed, ih, List.flatMap_cons, List.append_assoc]

theorem flatMap_physicalLines {rows : List String} (h : ∀ row ∈ rows, Unbroken row) :
    rows.flatMap physicalLines = rows := by
  induction rows with
  | nil => rfl
  | cons row rows ih =>
    obtain ⟨hrow, hrows⟩ := List.forall_mem_cons.mp h
    rw [List.flatMap_cons, physicalLines_of_unbroken hrow, ih hrows, List.singleton_append]

end Text

namespace Step

open Text

/-- The step starts a row and ends it, or does so several times. -/
inductive Whole : Step → Prop where
  | line (text : String) : Whole (.writeLine text)
  | newline : Whole .newline
  | scope {steps : List Step} : (∀ step ∈ steps, Whole step) → Whole (.scope steps)

/-- All the steps write whole rows. -/
def AllWhole (steps : List Step) : Prop := ∀ step ∈ steps, step.Whole

@[simp] theorem whole_writeLine (text : String) : (writeLine text).Whole := .line text

@[simp] theorem whole_newline : newline.Whole := .newline

@[simp] theorem whole_scope : (scope steps).Whole ↔ AllWhole steps :=
  ⟨fun | .scope h => h, .scope⟩

@[simp] theorem allWhole_nil : AllWhole [] := List.forall_mem_nil _

@[simp] theorem allWhole_cons {step : Step} :
    AllWhole (step :: steps) ↔ step.Whole ∧ AllWhole steps := List.forall_mem_cons

@[simp] theorem allWhole_append {steps more : List Step} :
    AllWhole (steps ++ more) ↔ AllWhole steps ∧ AllWhole more := List.forall_mem_append

@[simp] theorem allWhole_map {β : Type} {f : β → Step} {bs : List β} :
    AllWhole (bs.map f) ↔ ∀ b ∈ bs, (f b).Whole := List.forall_mem_map

@[simp] theorem allWhole_flatten {parts : List (List Step)} :
    AllWhole parts.flatten ↔ ∀ steps ∈ parts, AllWhole steps := List.forall_mem_flatten

@[simp] theorem allWhole_flatMap {β : Type} {f : β → List Step} {bs : List β} :
    AllWhole (bs.flatMap f) ↔ ∀ b ∈ bs, AllWhole (f b) := by
  rw [List.flatMap_def, allWhole_flatten, List.forall_mem_map]

/-- The row that a text becomes at a level, with such blanks at each level. Nothing is put before a text that is
empty. -/
def row (blanks : Nat → String) (level : Nat) (text : String) : String :=
  if text.isEmpty then "" else blanks level ++ text

mutual

/-- The rows that a step writes at a level, if it writes whole rows. -/
def rows (width level : Nat) : Step → List String
  | .writeLine text => [row (Writer.blanks width) level text]
  | .newline => [""]
  | .scope steps => rowsAll width (level + 1) steps
  | .write _ | .indent | .dedent => []

def rowsAll (width level : Nat) : List Step → List String
  | [] => []
  | step :: steps => rows width level step ++ rowsAll width level steps

end

variable {steps : List Step} {width level : Nat}

theorem rowsAll_eq_flatMap (width level : Nat) (steps : List Step) :
    rowsAll width level steps = steps.flatMap (rows width level) := by
  induction steps with
  | nil => rfl
  | cons step steps ih => rw [rowsAll, ih, List.flatMap_cons]

theorem rowsAll_append (width level : Nat) (steps more : List Step) :
    rowsAll width level (steps ++ more) = rowsAll width level steps ++ rowsAll width level more := by
  simp only [rowsAll_eq_flatMap, List.flatMap_append]

/-- At the top a row is the text itself. -/
theorem row_zero (width : Nat) (text : String) : row (Writer.blanks width) 0 text = text := by
  rw [row]
  split
  · next hempty => exact (String.isEmpty_iff.mp hempty).symm
  · simp [Writer.blanks]

theorem rowsAll_writeLine (width : Nat) (texts : List String) :
    rowsAll width 0 (texts.map writeLine) = texts := by
  induction texts with
  | nil => rfl
  | cons text texts ih => rw [List.map_cons, rowsAll, rows, row_zero, ih, List.singleton_append]

end Step

/-! ## The text of rows -/

open Step

/-- The writer has come to the start of a row after some rows. -/
def Writer.put (w : Writer) (rows : List String) : Writer :=
  { w with text := w.text ++ String.join (rows.map (· ++ "\n")) }

theorem Writer.put_append (w : Writer) (rows more : List String) : (w.put rows).put more = w.put (rows ++ more) := by
  simp [put, String.join_append, String.append_assoc]

/-- Steps that each write their rows write their rows one after the other. -/
theorem Writer.runAll_of_forall
    (h : ∀ step ∈ steps, ∀ w : Writer, w.fresh = true → w.run step = w.put (step.rows w.width w.level)) (w : Writer)
    (hw : w.fresh = true) : w.runAll steps = w.put (rowsAll w.width w.level steps) := by
  induction steps generalizing w with
  | nil => simp [runAll, rowsAll, put]
  | cons step steps ih =>
    obtain ⟨hstep, hsteps⟩ := List.forall_mem_cons.mp h
    rw [runAll, hstep w hw, ih hsteps (w.put _) hw, put_append]
    rfl

/-- A step of whole rows, at the start of a row, writes its rows and comes to the start of the next. -/
theorem Writer.run_of_whole {step : Step} (h : step.Whole) (w : Writer) (hw : w.fresh = true) :
    w.run step = w.put (step.rows w.width w.level) := by
  induction h generalizing w with
  | line text =>
    by_cases hempty : text.isEmpty = true
    · simp [run, writeLine, write, Writer.newline, put, rows, row, hempty, hw, String.push_eq_append]
    · simp [run, writeLine, write, Writer.newline, margin, put, rows, row, hempty, hw, String.push_eq_append,
        String.append_assoc]
  | newline => simp [run, Writer.newline, put, rows, hw, String.push_eq_append]
  | scope _ ih =>
    -- what stands in the scope is written one level deeper, and then the level is what it was
    rw [run, runAll_of_forall ih w.indent hw]
    simp [put, rows, indent, dedent]

/-- Output that is written in whole rows is these rows, with a line feed behind each. -/
theorem Step.render_of_whole (h : AllWhole steps) (width : Nat) :
    Step.render width steps = String.join ((rowsAll width 0 steps).map (· ++ "\n")) := by
  rw [Step.render, Writer.runAll_of_forall (fun step hstep => Writer.run_of_whole (h step hstep)) _ rfl]
  simp [Writer.put, Writer.empty]

/-- The lines that some steps of whole rows write at the top. -/
def Step.lines (width : Nat) (steps : List Step) : List String := (rowsAll width 0 steps).flatMap Text.physicalLines

namespace Step

variable {width : Nat}

theorem lines_append (steps more : List Step) : lines width (steps ++ more) = lines width steps ++ lines width more := by
  rw [lines, rowsAll_append, List.flatMap_append]
  rfl

theorem lines_flatten (parts : List (List Step)) : lines width parts.flatten = (parts.map (lines width)).flatten := by
  induction parts with
  | nil => rfl
  | cons steps parts ih => rw [List.flatten_cons, lines_append, ih, List.map_cons, List.flatten_cons]

theorem lines_singleton (text : String) : lines width [writeLine text] = Text.physicalLines text := by
  rw [lines, rowsAll, rows, rowsAll, row_zero, List.append_nil, List.flatMap_singleton]

theorem lines_writeLine {texts : List String} (h : ∀ text ∈ texts, Text.Unbroken text) :
    lines width (texts.map writeLine) = texts := by
  rw [lines, rowsAll_writeLine, Text.flatMap_physicalLines h]

/-- The lines of output that is written in whole rows are the lines of its rows, and an empty one at the end. -/
theorem physicalLines_render (h : AllWhole steps) (width : Nat) :
    Text.physicalLines (Step.render width steps) = lines width steps ++ [""] := by
  rw [render_of_whole h, Text.physicalLines_ended, lines]

end Step
end QiIdl
