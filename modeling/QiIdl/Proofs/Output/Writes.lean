import Mathlib.Data.List.Basic
import QiIdl.Output.Writer

/-!
# What steps write

Steps that are taken at the start of a line and end there write a text that depends on the level and the width alone.
`Writes steps P` says that they do, and that the text satisfies `P` whatever level and width are. Rules for one step
after the other, a line and a scope are all that is needed to follow a printer through its output.
-/

namespace QiIdl

theorem Writer.runAll_append (w : Writer) (steps more : List Step) :
    w.runAll (steps ++ more) = (w.runAll steps).runAll more := by
  induction steps generalizing w with
  | nil => rfl
  | cons step steps ih =>
    simp only [List.cons_append, runAll]
    exact ih _

/-- At the start of a line, these steps write text with a property, and then a line starts again. -/
def Writes (steps : List Step) (P : List Char → Prop) : Prop :=
  ∀ w : Writer, w.fresh = true → ∃ cs, w.runAll steps = { w with text := w.text ++ String.ofList cs } ∧ P cs

namespace Writes

variable {steps more : List Step} {P Q R : List Char → Prop}

theorem nil (h : P []) : Writes [] P := fun w _ => ⟨[], by simp [Writer.runAll], h⟩

theorem append (hs : Writes steps P) (hm : Writes more Q) (h : ∀ cs ds, P cs → Q ds → R (cs ++ ds)) :
    Writes (steps ++ more) R := by
  intro w hw
  obtain ⟨cs, hcs, hP⟩ := hs w hw
  obtain ⟨ds, hds, hQ⟩ := hm { w with text := w.text ++ String.ofList cs } hw
  refine ⟨cs ++ ds, ?_, h cs ds hP hQ⟩
  rw [Writer.runAll_append, hcs, hds, String.ofList_append, ← String.append_assoc]

/-- An empty line. -/
theorem newline (h : P ['\n']) : Writes [.newline] P := by
  intro w hw
  refine ⟨['\n'], ?_, h⟩
  simp [Writer.runAll, Writer.run, Writer.newline, String.push_eq_append, hw]

/-- What stands in a scope is written one level deeper, and that is a level like any other. -/
theorem scope (hs : Writes steps P) : Writes [.scope steps] P := by
  intro w hw
  obtain ⟨cs, hcs, hP⟩ := hs w.indent hw
  refine ⟨cs, ?_, hP⟩
  rw [Writer.runAll, Writer.run, hcs]
  simp [Writer.runAll, Writer.indent, Writer.dedent]

/-- A line of text. -/
theorem writeLine {text : String} (hne : text ≠ "")
    (h : ∀ margin, P (List.replicate margin ' ' ++ text.toList ++ ['\n'])) : Writes [.writeLine text] P := by
  intro w hw
  refine ⟨List.replicate (w.level * w.width % UInt64.size) ' ' ++ text.toList ++ ['\n'], ?_, h _⟩
  have hempty : text.isEmpty = false := by simpa using hne
  simp [Writer.runAll, Writer.run, Writer.writeLine, Writer.write, Writer.newline, Writer.margin, Writer.blanks, hempty, hw,
    String.push_eq_append, String.ofList_append, String.append_assoc]

/-- The text of a file is written from the start of its first line. -/
theorem render (hs : Writes steps P) (width : Nat) : P (Step.render width steps).toList := by
  obtain ⟨cs, hcs, hP⟩ := hs (.empty width) rfl
  rw [Step.render, hcs]
  simpa [Writer.empty] using hP

end Writes
end QiIdl
