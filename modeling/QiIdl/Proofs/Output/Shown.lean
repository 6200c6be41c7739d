import Mathlib.Data.List.Infix
import QiIdl.Format.Canonical

/-!
# Text that is shown

What a step writes into a line stands in the output, whatever is written before and behind it: nothing that was written
is taken back (`Step.Shown.within_render`). The other way round, a word can be looked for piece by piece, because a word
without a separator in it never stands astride one (`Within.of_separated`).
-/

namespace QiIdl

/-- A text stands somewhere in another. -/
def Within (text whole : String) : Prop := text.toList <:+: whole.toList

instance (text whole : String) : Decidable (Within text whole) :=
  inferInstanceAs (Decidable (text.toList <:+: whole.toList))

namespace Within

variable {text part whole word a b : String} {sep : Char}

protected theorem refl (text : String) : Within text text := List.infix_rfl

protected theorem trans (h : Within text part) (h' : Within part whole) : Within text whole := List.IsInfix.trans h h'

theorem left (h : Within text part) (more : String) : Within text (part ++ more) := by
  rw [Within, String.toList_append]
  exact List.IsInfix.trans h (List.prefix_append _ _).isInfix

theorem right (h : Within text part) (more : String) : Within text (more ++ part) := by
  rw [Within, String.toList_append]
  exact List.IsInfix.trans h (List.suffix_append _ _).isInfix

theorem of_mem {items : List String} (h : text ∈ items) : Within text (commaList items) := by
  induction items with
  | nil => cases h
  | cons item items ih =>
    cases items with
    | nil =>
      rw [List.mem_singleton.mp h, commaList, String.intercalate_singleton]
      exact .refl _
    | cons next items =>
      have hjoin : commaList (item :: next :: items) = item ++ ", " ++ commaList (next :: items) := by
        simp [commaList, String.intercalate_cons_cons]
      rw [hjoin]
      rcases List.mem_cons.mp h with rfl | h
      · exact ((Within.refl _).left _).left _
      · exact (ih h).right _

/-- A word without a separator stands on one side of it. -/
theorem of_separated (h : Within word (a ++ (String.singleton sep ++ b))) (hsep : sep ∉ word.toList) :
    Within word a ∨ Within word b := by
  simp only [Within, String.toList_append, String.toList_singleton, List.singleton_append] at h ⊢
  have hfront {l : List Char} (hl : l <+: sep :: b.toList) (hsep : sep ∉ l) : l = [] := by
    rcases List.prefix_cons_iff.mp hl with rfl | ⟨l', rfl, -⟩
    · rfl
    · exact absurd List.mem_cons_self hsep
  rcases List.infix_append_iff.mp h with h | h | ⟨l, l', hword, hl, hl'⟩
  · exact .inl h
  · rcases List.infix_cons_iff.mp h with h | h
    · rw [hfront h hsep]
      exact .inl (List.nil_infix)
    · exact .inr h
  · -- astride: what stands behind would start with the separator
    have hempty := hfront hl' fun hmem => hsep (by rw [hword]; exact List.mem_append_right _ hmem)
    rw [hword, hempty, List.append_nil]
    exact .inl hl.isInfix

theorem of_empty (h : Within word "") (whole : String) : Within word whole := by
  rw [Within, String.toList_empty, List.infix_nil] at h
  rw [Within, h]
  exact List.nil_infix

end Within

/-- The step writes a line with the text in it. -/
inductive Step.Shows (text : String) : Step → Prop where
  | line {line : String} : Within text line → Shows text (.writeLine line)
  | scope {steps : List Step} {step : Step} : step ∈ steps → Shows text step → Shows text (.scope steps)

/-- One of the steps writes a line with the text in it. -/
def Step.Shown (text : String) (steps : List Step) : Prop := ∃ step ∈ steps, step.Shows text

namespace Step.Shown

variable {text line : String} {steps more : List Step}

theorem of_line (h : Within text line) (hmem : .writeLine line ∈ steps) : Shown text steps := ⟨_, hmem, .line h⟩

theorem mono (h : Shown text steps) (hsub : steps ⊆ more) : Shown text more := by
  obtain ⟨step, hmem, hshows⟩ := h
  exact ⟨step, hsub hmem, hshows⟩

theorem scope (h : Shown text steps) (hmem : .scope steps ∈ more) : Shown text more := by
  obtain ⟨step, hstep, hshows⟩ := h
  exact ⟨_, hmem, .scope hstep hshows⟩

end Step.Shown

namespace Writer

theorem within_write (w : Writer) (text : String) : Within w.text (w.write text).text := by
  unfold write
  split
  · exact .refl _
  · exact ((Within.refl _).left _).left _

theorem within_writeLine (w : Writer) (text : String) : Within w.text (w.writeLine text).text := by
  rw [writeLine, newline, String.push_eq_append]
  exact (w.within_write text).left _

mutual

/-- What was written stays. -/
theorem within_run (w : Writer) : ∀ step : Step, Within w.text (w.run step).text
  | .write text => w.within_write text
  | .writeLine text => w.within_writeLine text
  | .newline => by
    rw [run, newline, String.push_eq_append]
    exact (Within.refl _).left _
  | .indent => .refl _
  | .dedent => .refl _
  | .scope steps => within_runAll w.indent steps

theorem within_runAll (w : Writer) : ∀ steps : List Step, Within w.text (w.runAll steps).text
  | [] => .refl _
  | step :: steps => by
    rw [runAll]
    exact (within_run w step).trans (within_runAll (w.run step) steps)

end

theorem within_runAll_of_mem {text : String} {step : Step} {steps : List Step} (hmem : step ∈ steps)
    (hstep : ∀ w : Writer, Within text (w.run step).text) (w : Writer) : Within text (w.runAll steps).text := by
  induction steps generalizing w with
  | nil => cases hmem
  | cons first steps ih =>
    rw [runAll]
    rcases List.mem_cons.mp hmem with rfl | hmem
    · exact (hstep w).trans (within_runAll _ steps)
    · exact ih hmem _

theorem within_run_of_shows {text : String} {step : Step} (h : step.Shows text) (w : Writer) :
    Within text (w.run step).text := by
  induction h generalizing w with
  | @line line hline =>
    rw [run, writeLine, newline, String.push_eq_append, write]
    split
    · next hempty =>
      -- nothing is written for an empty line, and no text but the empty one stands in it
      rw [String.isEmpty_iff.mp hempty] at hline
      exact hline.of_empty _
    · exact (hline.right _).left _
  | scope hmem _ ih =>
    exact within_runAll_of_mem hmem ih w.indent

end Writer

theorem Step.Shown.within_render {text : String} {steps : List Step} (h : Shown text steps) (width : Nat) :
    Within text (Step.render width steps) := by
  obtain ⟨step, hmem, hshows⟩ := h
  exact Writer.within_runAll_of_mem hmem (Writer.within_run_of_shows hshows) _

end QiIdl
