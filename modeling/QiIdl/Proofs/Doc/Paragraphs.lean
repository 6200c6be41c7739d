import Mathlib.Data.List.DropRight
import QiIdl.Doc.Basic
import QiIdl.Proofs.Text.Pieces

/-!
# Paragraphs of documentation

A text is handed on in a normal form: its lines without the blanks around them, gathered into paragraphs at the empty
ones. Reading goes through the lines with what it has gathered so far; here the same is said by splitting and joining
alone (`paragraphs_eq`), at line feeds and then at empty lines. A carriage return before a line feed is a blank at the
end of a line, and so needs no mention.

A paragraph has no line feed in it and no blank at its ends (`IsParagraph`). That is why splitting the normal form again
finds the same paragraphs (`paragraphTexts_intercalate`), and why the brief can be read off it (`Doc.ofFree_eq`).
-/

namespace QiIdl

variable {cs : List Char}

/-! ## Blanks around a line -/

namespace Text

variable {cs : List Char} {c : Char}

/-- Nothing but blanks stands in a text. -/
def AllBlank (cs : List Char) : Prop := ∀ c ∈ cs, isBlank c = true

instance (cs : List Char) : Decidable (AllBlank cs) := decidable_of_iff (cs.all isBlank = true) List.all_eq_true

theorem trimRight_eq (cs : List Char) : trimRight cs = cs.rdropWhile isBlank := rfl

theorem trim_eq_nil_iff : trim cs = [] ↔ AllBlank cs := by
  rw [trim, trimRight_eq, List.rdropWhile_eq_nil_iff, trimLeft]
  constructor
  · intro h c hc
    rw [← List.takeWhile_append_dropWhile (p := isBlank) (l := cs), List.mem_append] at hc
    rcases hc with hc | hc
    · exact List.mem_takeWhile_imp hc
    · exact h c hc
  · intro h c hc
    exact h c ((List.dropWhile_sublist _).subset hc)

theorem trim_concat (h : isBlank c = true) (cs : List Char) : trim (cs ++ [c]) = trim cs := by
  rw [trim, trim, trimLeft, trimLeft, List.dropWhile_append]
  by_cases hnil : cs.dropWhile isBlank = []
  · simp [hnil, h]
  · simp [hnil, trimRight, h]

theorem trim_dropReturn (line : List Char) : trim (dropReturn line) = trim line := by
  unfold dropReturn
  split
  · next hlast =>
    have hline : line.dropLast ++ ['\r'] = line := List.dropLast_append_getLast? _ hlast
    rw [← trim_concat (by decide : isBlank '\r' = true), hline]
  · rfl

end Text

open Text

/-- A text that is one paragraph as it stands: it is not empty, has no line feed, and no blank at its ends. -/
structure IsParagraph (cs : List Char) : Prop where
  ne_nil : cs ≠ []
  no_feed : '\n' ∉ cs
  head : ∀ c ∈ cs.head?, isBlank c = false
  last : ∀ c ∈ cs.getLast?, isBlank c = false

namespace IsParagraph

variable {cs cs' line : List Char}

theorem trim_eq (h : IsParagraph cs) : trim cs = cs := by
  have hleft : trimLeft cs = cs := by
    obtain ⟨c, rest, rfl⟩ := List.exists_cons_of_ne_nil h.ne_nil
    exact List.dropWhile_cons_of_neg (by simp [h.head c rfl])
  rw [trim, hleft, trimRight_eq, List.rdropWhile_eq_self_iff]
  intro hne
  simp [h.last _ (List.getLast?_eq_some_getLast hne)]

/-- What is left of a line without the blanks around it. -/
theorem of_trim (hfeed : '\n' ∉ line) (hne : trim line ≠ []) : IsParagraph (trim line) := by
  have hstart : trim line <+: trimLeft line := List.rdropWhile_prefix isBlank _
  constructor
  case ne_nil => exact hne
  case no_feed =>
    intro hmem
    exact hfeed ((List.dropWhile_sublist _).subset (hstart.subset hmem))
  case head =>
    intro c hc
    obtain ⟨after, hafter⟩ := hstart
    have hleft : (line.dropWhile isBlank).head? = some c := by
      rw [← trimLeft, ← hafter, List.head?_append_of_ne_nil _ hne]
      exact hc
    have hnot := List.head?_dropWhile_not isBlank line
    rw [hleft] at hnot
    exact hnot
  case last =>
    intro c hc
    have hlast : ¬ isBlank ((trim line).getLast hne) = true := List.rdropWhile_last_not isBlank (trimLeft line) hne
    rw [List.getLast?_eq_some_getLast hne] at hc
    cases hc
    exact Bool.eq_false_iff.mpr hlast

/-- Two paragraphs with a blank between them. -/
theorem join (h : IsParagraph cs) (h' : IsParagraph cs') : IsParagraph (cs ++ ' ' :: cs') := by
  constructor
  case ne_nil => simp
  case no_feed => simp [h.no_feed, h'.no_feed]
  case head =>
    rw [List.head?_append_of_ne_nil _ h.ne_nil]
    exact h.head
  case last =>
    rw [List.getLast?_append_of_ne_nil _ (by simp), List.getLast?_cons_of_ne_nil h'.ne_nil]
    exact h'.last

/-- Lines that are joined by blanks. -/
theorem intercalate {run : List String} (hne : run ≠ []) (h : ∀ line ∈ run, IsParagraph line.toList) :
    IsParagraph (" ".intercalate run).toList := by
  induction run with
  | nil => exact absurd rfl hne
  | cons line run ih =>
    obtain ⟨hline, hrun⟩ := List.forall_mem_cons.mp h
    cases run with
    | nil => simpa using hline
    | cons next run =>
      rw [String.intercalate_cons_cons]
      simpa using hline.join (ih (List.cons_ne_nil _ _) hrun)

end IsParagraph

/-! ## Splitting and joining -/

/-- The paragraphs of a text. It is split at line feeds, and the lines without the blanks around them are split at the
empty ones. -/
def paragraphTexts (cs : List Char) : List String :=
  (((((cs.splitOn '\n').map fun line => String.ofList (trim line)).splitOnP String.isEmpty).filter
    (!·.isEmpty)).map (" ".intercalate ·))

theorem paragraphRuns_eq {current : List String} (h : ∀ line ∈ current, line.isEmpty = false) (ls : List String) :
    paragraphRuns current ls = ((current ++ ls).splitOnP String.isEmpty).filter (!·.isEmpty) := by
  induction ls generalizing current with
  | nil =>
    rw [List.append_nil, List.splitOnP_eq_singleton h]
    cases current <;> rfl
  | cons line ls ih =>
    rw [paragraphRuns]
    by_cases hline : line.isEmpty = true
    -- an empty line ends the run that was gathered, and any other line joins it
    · rw [List.splitOnP_append_cons _ _ hline, List.splitOnP_eq_singleton h]
      have hrest : paragraphRuns [] ls = (ls.splitOnP String.isEmpty).filter (!·.isEmpty) := ih (by simp)
      cases current with
      | nil => simp [hline, hrest]
      | cons first current => simp [hline, hrest]
    · rw [if_neg hline, ih, List.append_assoc]
      · rfl
      · exact List.forall_mem_append.mpr ⟨h, by simpa using hline⟩

/-- The lines of a text are what stands between its line feeds, but for blanks and an empty line at the end. -/
theorem map_trim_pieces (ps : List (List Char)) :
    ps.map trim = (linesOfPieces ps).map trim ∨ ps.map trim = (linesOfPieces ps).map trim ++ [[]] := by
  fun_induction linesOfPieces ps with
  | case1 => exact .inl rfl
  | case2 last hempty =>
    rw [List.isEmpty_iff.mp hempty]
    exact .inr rfl
  | case3 last hempty => exact .inl rfl
  | case4 piece rest hne ih =>
    simp only [List.map_cons, trim_dropReturn, List.cons_append, List.cons.injEq, true_and]
    exact ih

theorem paragraphs_eq (cs : List Char) : paragraphs cs = paragraphTexts cs := by
  rw [paragraphs, paragraphTexts, paragraphRuns_eq (by simp), List.nil_append, ← pieces_eq_splitOn]
  congr 1
  have hlines : ∀ ls : List (List Char), (ls.map fun line => String.ofList (trim line)) =
      (ls.map trim).map String.ofList := by
    intro ls
    rw [List.map_map]
    rfl
  rw [trimmedLines, hlines, hlines, lines]
  rcases map_trim_pieces (pieces '\n' cs) with heq | heq
  · rw [heq]
  · rw [heq, List.map_append, List.map_singleton, List.splitOnP_append_cons _ _ (by rfl)]
    simp

theorem flatten_splitOnP {α : Type} (p : α → Bool) (xs : List α) : (xs.splitOnP p).flatten = xs.filter (!p ·) := by
  induction xs with
  | nil => rfl
  | cons x xs ih =>
    rw [List.splitOnP_cons_eq_if_modifyHead]
    by_cases hx : p x = true
    · simp [hx, ih]
    · obtain ⟨first, others, hsplit⟩ := List.exists_cons_of_ne_nil (List.splitOnP_ne_nil p xs)
      rw [hsplit] at ih ⊢
      simpa [hx] using ih

/-- What stands on the lines of a text is the text without its line feeds. -/
theorem mem_line_iff {c : Char} : (∃ line ∈ cs.splitOn '\n', c ∈ line) ↔ c ∈ cs ∧ c ≠ '\n' := by
  rw [← List.mem_flatten, List.splitOn_eq_splitOnP, flatten_splitOnP]
  simp

/-- There is no paragraph exactly if all is blank. -/
theorem paragraphTexts_eq_nil_iff : paragraphTexts cs = [] ↔ AllBlank cs := by
  have hruns : paragraphTexts cs = [] ↔ ∀ line ∈ cs.splitOn '\n', trim line = [] := by
    rw [paragraphTexts, List.map_eq_nil_iff, List.filter_eq_nil_iff]
    simp only [Bool.not_eq_true', Bool.not_eq_false, List.isEmpty_iff]
    rw [← List.flatten_eq_nil_iff, flatten_splitOnP, List.filter_eq_nil_iff]
    simp
  simp only [hruns, trim_eq_nil_iff]
  constructor
  · intro h c hc
    by_cases hfeed : c = '\n'
    · rw [hfeed]
      decide
    · obtain ⟨line, hline, hmem⟩ := mem_line_iff.mpr ⟨hc, hfeed⟩
      exact h line hline c hmem
  · intro h line hline c hc
    exact h c (mem_line_iff.mp ⟨line, hline, hc⟩).1

theorem isParagraph_of_mem {text : String} (h : text ∈ paragraphTexts cs) : IsParagraph text.toList := by
  obtain ⟨run, hrun, rfl⟩ := List.mem_map.mp h
  obtain ⟨hrun, hne⟩ := List.mem_filter.mp hrun
  refine .intercalate (by simpa using hne) fun line hline => ?_
  have hmem := List.mem_flatten.mpr ⟨run, hrun, hline⟩
  rw [flatten_splitOnP] at hmem
  obtain ⟨hmem, hempty⟩ := List.mem_filter.mp hmem
  obtain ⟨piece, hpiece, rfl⟩ := List.mem_map.mp hmem
  rw [String.toList_ofList]
  refine .of_trim (fun hfeed => ?_) (by simpa using hempty)
  exact absurd rfl (mem_line_iff.mp ⟨piece, hpiece, hfeed⟩).2

/-! ## The normal form -/

theorem splitOn_feed (h : '\n' ∉ cs) : cs.splitOn '\n' = [cs] := by
  rw [List.splitOn_eq_splitOnP]
  exact List.splitOnP_eq_singleton fun c hc => beq_false_of_ne fun heq => h (heq ▸ hc)

theorem paragraphTexts_of_isParagraph {p : String} (h : IsParagraph p.toList) : paragraphTexts p.toList = [p] := by
  have hempty : p.isEmpty = false := by simpa using h.ne_nil
  simp [paragraphTexts, splitOn_feed h.no_feed, h.trim_eq, List.splitOnP_cons_eq_if_modifyHead, hempty]

theorem paragraphTexts_append {p : String} (h : IsParagraph p.toList) (rest : List Char) :
    paragraphTexts (p.toList ++ '\n' :: '\n' :: rest) = p :: paragraphTexts rest := by
  have hempty : p.isEmpty = false := by simpa using h.ne_nil
  have hlines : (p.toList ++ '\n' :: '\n' :: rest).splitOn '\n' = p.toList :: [] :: rest.splitOn '\n' := by
    rw [List.splitOn_eq_splitOnP, List.splitOnP_append_cons _ _ (by rfl), ← List.splitOn_eq_splitOnP,
      splitOn_feed h.no_feed, List.splitOnP_cons_eq_if_modifyHead]
    rfl
  have htrim : trim [] = [] := rfl
  simp [paragraphTexts, hlines, h.trim_eq, htrim, List.splitOnP_cons_eq_if_modifyHead, hempty]

/-- Paragraphs with empty lines between them are split into the same paragraphs. -/
theorem paragraphTexts_intercalate {ps : List String} (h : ∀ p ∈ ps, IsParagraph p.toList) :
    paragraphTexts ("\n\n".intercalate ps).toList = ps := by
  induction ps with
  | nil => rfl
  | cons p ps ih =>
    obtain ⟨hp, hps⟩ := List.forall_mem_cons.mp h
    cases ps with
    | nil =>
      rw [String.intercalate_singleton]
      exact paragraphTexts_of_isParagraph hp
    | cons next ps =>
      rw [String.intercalate_cons_cons, String.toList_append, String.toList_append, List.append_assoc]
      exact (paragraphTexts_append hp _).trans (congrArg (p :: ·) (ih hps))

/-- A text in normal form: its paragraphs with an empty line between each two. -/
def normalForm (cs : List Char) : String := "\n\n".intercalate (paragraphTexts cs)

/-- The normal form of a text that is not all blank. -/
def normalForm? (cs : List Char) : Option String :=
  if AllBlank cs then none else some (normalForm cs)

theorem description?_eq (cs : List Char) : description? cs = normalForm? cs := by
  rw [description?, paragraphs_eq, normalForm?]
  by_cases h : AllBlank cs
  · rw [if_pos h, paragraphTexts_eq_nil_iff.mpr h]
  · rw [if_neg h, normalForm]
    obtain ⟨p, ps, hps⟩ := List.exists_cons_of_ne_nil (mt paragraphTexts_eq_nil_iff.mp h)
    rw [hps]

/-- The normal form of a text is in normal form. -/
theorem normalForm?_idempotent {text : String} (h : normalForm? cs = some text) :
    normalForm? text.toList = some text := by
  unfold normalForm? at h
  split at h
  · cases h
  · next hblank =>
    cases h
    have hsame : paragraphTexts (normalForm cs).toList = paragraphTexts cs :=
      paragraphTexts_intercalate fun p hp => isParagraph_of_mem hp
    have hsome : ¬ AllBlank (normalForm cs).toList := by
      rw [← paragraphTexts_eq_nil_iff, hsame]
      exact mt paragraphTexts_eq_nil_iff.mp hblank
    rw [normalForm?, if_neg hsome, normalForm, hsame]
    rfl

end QiIdl
