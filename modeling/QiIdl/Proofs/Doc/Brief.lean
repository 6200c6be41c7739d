import QiIdl.Proofs.Doc.Doubled

/-!
# The brief as it is written

Reading replaces pairs of backslashes by single ones before the text is cut into lines, trimmed, joined to paragraphs and
cut at the first full stop. All of this happens at characters that are no backslashes, so it can be done first as well:
the brief that is read is the brief that is written, with pairs read as one (`Doc.brief_eq_of_parse`). In particular they
end in the same character.
-/

namespace QiIdl

open Text

namespace DocParts

/-! ## Pairs of backslashes -/

theorem getLast?_unescape (cs : List Char) : (unescape cs).getLast? = cs.getLast? := by
  fun_induction unescape cs with
  | case1 rest ih => simp [List.getLast?_cons, ih]
  | case2 c rest hpair ih => simp [List.getLast?_cons, ih]
  | case3 => rfl

theorem mem_unescape {c : Char} {cs : List Char} (h : c ∈ unescape cs) : c ∈ cs := by
  fun_induction unescape cs with
  | case1 rest ih =>
    rcases List.mem_cons.mp h with rfl | h
    · exact List.mem_cons_self
    · exact List.mem_cons_of_mem _ (List.mem_cons_of_mem _ (ih h))
  | case2 d rest hpair ih =>
    rcases List.mem_cons.mp h with rfl | h
    · exact List.mem_cons_self
    · exact List.mem_cons_of_mem _ (ih h)
  | case3 => exact h

theorem unescape_append_cons {c : Char} (hc : c ≠ '\\') (cs rest : List Char) :
    unescape (cs ++ c :: rest) = unescape cs ++ c :: unescape rest := by
  fun_induction unescape cs with
  | case1 cs ih => rw [List.cons_append, List.cons_append, unescape, ih, List.cons_append]
  | case2 d cs hpair ih =>
    rw [List.cons_append, unescape_cons, ih, List.cons_append]
    rintro rfl hhead
    cases cs with
    | nil => exact hc (Option.some.inj hhead)
    | cons e cs =>
      cases hhead
      exact hpair cs rfl rfl
  | case3 => rw [List.nil_append, List.nil_append, unescape_cons fun h => absurd h hc]

theorem takeWhile_unescape {p : Char → Bool} (hp : p '\\' = true) (cs : List Char) :
    (unescape cs).takeWhile p = unescape (cs.takeWhile p) := by
  fun_induction unescape cs with
  | case1 rest ih => simp [hp, ih, unescape]
  | case2 c rest hpair ih =>
    cases hc : p c with
    | false => simp [hc, unescape]
    | true =>
      rw [List.takeWhile_cons_of_pos hc, List.takeWhile_cons_of_pos hc, ih, unescape_cons]
      rintro rfl hhead
      cases rest with
      | nil => cases hhead
      | cons d rest =>
        cases hd : p d with
        | false =>
          rw [List.takeWhile_cons_of_neg (by simp [hd])] at hhead
          cases hhead
        | true =>
          rw [List.takeWhile_cons_of_pos hd] at hhead
          cases hhead
          exact hpair rest rfl rfl
  | case3 => rfl

theorem unescape_intercalate {sep : Char} (hsep : sep ≠ '\\') (parts : List (List Char)) :
    unescape ([sep].intercalate parts) = [sep].intercalate (parts.map unescape) := by
  induction parts with
  | nil => rfl
  | cons part parts ih =>
    cases parts with
    | nil => simp
    | cons next parts =>
      rw [List.intercalate_cons_cons, List.append_assoc, List.singleton_append, unescape_append_cons hsep, ih]
      simp

theorem pieces_unescape {sep : Char} (hsep : sep ≠ '\\') (cs : List Char) :
    pieces sep (unescape cs) = (pieces sep cs).map unescape := by
  have hparts : ∀ part ∈ (pieces sep cs).map unescape, sep ∉ part := by
    intro part hpart hmem
    obtain ⟨written, hwritten, rfl⟩ := List.mem_map.mp hpart
    exact not_mem_of_mem_pieces hwritten (mem_unescape hmem)
  have hne : (pieces sep cs).map unescape ≠ [] := mt List.map_eq_nil_iff.mp (pieces_ne_nil sep cs)
  calc pieces sep (unescape cs) = pieces sep (unescape ([sep].intercalate (pieces sep cs))) := by rw [intercalate_pieces]
    _ = pieces sep ([sep].intercalate ((pieces sep cs).map unescape)) := by rw [unescape_intercalate hsep]
    _ = (pieces sep cs).map unescape := by
      rw [pieces_eq_splitOn, List.splitOn_intercalate _ hparts hne]

theorem trimRight_unescape (cs : List Char) : trimRight (unescape cs) = unescape (trimRight cs) := by
  induction cs using List.reverseRecOn with
  | nil => rfl
  | append_singleton cs c ih =>
    rw [trimRight_eq, trimRight_eq] at ih ⊢
    by_cases hc : isBlank c = true
    · have hother : c ≠ '\\' := by
        rintro rfl
        rw [isBlank_backslash] at hc
        cases hc
      rw [unescape_append_cons hother, unescape, List.rdropWhile_concat_pos _ _ _ hc, List.rdropWhile_concat_pos _ _ _ hc, ih]
    · have hlast : (unescape (cs ++ [c])).getLast? = some c := by rw [getLast?_unescape, List.getLast?_concat]
      rw [List.rdropWhile_concat_neg _ _ _ hc, List.rdropWhile_eq_self_iff]
      intro hne
      rw [List.getLast?_eq_some_getLast hne] at hlast
      rwa [Option.some.inj hlast]

theorem trim_unescape (cs : List Char) : trim (unescape cs) = unescape (trim cs) := by
  rw [trim, trim, trimLeft, trimLeft, dropWhile_isBlank_unescape, trimRight_unescape]

/-! ## Paragraphs -/

/-- A text as it is read. -/
def readText (text : String) : String := String.ofList (unescape text.toList)

theorem isEmpty_readText (text : String) : (readText text).isEmpty = text.isEmpty := by
  have hlist (cs : List Char) : unescape cs = [] ↔ cs = [] := by
    rw [← List.getLast?_eq_none_iff, getLast?_unescape, List.getLast?_eq_none_iff]
  rw [Bool.eq_iff_iff, String.isEmpty_iff, String.isEmpty_iff, ← String.toList_inj, ← String.toList_inj, readText,
    String.toList_ofList]
  exact hlist text.toList

theorem paragraphRuns_readText (current lines : List String) :
    paragraphRuns (current.map readText) (lines.map readText) = (paragraphRuns current lines).map (·.map readText) := by
  induction lines generalizing current with
  | nil =>
    simp only [List.map_nil, paragraphRuns, List.isEmpty_map]
    split <;> rfl
  | cons line lines ih =>
    have hnext := ih (current ++ [line])
    have hrest := ih []
    rw [List.map_append] at hnext
    simp only [List.map_cons, paragraphRuns, isEmpty_readText, List.isEmpty_map, List.map_nil] at hnext hrest ⊢
    split
    · split
      · exact hrest
      · rw [List.map_cons, hrest]
    · exact hnext

theorem intercalate_readText (run : List String) : " ".intercalate (run.map readText) = readText (" ".intercalate run) := by
  have hlists : (run.map readText).map String.toList = (run.map String.toList).map unescape := by
    simp [readText]
  rw [← String.toList_inj, readText, String.toList_ofList, String.toList_intercalate, String.toList_intercalate, hlists]
  exact (unescape_intercalate (by decide) _).symm

theorem paragraphs_unescape (cs : List Char) : paragraphs (unescape cs) = (paragraphs cs).map readText := by
  have hruns (cs : List Char) : paragraphs cs =
      (paragraphRuns [] ((pieces '\n' cs).map fun line => String.ofList (trim line))).map (" ".intercalate ·) := by
    rw [paragraphs_eq, paragraphTexts, paragraphRuns_eq (List.forall_mem_nil _), List.nil_append, pieces_eq_splitOn]
  have hlines : (pieces '\n' (unescape cs)).map (fun line => String.ofList (trim line)) =
      ((pieces '\n' cs).map fun line => String.ofList (trim line)).map readText := by
    rw [pieces_unescape (by decide), List.map_map, List.map_map]
    refine List.map_congr_left fun line _ => ?_
    simp [readText, trim_unescape]
  have hread := paragraphRuns_readText [] ((pieces '\n' cs).map fun line => String.ofList (trim line))
  rw [List.map_nil] at hread
  rw [hruns, hruns, hlines, hread, List.map_map, List.map_map]
  exact List.map_congr_left fun run _ => intercalate_readText run

theorem upToStop_readText (text : String) : upToStop (readText text) = readText (upToStop text) := by
  rw [upToStop, upToStop, readText, readText, String.toList_ofList, String.toList_ofList, takeWhile_unescape (by decide)]

/-- The text before the first marker as it is written. -/
def writtenFree (cs : List Char) : List Char := cs.extract 0 ((markers cs).headD cs.length)

end DocParts

namespace Doc

open DocParts

/-- The first paragraph of the free text up to its first full stop, as it is written. -/
def writtenBrief (text : String) : Option String := (paragraphs (writtenFree text.toList)).head?.map upToStop

/-- The brief that is read is the brief that is written, with pairs of backslashes read as one. -/
theorem brief_eq_of_parse {text : String} {d : Doc} (h : parse text = .ok d) :
    d.brief = (writtenBrief text).map readText := by
  have hbrief : d.brief = (ofFree (freeText text.toList)).brief := by
    rw [eq_foldl_of_parse h]
    exact (foldl_entered_description _ _).1
  have hfree : freeText text.toList = unescape (writtenFree text.toList) := rfl
  rw [hbrief, ofFree, hfree, paragraphs_unescape, writtenBrief, List.head?_map, Option.map_map, Option.map_map]
  exact congrArg (Option.map · _) (funext upToStop_readText)

/-- There is no line feed in a brief. -/
theorem newline_not_mem_writtenBrief {text brief : String} (h : writtenBrief text = some brief) : '\n' ∉ brief.toList := by
  obtain ⟨paragraph, hparagraph, rfl⟩ := Option.map_eq_some_iff.mp h
  have hmem : paragraph ∈ paragraphTexts (writtenFree text.toList) :=
    paragraphs_eq _ ▸ List.mem_of_mem_head? hparagraph
  rw [upToStop, String.toList_ofList]
  exact fun hfeed => (isParagraph_of_mem hmem).no_feed ((List.takeWhile_sublist _).subset hfeed)

end Doc
end QiIdl
