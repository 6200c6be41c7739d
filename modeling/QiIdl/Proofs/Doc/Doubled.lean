import QiIdl.Proofs.Bind
import QiIdl.Proofs.Doc.Faults

/-!
# Writing a description

To write a text so that it is read as a description and nothing else, every backslash in it is doubled. Then no
backslash is single, so nothing starts a section and nothing is unknown. What is read is the normal form of the text
(`Doc.parse_doubled`); and what was read once is in normal form already, so to write it and to read it again changes
nothing. The brief needs no argument of its own, because it can be read off the description (`Doc.ofFree_eq`).
-/

namespace QiIdl

open Text

/-- A text with every backslash doubled. -/
def doubled (text : String) : String :=
  String.ofList (text.toList.flatMap fun c => if c = '\\' then ['\\', '\\'] else [c])

/-- The start of a description up to its first full stop or the end of its first paragraph. -/
def briefOf (description : String) : String :=
  String.ofList (description.toList.takeWhile fun c => c != '.' && c != '\n')

/-- A doubled text is read back as free text. -/
theorem DocParts.ofText_doubled (text : String) : ofText (doubled text).toList = .ok ⟨text.toList, []⟩ := by
  rw [doubled, String.toList_ofList]
  induction text.toList with
  | nil => rw [List.flatMap_nil, ofText]
  | cons c cs ih =>
    rw [List.flatMap_cons]
    by_cases hc : c = '\\'
    · rw [if_pos hc, List.cons_append, List.singleton_append, ofText_pair, ih, hc]
      rfl
    · rw [if_neg hc, List.singleton_append, ofText_plain fun h => absurd h hc, ih]
      rfl

namespace Doc

/-! ## The brief -/

theorem takeWhile_brief {cs rest : List Char} (h : '\n' ∉ cs) (hrest : ∀ c ∈ rest.head?, c = '\n') :
    (cs ++ rest).takeWhile (fun c => c != '.' && c != '\n') = cs.takeWhile (· != '.') := by
  induction cs with
  | nil =>
    cases rest with
    | nil => rfl
    | cons c rest => simp [hrest c rfl]
  | cons c cs ih =>
    rw [List.mem_cons, not_or] at h
    obtain ⟨hc, hcs⟩ := h
    by_cases hstop : c = '.'
    · simp [hstop]
    · simpa [hstop, Ne.symm hc] using ih hcs

/-- The first paragraph of a text up to its first full stop can be read off the normal form. -/
theorem briefOf_normalForm (cs : List Char) :
    (paragraphTexts cs).head?.map upToStop = (normalForm? cs).map briefOf := by
  unfold normalForm? normalForm
  by_cases hblank : AllBlank cs
  · rw [if_pos hblank, paragraphTexts_eq_nil_iff.mpr hblank]
    rfl
  · rw [if_neg hblank]
    obtain ⟨p, ps, hps⟩ := List.exists_cons_of_ne_nil (mt paragraphTexts_eq_nil_iff.mp hblank)
    have hparagraph : IsParagraph p.toList := isParagraph_of_mem (hps ▸ List.mem_cons_self)
    rw [hps, List.head?_cons, Option.map_some, Option.map_some, upToStop, briefOf]
    cases ps with
    | nil =>
      have hend : ∀ c ∈ ([] : List Char).head?, c = '\n' := by simp
      have hbrief := takeWhile_brief hparagraph.no_feed hend
      rw [String.intercalate_singleton, ← hbrief, List.append_nil]
    | cons next ps =>
      rw [String.intercalate_cons_cons, String.toList_append, String.toList_append, List.append_assoc,
        takeWhile_brief hparagraph.no_feed (by simp)]

/-- What free text alone gives, by its normal form. -/
theorem ofFree_eq (cs : List Char) : ofFree cs = ⟨(normalForm? cs).map briefOf, normalForm? cs, [], none, [], []⟩ := by
  rw [ofFree, paragraphs_eq, briefOf_normalForm, description?_eq]

/-! ## Sections leave the description alone -/

theorem entered_description (d : Doc) (s : DocSection) :
    (d.entered s).brief = d.brief ∧ (d.entered s).description = d.description := by
  unfold entered
  cases s.command with
  | returns => dsimp only; split <;> exact ⟨rfl, rfl⟩
  | param => dsimp only; split <;> exact ⟨rfl, rfl⟩
  | throws => dsimp only; split <;> exact ⟨rfl, rfl⟩

theorem foldl_entered_description (d : Doc) (ss : List DocSection) :
    (ss.foldl entered d).brief = d.brief ∧ (ss.foldl entered d).description = d.description := by
  induction ss generalizing d with
  | nil => exact ⟨rfl, rfl⟩
  | cons s ss ih =>
    obtain ⟨hbrief, hdescription⟩ := entered_description d s
    obtain ⟨hbrief', hdescription'⟩ := ih (d.entered s)
    exact ⟨hbrief'.trans hbrief, hdescription'.trans hdescription⟩

/-- The brief and the description of any documentation come from one text, in normal form. -/
theorem exists_normalForm?_of_parse {text : String} {d : Doc} (h : parse text = .ok d) :
    ∃ cs, d.description = normalForm? cs ∧ d.brief = (normalForm? cs).map briefOf := by
  obtain ⟨hbrief, hdescription⟩ := foldl_entered_description
    (ofFree (DocParts.freeText text.toList)) (DocParts.readSections text.toList)
  rw [← eq_foldl_of_parse h, ofFree_eq] at hbrief hdescription
  exact ⟨DocParts.freeText text.toList, hdescription, hbrief⟩

/-! ## Writing and reading -/

theorem parse_of_doubled (text : String) : parse (doubled text) =
    .ok ⟨(normalForm? text.toList).map briefOf, normalForm? text.toList, [], none, [], []⟩ := by
  rw [parse, DocParts.ofText_doubled, ← ofFree_eq]
  rfl

/-- A doubled text is read as its normal form and nothing else. A description that was read from any text is in normal
form: doubled, it is read as itself, with the same brief. -/
theorem parse_doubled (text : String) :
    parse (doubled text) = .ok ⟨(normalForm? text.toList).map briefOf, normalForm? text.toList, [], none, [], []⟩ ∧
    ∀ d description, parse text = .ok d → d.description = some description →
      ∃ again, parse (doubled description) = .ok again ∧ again.description = d.description ∧ again.brief = d.brief := by
  refine ⟨parse_of_doubled text, fun d description hparse hdescription => ⟨_, parse_of_doubled description, ?_⟩⟩
  obtain ⟨cs, hnormal, hbrief⟩ := exists_normalForm?_of_parse hparse
  rw [hbrief, hnormal]
  rw [hnormal] at hdescription
  rw [normalForm?_idempotent hdescription, hdescription]
  exact ⟨rfl, rfl⟩

/-- A text with every kind of trouble: a pair and a single backslash, blanks of other scripts, carriage returns, blank
lines and a section. What it describes is read again as it is. -/
theorem parse_doubled_blanks :
    let text := " See\u00a0\\\\param\r\n\u2003here, or \\. \t\n \u3000\n\r\nEnd.\r\n\\return\ta value"
    let description := "See\u00a0\\param here, or \\.\n\nEnd."
    ∃ d again, parse text = .ok d ∧ d.description = some description ∧ d.brief = some "See\u00a0\\param here, or \\" ∧
      parse (doubled description) = .ok again ∧ again.description = d.description ∧ again.brief = d.brief := by
  intro text description
  have hparses : (parse text).toOption.any (fun d =>
      d.description == some description && d.brief == some "See\u00a0\\param here, or \\") = true := by decide +kernel
  obtain ⟨d, hparse, hresult⟩ := exists_ok_of_any hparses
  rw [Bool.and_eq_true, beq_iff_eq, beq_iff_eq] at hresult
  obtain ⟨again, hagain⟩ := (parse_doubled text).2 d description hparse hresult.1
  exact ⟨d, again, hparse, hresult.1, hresult.2, hagain⟩

end Doc

end QiIdl
