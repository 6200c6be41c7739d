import QiIdl.Proofs.Doc.Paragraphs
import QiIdl.Proofs.Doc.Sections

/-!
# When documentation is refused

A documentation text can be wrong in three ways: a marker is unknown, a section that needs a name has none, or a section
says nothing. The markers are looked at first, all of them; so an unknown one is reported even if it stands behind a
section with another fault (`Doc.parse_eq_error_iff`). After that the sections are gone through in order.

Whether a section has a fault can be seen in the text as it is written. Reading it replaces pairs of backslashes by
single ones, and neither is blank (`fault?_unescaped`).
-/

namespace QiIdl

open Text

namespace DocSection

/-- The name at the start of a section that is about a parameter or an error. -/
def name (s : DocSection) : List Char := (trimLeft s.body).takeWhile (!isBlank ·)

/-- What a section says: all of it, or what stands behind the name. -/
def text (s : DocSection) : List Char :=
  match s.command with
  | .returns => s.body
  | .param | .throws => (trimLeft s.body).dropWhile (!isBlank ·)

/-- What is wrong with a section. -/
def fault? (s : DocSection) : Option DocError :=
  if s.command ≠ .returns ∧ AllBlank s.body then some (.missingName s.command)
  else if AllBlank s.text then some (.missingDescription s.command)
  else none

end DocSection

/-! ## Faults of a section -/

namespace Doc

variable {s : DocSection}

theorem described_eq (command : DocCommand) (cs : List Char) :
    described command cs =
      if AllBlank cs then .error (.missingDescription command) else .ok (normalForm cs) := by
  rw [described, description?_eq, normalForm?]
  by_cases h : AllBlank cs
  · rw [if_pos h, if_pos h]
  · rw [if_neg h, if_neg h]

theorem takeWhile_trimLeft_eq_nil_iff {cs : List Char} :
    (trimLeft cs).takeWhile (!isBlank ·) = [] ↔ AllBlank cs := by
  rw [AllBlank, ← List.dropWhile_eq_nil_iff, ← trimLeft]
  cases h : trimLeft cs with
  | nil => simp
  | cons c rest =>
    have hnot := List.head?_dropWhile_not isBlank cs
    rw [← trimLeft, h] at hnot
    simp only [List.head?_cons] at hnot
    simp [hnot]

theorem named_eq (command : DocCommand) (cs : List Char) :
    named command cs =
      if AllBlank cs then .error (.missingName command)
      else (described command ((trimLeft cs).dropWhile (!isBlank ·))).map
        fun text => (String.ofList ((trimLeft cs).takeWhile (!isBlank ·)), text) := by
  rw [named]
  by_cases h : AllBlank cs
  · simp [if_pos h, takeWhile_trimLeft_eq_nil_iff.mpr h]
  · rw [if_neg h, if_neg]
    · rfl
    · rwa [List.isEmpty_iff, takeWhile_trimLeft_eq_nil_iff]

theorem text_of_ne (h : s.command ≠ .returns) : s.text = (trimLeft s.body).dropWhile (!isBlank ·) := by
  unfold DocSection.text
  cases hs : s.command with
  | returns => exact absurd hs h
  | param => rfl
  | throws => rfl

theorem text_of_eq (h : s.command = .returns) : s.text = s.body := by
  rw [DocSection.text, h]

/-- What a section about a parameter or an error gives: a name and a description, or its fault. -/
theorem named_body (h : s.command ≠ .returns) :
    named s.command s.body = s.fault?.elim (.ok (String.ofList s.name, normalForm s.text)) .error := by
  rw [named_eq, described_eq, DocSection.fault?, ← text_of_ne h]
  by_cases hbody : AllBlank s.body
  · rw [if_pos hbody, if_pos ⟨h, hbody⟩]
    rfl
  · have hname : ¬ (s.command ≠ .returns ∧ AllBlank s.body) := fun hboth => hbody hboth.2
    rw [if_neg hbody, if_neg hname]
    by_cases htext : AllBlank s.text
    · rw [if_pos htext, if_pos htext]
      rfl
    · rw [if_neg htext, if_neg htext]
      rfl

/-- What a section about the returned value gives: a description, or its fault. -/
theorem described_body (h : s.command = .returns) :
    described s.command s.body = s.fault?.elim (.ok (normalForm s.text)) .error := by
  have hname : ¬ (s.command ≠ .returns ∧ AllBlank s.body) := fun hboth => hboth.1 h
  rw [described_eq, DocSection.fault?, if_neg hname, text_of_eq h]
  by_cases htext : AllBlank s.body
  · rw [if_pos htext, if_pos htext]
    rfl
  · rw [if_neg htext, if_neg htext]
    rfl

/-- The documentation with a section entered. What comes a second time is left out with a warning. -/
def entered (d : Doc) (s : DocSection) : Doc :=
  match s.command with
  | .returns =>
    if d.returns.isSome then d.warn "multiple \\return declaration" else { d with returns := some (normalForm s.text) }
  | .param =>
    if (d.params.lookup (String.ofList s.name)).isSome then d.warn (repeated (String.ofList s.name))
    else { d with params := d.params ++ [(String.ofList s.name, normalForm s.text)] }
  | .throws =>
    if (d.throws.lookup (String.ofList s.name)).isSome then d.warn (repeated (String.ofList s.name))
    else { d with throws := d.throws ++ [(String.ofList s.name, normalForm s.text)] }

/-- A section is entered if it has no fault, whatever was entered before. -/
theorem add_eq (d : Doc) (s : DocSection) : add d s = s.fault?.elim (.ok (d.entered s)) .error := by
  unfold add entered
  cases hs : s.command with
  | returns =>
    have hbody := described_body hs
    rw [hs] at hbody
    simp only [hbody]
    cases s.fault? <;> rfl
  | param =>
    have hbody := named_body (s := s) (by simp [hs])
    rw [hs] at hbody
    simp only [hbody]
    cases s.fault? <;> rfl
  | throws =>
    have hbody := named_body (s := s) (by simp [hs])
    rw [hs] at hbody
    simp only [hbody]
    cases s.fault? <;> rfl

/-- Of several sections the first one with a fault counts. -/
theorem foldlM_add (d : Doc) (ss : List DocSection) :
    ss.foldlM add d = (ss.findSome? DocSection.fault?).elim (.ok (ss.foldl entered d)) .error := by
  induction ss generalizing d with
  | nil => rfl
  | cons s ss ih =>
    rw [List.foldlM_cons, List.findSome?_cons, add_eq]
    cases s.fault? with
    | some e => rfl
    | none => exact ih (d.entered s)

end Doc

/-! ## Sections as they are written -/

namespace DocParts

variable {cs : List Char}

theorem isBlank_backslash : isBlank '\\' = false := by decide

theorem allBlank_unescape : AllBlank (unescape cs) ↔ AllBlank cs := by
  unfold AllBlank
  fun_induction unescape cs with
  | case1 rest ih => simp [isBlank_backslash]
  | case2 c rest hpair ih => simp [ih]
  | case3 => rfl

theorem dropWhile_isBlank_unescape (cs : List Char) :
    (unescape cs).dropWhile isBlank = unescape (cs.dropWhile isBlank) := by
  fun_induction unescape cs with
  | case1 rest ih => simp [isBlank_backslash, unescape]
  | case2 c rest hpair ih =>
    cases hc : isBlank c with
    | true => simpa [hc] using ih
    | false => simp [hc, unescape]
  | case3 => rfl

theorem dropWhile_not_isBlank_unescape (cs : List Char) :
    (unescape cs).dropWhile (!isBlank ·) = unescape (cs.dropWhile (!isBlank ·)) := by
  fun_induction unescape cs with
  | case1 rest ih => simpa [isBlank_backslash] using ih
  | case2 c rest hpair ih =>
    cases hc : isBlank c with
    | true => simp [hc, unescape]
    | false => simpa [hc] using ih
  | case3 => rfl

theorem text_unescaped (s : DocSection) : (unescaped s).text = unescape s.text := by
  unfold DocSection.text unescaped
  cases s.command with
  | returns => rfl
  | param => simp only [trimLeft, dropWhile_isBlank_unescape, dropWhile_not_isBlank_unescape]
  | throws => simp only [trimLeft, dropWhile_isBlank_unescape, dropWhile_not_isBlank_unescape]

/-- A section has the same fault as it is written and as it is read. -/
theorem fault?_unescaped (s : DocSection) : (unescaped s).fault? = s.fault? := by
  simp only [DocSection.fault?, text_unescaped, allBlank_unescape]
  simp only [unescaped, allBlank_unescape]

/-- The sections of a text as they are read. -/
def readSections (cs : List Char) : List DocSection := (writtenSections cs).map unescaped

theorem findSome?_fault?_readSections (cs : List Char) :
    (readSections cs).findSome? DocSection.fault? = (writtenSections cs).findSome? DocSection.fault? := by
  rw [readSections, List.findSome?_map]
  congr 1
  funext s
  exact fault?_unescaped s

end DocParts

/-! ## Faults of a text -/

namespace Doc

open DocParts

variable {text : String}

theorem fault?_ne_unknownCommand (s : DocSection) (word : String) : s.fault? ≠ some (.unknownCommand word) := by
  unfold DocSection.fault?
  split
  · simp
  · split <;> simp

/-- Either there is a first unknown marker, which is reported, or the sections decide. -/
theorem parse_cases (text : String) :
    (∃ i, IsUnknown text.toList i ∧ (∀ j < i, ¬ IsUnknown text.toList j) ∧
      parse text = .error (.unknownCommand (String.ofList (wordAt text.toList i)))) ∨
    ((∀ i, ¬ IsUnknown text.toList i) ∧
      parse text = ((writtenSections text.toList).findSome? DocSection.fault?).elim
        (.ok ((readSections text.toList).foldl entered (ofFree (freeText text.toList)))) .error) := by
  rcases ofText_cases text.toList with ⟨i, hi, hfirst, hread⟩ | ⟨hnone, hread⟩
  · refine .inl ⟨i, hi, hfirst, ?_⟩
    rw [parse, hread]
    rfl
  · refine .inr ⟨hnone, ?_⟩
    rw [parse, hread, ← findSome?_fault?_readSections]
    exact foldlM_add _ _

/-- What is read is the free text with the sections entered one after the other. -/
theorem eq_foldl_of_parse {d : Doc} (h : parse text = .ok d) :
    d = (readSections text.toList).foldl entered (ofFree (freeText text.toList)) := by
  rcases parse_cases text with ⟨i, -, -, hparse⟩ | ⟨-, hparse⟩
  · cases hparse.symm.trans h
  · rw [h] at hparse
    cases hfault : (writtenSections text.toList).findSome? DocSection.fault? with
    | some e =>
      rw [hfault] at hparse
      cases hparse
    | none =>
      rw [hfault] at hparse
      exact Except.ok.inj hparse

theorem parse_eq_error_of_known (h : ∀ i, ¬ IsUnknown text.toList i) (e : DocError) :
    parse text = .error e ↔ (writtenSections text.toList).findSome? DocSection.fault? = some e := by
  rcases parse_cases text with ⟨i, hi, -⟩ | ⟨-, hparse⟩
  · exact absurd hi (h i)
  · rw [hparse]
    cases (writtenSections text.toList).findSome? DocSection.fault? <;> simp

theorem parse_eq_unknownCommand_iff (word : String) :
    parse text = .error (.unknownCommand word) ↔ ∃ i, IsUnknown text.toList i ∧
      (∀ j < i, ¬ IsUnknown text.toList j) ∧ word = String.ofList (wordAt text.toList i) := by
  rcases parse_cases text with ⟨i, hi, hfirst, hparse⟩ | ⟨hnone, -⟩
  · rw [hparse, Except.error.injEq, DocError.unknownCommand.injEq]
    constructor
    · intro hword
      exact ⟨i, hi, hfirst, hword.symm⟩
    · rintro ⟨j, hj, hfirst', rfl⟩
      have hle : i ≤ j := Nat.le_of_not_lt fun hlt => hfirst j hlt hj
      have hge : j ≤ i := Nat.le_of_not_lt fun hlt => hfirst' i hlt hi
      rw [Nat.le_antisymm hle hge]
  · constructor
    · intro h
      obtain ⟨s, -, hfault⟩ := List.exists_of_findSome?_eq_some ((parse_eq_error_of_known hnone _).mp h)
      exact absurd hfault (fault?_ne_unknownCommand s word)
    · rintro ⟨i, hi, -⟩
      exact absurd hi (hnone i)

theorem exists_parse_eq_ok_iff : (∃ d, parse text = .ok d) ↔
    (∀ i, ¬ IsUnknown text.toList i) ∧ ∀ s ∈ writtenSections text.toList, s.fault? = none := by
  rw [← List.findSome?_eq_none_iff]
  rcases parse_cases text with ⟨i, hi, -, hparse⟩ | ⟨hnone, hparse⟩
  · rw [hparse]
    constructor
    · rintro ⟨d, hd⟩
      cases hd
    · intro h
      exact absurd hi (h.1 i)
  · rw [hparse]
    cases (writtenSections text.toList).findSome? DocSection.fault? with
    | none => simpa using hnone
    | some e => simp

/-- A text is refused in these cases only. An unknown marker is reported, the first one if there are several, and with
all of its word. Without unknown markers the markers start sections, and the fault of the first section that has one is
reported. If no section has a fault either, the text is read. -/
theorem parse_eq_error_iff (text : String) :
    (∀ word, parse text = .error (.unknownCommand word) ↔ ∃ i, IsUnknown text.toList i ∧
      (∀ j < i, ¬ IsUnknown text.toList j) ∧ word = String.ofList (wordAt text.toList i)) ∧
    ((∀ i, ¬ IsUnknown text.toList i) → ∀ e, parse text = .error e ↔
      (writtenSections text.toList).findSome? DocSection.fault? = some e) ∧
    ((∃ d, parse text = .ok d) ↔
      (∀ i, ¬ IsUnknown text.toList i) ∧ ∀ s ∈ writtenSections text.toList, s.fault? = none) :=
  ⟨parse_eq_unknownCommand_iff, parse_eq_error_of_known, exists_parse_eq_ok_iff⟩

/-- Of three backslashes the last one is a marker, of two none is. The first section has a name, but nothing behind it;
the second one says nothing either and is not reached. -/
theorem parse_eq_error_iff_backslashes :
    let text := "Not \\\\param.\n\\\\\\param x\n\\return"
    (∀ i, ¬ IsUnknown text.toList i) ∧
      writtenSections text.toList = [⟨.param, [' ', 'x', '\n']⟩, ⟨.returns, []⟩] ∧
      parse text = .error (.missingDescription .param) := by
  intro text
  have hbounded : ∀ i < text.toList.length,
      ¬ (decide (IsMarker text.toList i) && (commandAt? text.toList i).isNone) = true := by decide +kernel
  have hknown : ∀ i, ¬ IsUnknown text.toList i := by
    intro i hi
    obtain ⟨hlt, hunknown⟩ := isUnknown_iff.mp hi
    exact hbounded i hlt hunknown
  have hsections : writtenSections text.toList = [⟨.param, [' ', 'x', '\n']⟩, ⟨.returns, []⟩] := by decide +kernel
  refine ⟨hknown, hsections, ((parse_eq_error_iff text).2.1 hknown _).mpr ?_⟩
  rw [hsections]
  decide +kernel

end Doc

end QiIdl
