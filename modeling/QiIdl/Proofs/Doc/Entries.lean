import QiIdl.Proofs.Bind
import QiIdl.Proofs.Doc.Faults

/-!
# What sections come to

Documentation keeps one entry for a name and one description of the returned value, whichever comes first, and every
section that is left out leaves a warning. So each section is accounted for, as an entry or as a warning (`Accounts`).
Sections of the three kinds may come in any order; entering one more keeps the account (`Accounts.entered`), hence so
does reading all of them.
-/

namespace QiIdl.Doc

open DocParts

/-! ## The first of each name -/

/-- The first entry of each name, in the order in which they come. -/
def firsts : List (String × String) → List (String × String)
  | [] => []
  | e :: es => e :: (firsts es).filter (·.1 ≠ e.1)

variable {es : List (String × String)} {e : String × String} {name : String}

theorem lookup_filter_ne {other : String} (h : name ≠ other) (es : List (String × String)) :
    (es.filter (·.1 ≠ other)).lookup name = es.lookup name := by
  induction es with
  | nil => rfl
  | cons e es ih =>
    by_cases he : e.1 = other
    · rw [List.filter_cons_of_neg (by simp [he]), ih, List.lookup_cons, beq_false_of_ne fun heq => h (heq.trans he)]
    · rw [List.filter_cons_of_pos (by simp [he]), List.lookup_cons, List.lookup_cons, ih]

/-- A look-up sees no more than the first entries. -/
theorem lookup_firsts (es : List (String × String)) (name : String) : (firsts es).lookup name = es.lookup name := by
  induction es with
  | nil => rfl
  | cons e es ih =>
    rw [firsts, List.lookup_cons, List.lookup_cons]
    cases hname : name == e.1 with
    | true => rfl
    | false => rw [lookup_filter_ne (by simpa using hname), ih]

theorem nodup_firsts (es : List (String × String)) : ((firsts es).map Prod.fst).Nodup := by
  induction es with
  | nil => exact .nil
  | cons e es ih =>
    rw [firsts, List.map_cons, List.nodup_cons]
    refine ⟨?_, ih.sublist (List.filter_sublist.map _)⟩
    simp

/-- An entry of a name that is there is left out, and one of a new name comes last. -/
theorem firsts_concat (es : List (String × String)) (e : String × String) :
    firsts (es ++ [e]) = if (es.lookup e.1).isSome then firsts es else firsts es ++ [e] := by
  induction es with
  | nil => rfl
  | cons first es ih =>
    rw [List.cons_append, firsts, ih, firsts, List.lookup_cons]
    cases hname : e.1 == first.1 with
    | true =>
      have heq : e.1 = first.1 := beq_iff_eq.mp hname
      cases (es.lookup e.1).isSome <;> simp [heq]
    | false =>
      have hne : e.1 ≠ first.1 := by simpa using hname
      cases (es.lookup e.1).isSome <;> simp [hne]

/-! ## The account of some sections -/

/-- What a section gives: a name and a description. -/
def entryOf (s : DocSection) : String × String := (String.ofList s.name, normalForm s.text)

/-- The names and descriptions of the sections of a command. -/
def entriesOf (command : DocCommand) (ss : List DocSection) : List (String × String) :=
  (ss.filter (·.command = command)).map entryOf

/-- The descriptions of the returned value. -/
def returnsOf (ss : List DocSection) : List String :=
  (ss.filter (·.command = .returns)).map fun s => normalForm s.text

/-- Documentation keeps the first entry of each name and the first description of the returned value, and has a warning
for each section that it does not keep. -/
structure Accounts (ss : List DocSection) (d : Doc) : Prop where
  params : d.params = firsts (entriesOf .param ss)
  throws : d.throws = firsts (entriesOf .throws ss)
  returns : d.returns = (returnsOf ss).head?
  warnings : d.warnings.length + (d.params.length + d.returns.toList.length + d.throws.length) = ss.length

variable {ss : List DocSection} {s : DocSection} {d : Doc} {command : DocCommand}

theorem entriesOf_concat_of_ne (h : s.command ≠ command) : entriesOf command (ss ++ [s]) = entriesOf command ss := by
  simp [entriesOf, h]

/-- What is kept of the sections of a command, with one more of them. -/
theorem firsts_entriesOf_concat {kept : List (String × String)} (hkept : kept = firsts (entriesOf command ss))
    (h : s.command = command) : firsts (entriesOf command (ss ++ [s])) =
      if (kept.lookup (String.ofList s.name)).isSome then kept else kept ++ [entryOf s] := by
  have hconcat : entriesOf command (ss ++ [s]) = entriesOf command ss ++ [entryOf s] := by simp [entriesOf, h]
  rw [hconcat, firsts_concat, hkept, lookup_firsts]
  rfl

theorem returnsOf_concat_of_ne (h : s.command ≠ .returns) : returnsOf (ss ++ [s]) = returnsOf ss := by
  simp [returnsOf, h]

theorem head?_returnsOf_concat (h : s.command = .returns) :
    (returnsOf (ss ++ [s])).head? = (returnsOf ss).head?.or (some (normalForm s.text)) := by
  simp [returnsOf, h, List.head?_append]

theorem accounts_ofFree (cs : List Char) : Accounts [] (ofFree cs) := ⟨rfl, rfl, rfl, rfl⟩

theorem Accounts.warn (h : Accounts ss d) (message : String)
    (hparams : firsts (entriesOf .param (ss ++ [s])) = firsts (entriesOf .param ss))
    (hthrows : firsts (entriesOf .throws (ss ++ [s])) = firsts (entriesOf .throws ss))
    (hreturns : (returnsOf (ss ++ [s])).head? = (returnsOf ss).head?) : Accounts (ss ++ [s]) (d.warn message) := by
  constructor
  case params => exact h.params.trans hparams.symm
  case throws => exact h.throws.trans hthrows.symm
  case returns => exact h.returns.trans hreturns.symm
  case warnings =>
    have hbefore := h.warnings
    simp only [Doc.warn, List.length_append, List.length_singleton]
    omega

/-- One section more is kept or leaves a warning. -/
theorem Accounts.entered (h : Accounts ss d) (s : DocSection) : Accounts (ss ++ [s]) (d.entered s) := by
  have hbefore := h.warnings
  unfold Doc.entered
  cases hs : s.command with
  | returns =>
    have hparams : entriesOf .param (ss ++ [s]) = entriesOf .param ss := entriesOf_concat_of_ne (by simp [hs])
    have hthrows : entriesOf .throws (ss ++ [s]) = entriesOf .throws ss := entriesOf_concat_of_ne (by simp [hs])
    have hreturns : (returnsOf (ss ++ [s])).head? = d.returns.or (some (normalForm s.text)) := by
      rw [head?_returnsOf_concat hs, h.returns]
    by_cases hkept : d.returns.isSome = true
    · simp only [hkept, if_true]
      refine h.warn _ (congrArg firsts hparams) (congrArg firsts hthrows) ?_
      rw [hreturns, ← h.returns, Option.or_of_isSome hkept]
    · simp only [hkept, Bool.false_eq_true, if_false]
      have hnone : d.returns = none := by simpa using hkept
      constructor
      case params => rw [hparams, h.params]
      case throws => rw [hthrows, h.throws]
      case returns => rw [hreturns, hnone, Option.none_or]
      case warnings =>
        simp only [hnone, Option.toList_none, Option.toList_some, List.length_nil, List.length_singleton,
          List.length_append] at hbefore ⊢
        omega
  | param =>
    have hthrows : entriesOf .throws (ss ++ [s]) = entriesOf .throws ss := entriesOf_concat_of_ne (by simp [hs])
    have hreturns : returnsOf (ss ++ [s]) = returnsOf ss := returnsOf_concat_of_ne (by simp [hs])
    have hparams := firsts_entriesOf_concat h.params hs
    by_cases hkept : (d.params.lookup (String.ofList s.name)).isSome = true
    · simp only [hkept, if_true] at hparams ⊢
      exact h.warn _ (hparams.trans h.params) (congrArg firsts hthrows) (congrArg List.head? hreturns)
    · simp only [hkept, Bool.false_eq_true, if_false] at hparams ⊢
      constructor
      case params => exact hparams.symm
      case throws => rw [hthrows, h.throws]
      case returns => rw [hreturns, h.returns]
      case warnings =>
        simp only [List.length_append, List.length_singleton]
        omega
  | throws =>
    have hparams : entriesOf .param (ss ++ [s]) = entriesOf .param ss := entriesOf_concat_of_ne (by simp [hs])
    have hreturns : returnsOf (ss ++ [s]) = returnsOf ss := returnsOf_concat_of_ne (by simp [hs])
    have hthrows := firsts_entriesOf_concat h.throws hs
    by_cases hkept : (d.throws.lookup (String.ofList s.name)).isSome = true
    · simp only [hkept, if_true] at hthrows ⊢
      exact h.warn _ (congrArg firsts hparams) (hthrows.trans h.throws) (congrArg List.head? hreturns)
    · simp only [hkept, Bool.false_eq_true, if_false] at hthrows ⊢
      constructor
      case params => rw [hparams, h.params]
      case throws => exact hthrows.symm
      case returns => rw [hreturns, h.returns]
      case warnings =>
        simp only [List.length_append, List.length_singleton]
        omega

/-- All sections together are accounted for. -/
theorem Accounts.foldl_entered (h : Accounts ss d) (more : List DocSection) :
    Accounts (ss ++ more) (more.foldl Doc.entered d) := by
  induction more generalizing ss d with
  | nil => simpa using h
  | cons s more ih => simpa using ih (h.entered s)

/-- What was read accounts for the sections of the text. -/
theorem accounts_of_parse {text : String} (h : parse text = .ok d) : Accounts (readSections text.toList) d := by
  rw [eq_foldl_of_parse h]
  exact (accounts_ofFree _).foldl_entered _

/-! ## Reading -/

/-- Entries of documentation that was read. No name is there twice; the entries are the first ones of each name among
the sections, in the order of the text; the returned value is described by the first section about it; there are as many
warnings as sections that were not kept; and a parameter is described by the first section about it, if there is one. -/
theorem entries_of_parse {text : String} (h : parse text = .ok d) :
    (d.params.map Prod.fst).Nodup ∧ (d.throws.map Prod.fst).Nodup ∧
    d.params = firsts (entriesOf .param (readSections text.toList)) ∧
    d.throws = firsts (entriesOf .throws (readSections text.toList)) ∧
    d.returns = (returnsOf (readSections text.toList)).head? ∧
    d.warnings.length + (d.params.length + d.returns.toList.length + d.throws.length) =
      (readSections text.toList).length ∧
    ∀ name, d.param? name = (entriesOf .param (readSections text.toList)).lookup name ∧
      (d.param? name = none ↔ ∀ e ∈ entriesOf .param (readSections text.toList), e.1 ≠ name) := by
  have haccounts := accounts_of_parse h
  have hlookup : ∀ name, d.param? name = (entriesOf .param (readSections text.toList)).lookup name := by
    intro name
    rw [param?, haccounts.params, lookup_firsts]
  refine ⟨?_, ?_, haccounts.params, haccounts.throws, haccounts.returns, haccounts.warnings,
    fun name => ⟨hlookup name, ?_⟩⟩
  · rw [haccounts.params]
    exact nodup_firsts _
  · rw [haccounts.throws]
    exact nodup_firsts _
  · rw [hlookup, List.lookup_eq_none_iff]
    exact forall₂_congr fun e _ => by rw [bne_iff_ne, ne_comm]

/-- Of six sections two are left out: a parameter comes again, and so does the returned value. That an error has the
name of the parameter is no matter. -/
theorem entries_of_parse_mixed :
    let text := "\\param a 1\n\\throw a 2 \\return 3\\param \\\\b 4\n\\param a 5\n\\return 6"
    ∃ d, parse text = .ok d ∧ d.params = [("a", "1"), ("\\b", "4")] ∧ d.throws = [("a", "2")] ∧ d.returns = some "3" ∧
      d.warnings.length = 2 ∧ d.param? "a" = some "1" ∧ d.param? "c" = none := by
  intro text
  have hparses : (parse text).toOption.any (fun _ => true) = true := by decide +kernel
  obtain ⟨d, hparse, -⟩ := exists_ok_of_any hparses
  have hsections : readSections text.toList = [⟨.param, " a 1\n".toList⟩, ⟨.throws, " a 2 ".toList⟩,
      ⟨.returns, " 3".toList⟩, ⟨.param, " \\b 4\n".toList⟩, ⟨.param, " a 5\n".toList⟩, ⟨.returns, " 6".toList⟩] := by
    decide +kernel
  obtain ⟨-, -, hparams, hthrows, hreturns, hwarnings, hparam⟩ := entries_of_parse hparse
  rw [hsections] at hparams hthrows hreturns hwarnings hparam
  have hparams' : d.params = [("a", "1"), ("\\b", "4")] := hparams.trans (by decide +kernel)
  have hthrows' : d.throws = [("a", "2")] := hthrows.trans (by decide +kernel)
  have hreturns' : d.returns = some "3" := hreturns.trans (by decide +kernel)
  have hwarnings' : d.warnings.length = 2 := by
    rw [hparams', hthrows', hreturns'] at hwarnings
    simpa using hwarnings
  exact ⟨d, hparse, hparams', hthrows', hreturns', hwarnings', (hparam "a").1.trans (by decide +kernel),
    (hparam "c").1.trans (by decide +kernel)⟩

end QiIdl.Doc
