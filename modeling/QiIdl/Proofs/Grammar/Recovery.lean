import QiIdl.Proofs.Grammar.Twins

/-!
# Recovering from faults

Whatever a file is read as, its faults are in source order, and there is at most one on each row
(`faults_once_per_row`). The reader of a file ends on one of its rows, and what has been blamed by then is said by the
spot where it stands.
-/

namespace QiIdl

variable {faults : List Fault}

/-! ## The faults of a file -/

section File

variable {lines broken : List (List Token)} {stop : Token} {hlines : ∀ line ∈ lines, IsRow .newline line}
  {hstop : stop.kind = .eof}

/-- What has been blamed: some of the lines, each once and in order, and then the end of the file. -/
theorem Reached.exists_broken {c : Cursor Arena} (h : Reached (.ofLines hlines hstop) c) :
    ∃ broken again, broken.Sublist lines ∧
      List.Forall₂ (fun f row => f.span.On row) c.faults (broken ++ List.replicate again [stop]) := by
  obtain ⟨⟨passed, row, later, faults, hall, broken, again, hbroken, hagain, hblamed⟩, hstands⟩ := h
  have hrows : lines ++ [[stop]] = passed ++ row :: later := hall
  obtain rfl : c.faults = faults := hstands.faults
  cases later with
  | nil =>
    obtain ⟨rfl, hrow⟩ := List.append_inj' hrows rfl
    cases hrow
    exact ⟨broken, again, hbroken, hblamed⟩
  | cons row' later' =>
    obtain rfl : again = 0 := hagain.resolve_right (List.cons_ne_nil _ _)
    have hlength := congrArg List.length hrows
    have hpassed : passed <+: lines := by
      refine List.prefix_of_prefix_length_le ⟨_, hrows.symm⟩ (List.prefix_append _ _) ?_
      simp only [List.length_append, List.length_cons, List.length_nil] at hlength
      omega
    exact ⟨broken, 0, hbroken.trans hpassed.sublist, by simpa using hblamed⟩

/-- What is on rows that stand in order is in order. -/
theorem pairwise_of_forall₂ (h : List.Forall₂ (fun f row => f.span.On row) faults broken)
    (hbroken : broken.Pairwise fun row row' => ∀ t ∈ row, ∀ u ∈ row', t.span.start ≤ u.span.start) :
    faults.Pairwise fun f g => f.span.start ≤ g.span.start := by
  induction h with
  | nil => exact .nil
  | @cons f row faults broken hf hfaults ih =>
    obtain ⟨hrow, hbroken⟩ := List.pairwise_cons.mp hbroken
    refine .cons ?_ (ih hbroken)
    intro g hg
    obtain ⟨row', hrow', t', ht', u', hu', hg⟩ := exists_of_forall₂ hfaults.flip hg
    obtain ⟨t, ht, u, hu, hf⟩ := hf
    rw [hf, hg]
    exact Nat.le_min.mpr ⟨Nat.le_trans (Nat.min_le_left _ _) (hrow row' hrow' t ht t' ht'),
      Nat.le_trans (Nat.min_le_left _ _) (hrow row' hrow' t ht u' hu')⟩

/-- Rows of ordered tokens stand in order, and the last of them can be repeated. -/
theorem pairwise_broken (hordered : Ordered (lines ++ [[stop]]).flatten) (again : Nat)
    (hbroken : broken.Sublist lines) : (broken ++ List.replicate again [stop]).Pairwise fun row row' =>
      ∀ t ∈ row, ∀ u ∈ row', t.span.start ≤ u.span.start := by
  have hstarts : (lines ++ [[stop]]).flatten.Pairwise fun t u => t.span.start ≤ u.span.start :=
    hordered.apart.imp_of_mem fun ht _ h => Nat.le_trans (hordered.forward _ ht) h
  obtain ⟨hlines, -, hlast⟩ := List.pairwise_append.mp (List.pairwise_flatten.mp hstarts).2
  refine List.pairwise_append.mpr ⟨hlines.sublist hbroken, ?_, ?_⟩
  · simp [List.pairwise_replicate]
  · intro row hrow row' hrow'
    obtain rfl := List.eq_of_mem_replicate hrow'
    exact hlast row (hbroken.subset hrow) _ (List.mem_singleton_self _)

end File

/-- Tokens that are not read leave a cursor somewhere on the rows, with the faults it has kept. -/
theorem exists_reached_of_parseTokens {rows : FileRows} {toks : List Token} (hclean : ∀ t ∈ toks, t.kind.Clean)
    (hstart : Reached rows (⟨toks, .point 0, [], #[]⟩ : Cursor Arena))
    (h : parseTokens (#[] : Arena) toks = .error faults) :
    faults ≠ [] ∧ ∃ c : Cursor Arena, Reached rows c ∧ c.faults = faults := by
  have hruns := Node.agree_parseItems (toks.length + 1) .none _ _ ⟨rfl, hclean, rfl, rfl⟩ hstart trivial
  unfold parseTokens at h
  cases hitems : Node.parseItems (toks.length + 1) none (⟨toks, .point 0, [], #[]⟩ : Cursor Arena) with
  | ok trees c =>
    rw [hitems] at h hruns
    by_cases hempty : c.faults.isEmpty = true
    · simp [hempty] at h
    · simp only [hempty, Bool.false_eq_true, if_false, Except.error.injEq] at h
      rw [List.isEmpty_iff] at hempty
      exact ⟨h ▸ hempty, c, hruns.2.2, h⟩
  | error fault c =>
    rw [hitems] at h hruns
    cases h
    -- one more fault, as if it had been recovered from
    refine ⟨by simp, _, Failed.nextLine hruns.2, ?_⟩
    rw [Carries.faults_nextLine]

/-- A text that can be cut into tokens but not be read has faults, and these are in source order. Each is on a row of
the text, no line has more than one, and only those at the end of the file may be many. -/
theorem faults_once_per_row {source file : String} {toks : List Token} {faults : List Fault}
    (hlex : lex source = .ok toks) (h : parseSource source file = .error faults) :
    faults ≠ [] ∧ (faults.Pairwise fun f g => f.span.start ≤ g.span.start) ∧
      ∃ lines stop, rows toks = lines ++ [[stop]] ∧ stop.kind = .eof ∧ ∃ broken again, broken.Sublist lines ∧
        List.Forall₂ (fun f row => f.span.On row) faults (broken ++ List.replicate again [stop]) := by
  obtain ⟨lines, stop, hrows, htoks, hlines, hstop⟩ := rows_of_lex hlex
  have hparse : parseTokens (#[] : Arena) toks = .error faults := by
    cases hparse : parseTokens (#[] : Arena) toks with
    | ok trees => simp [parseSource, hlex, hparse, Bind.bind, Except.bind, Pure.pure, Except.pure] at h
    | error fs => simpa [parseSource, hlex, hparse, Bind.bind, Except.bind] using h
  have hstart : Reached (.ofLines hlines hstop) (⟨toks, .point 0, [], #[]⟩ : Cursor Arena) :=
    htoks ▸ reached_start (by simp [FileRows.ofLines]) _ _
  obtain ⟨hne, c, hc, rfl⟩ := exists_reached_of_parseTokens (clean_of_mem_lex hlex) hstart hparse
  obtain ⟨broken, again, hbroken, hblamed⟩ := hc.exists_broken
  have hordered := ordered_of_lex hlex
  rw [htoks] at hordered
  have hstarts := pairwise_of_forall₂ hblamed (pairwise_broken hordered again hbroken)
  exact ⟨hne, hstarts, lines, stop, hrows, hstop, broken, again, hbroken, hblamed⟩

/-- A tuple over two lines of text that has no literal in it, a line that breaks off, and two blocks that are left
open. -/
theorem faults_once_per_row_open :
    let source := "const a = (1,\n  b + 1,)\nobject A \"a\"\n  object B \"b\"\n    prop\n"
    ∃ toks faults, lex source = .ok toks ∧ parseSource source "t.qi" = .error faults ∧
      faults.map Fault.span = [⟨16, 21⟩, ⟨60, 61⟩, ⟨61, 61⟩, ⟨61, 61⟩] ∧
      ∃ lines stop, rows toks = lines ++ [[stop]] ∧ stop.kind = .eof ∧ ∃ broken again, broken.Sublist lines ∧
        List.Forall₂ (fun f row => f.span.On row) faults (broken ++ List.replicate again [stop]) := by
  intro source
  obtain ⟨toks, hlex, -⟩ := exists_ok_of_any (show (lex source).toOption.any (fun _ => true) = true by decide +kernel)
  have hspans : ((parseSource source "t.qi").map fun _ => ()).mapError (List.map Fault.span) =
      .error [⟨16, 21⟩, ⟨60, 61⟩, ⟨61, 61⟩, ⟨61, 61⟩] := by decide +kernel
  cases hfaults : parseSource source "t.qi" with
  | ok ast =>
    rw [hfaults] at hspans
    cases hspans
  | error faults =>
    rw [hfaults] at hspans
    exact ⟨toks, faults, hlex, rfl, Except.error.inj hspans, (faults_once_per_row hlex hfaults).2.2⟩

end QiIdl
