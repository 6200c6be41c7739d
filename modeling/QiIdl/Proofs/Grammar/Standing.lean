import QiIdl.Proofs.Grammar.Carries
import QiIdl.Proofs.Token.Rows

/-!
# Standing on a row

A reader that recovers from a fault goes on with the next row, so of the rows it has passed each is blamed at most once,
and in order; only the end of the file can be blamed again and again, by one block after the other that is still open
there. A `Spot` is a row of a file with what has been blamed by then, and the cursor `Stands` there as long as its next
token is on that row and no more is blamed.

Any token can be passed (`Reached.advance`), and a fault on the row where the cursor stands can be recovered from
(`Failed.nextLine`).
-/

namespace QiIdl

/-- What a row ends with: only the last one ends with the file. -/
def rowStop : (later : List (List Token)) → TokenKind
  | [] => .eof
  | _ :: _ => .newline

theorem endsRow_rowStop (later : List (List Token)) : (rowStop later).endsRow = true := by
  cases later <;> rfl

/-- The rows of a file: each ends a line, but the last ends the file. -/
structure FileRows where
  all : List (List Token)
  rowed : ∀ passed row later, all = passed ++ row :: later → IsRow (rowStop later) row

/-- Lines, and behind them the end of the file. -/
def FileRows.ofLines {lines : List (List Token)} {stop : Token} (hlines : ∀ line ∈ lines, IsRow .newline line)
    (hstop : stop.kind = .eof) : FileRows where
  all := lines ++ [[stop]]
  rowed passed := by
    induction passed generalizing lines with
    | nil =>
      intro row later h
      cases lines with
      | nil =>
        cases h
        exact .single hstop
      | cons line lines =>
        obtain ⟨rfl, rfl⟩ := List.cons.inj h
        have hline := hlines line List.mem_cons_self
        cases lines <;> exact hline
    | cons first passed ih =>
      intro row later h
      cases lines with
      | nil => cases passed <;> cases h
      | cons line lines =>
        refine ih (fun line hline => hlines line (List.mem_cons_of_mem _ hline)) row later ?_
        exact (List.cons.inj h).2

/-- A row of a file, and faults: some of the rows passed have been blamed, each once and in order. If this is the last
row, it may have been blamed too, any number of times. -/
structure Spot (rows : FileRows) where
  passed : List (List Token)
  row : List Token
  later : List (List Token)
  faults : List Fault
  all_eq : rows.all = passed ++ row :: later
  blamed : ∃ broken again, broken.Sublist passed ∧ (again = 0 ∨ later = []) ∧
    List.Forall₂ (fun f row => f.span.On row) faults (broken ++ List.replicate again row)

variable {σ : Type} {rows : FileRows} {spot : Spot rows} {c : Cursor σ} {f : Fault}

/-- The next token is on the row, and these are the faults. -/
structure Spot.Stands (spot : Spot rows) (c : Cursor σ) : Prop where
  rest : ∃ left, left <:+ spot.row ∧ IsRow (rowStop spot.later) left ∧ c.rest = left ++ spot.later.flatten
  faults : c.faults = spot.faults

/-- The cursor stands on some row of a file. -/
def Reached (rows : FileRows) (c : Cursor σ) : Prop := ∃ spot : Spot rows, spot.Stands c

/-- The cursor stands on some row of a file, and a fault is on that row. -/
def Failed (rows : FileRows) (f : Fault) (c : Cursor σ) : Prop :=
  ∃ spot : Spot rows, spot.Stands c ∧ f.span.On spot.row

/-- At the start of a file nothing has been blamed. -/
theorem reached_start (hne : rows.all ≠ []) (last : Span) (kept : σ) :
    Reached rows ⟨rows.all.flatten, last, [], kept⟩ := by
  obtain ⟨row, later, hall⟩ := List.exists_cons_of_ne_nil hne
  refine ⟨⟨[], row, later, [], hall, [], 0, .slnil, .inl rfl, .nil⟩, ⟨row, List.suffix_refl _, ?_, ?_⟩, rfl⟩
  · exact rows.rowed [] row later hall
  · rw [hall]
    rfl

/-! ## Within a row -/

theorem Cursor.advance_cons {t : Token} {rest : List Token} {last : Span} {faults : List Fault} {kept : σ}
    (h : t.kind ≠ .eof) : (Cursor.mk (t :: rest) last faults kept).advance = ⟨rest, t.span, faults, kept⟩ := if_neg h

namespace Spot.Stands

theorem peek_mem (h : spot.Stands c) : c.peek ∈ spot.row := by
  obtain ⟨left, hleft, hrow, hrest⟩ := h.rest
  refine hleft.subset ?_
  rw [Cursor.peek, hrest]
  cases hrow <;> exact List.mem_cons_self

/-- A token that ends a row is the last one of it. -/
theorem peek_stop (h : spot.Stands c) (hpeek : c.peek.kind.endsRow = true) :
    c.peek.kind = rowStop spot.later ∧ c.rest = c.peek :: spot.later.flatten := by
  obtain ⟨left, -, hrow, hrest⟩ := h.rest
  cases hrow with
  | @single t ht =>
    have hnext : c.peek = t := by rw [Cursor.peek, hrest]; rfl
    rw [hnext]
    exact ⟨ht, hrest⟩
  | @cons t left ht =>
    have hnext : c.peek = t := by rw [Cursor.peek, hrest]; rfl
    rw [hnext, ht] at hpeek
    cases hpeek

/-- A token that does not end the row has another behind it. -/
theorem advance (h : spot.Stands c) (hpeek : c.peek.kind.endsRow = false) : spot.Stands c.advance := by
  have heof : c.peek.kind ≠ .eof := by
    intro heof
    rw [heof] at hpeek
    cases hpeek
  obtain ⟨left, hleft, hrow, hrest⟩ := h.rest
  have hmoves := (Cursor.moves_advance heof).rest
  refine ⟨?_, by rw [Cursor.faults_advance, h.faults]⟩
  cases hrow with
  | @single t ht =>
    have hnext : c.peek = t := by rw [Cursor.peek, hrest]; rfl
    rw [hnext, ht, endsRow_rowStop] at hpeek
    cases hpeek
  | @cons t left ht hleft' =>
    refine ⟨left, (List.suffix_cons t left).trans hleft, hleft', ?_⟩
    rw [hrest, List.cons_append, List.singleton_append, List.cons.injEq] at hmoves
    exact hmoves.2.symm

/-- Only the last row ends with the file. -/
theorem later_eq_nil (h : spot.Stands c) (hpeek : c.peek.kind = .eof) : spot.later = [] := by
  obtain ⟨hstop, -⟩ := h.peek_stop (by rw [hpeek]; rfl)
  cases hlater : spot.later with
  | nil => rfl
  | cons =>
    rw [hpeek, hlater] at hstop
    cases hstop

end Spot.Stands

/-! ## From row to row -/

/-- Behind the end of a line the next row starts, if no more than the rows up to there have been blamed. -/
theorem Reached.of_newline {c' : Cursor σ} {broken : List (List Token)} (h : spot.Stands c)
    (hpeek : c.peek.kind = .newline) (hrest : c.rest = c.peek :: c'.rest)
    (hbroken : broken.Sublist (spot.passed ++ [spot.row]))
    (hblamed : List.Forall₂ (fun f row => f.span.On row) c'.faults broken) : Reached rows c' := by
  obtain ⟨hstop, hlater⟩ := h.peek_stop (by rw [hpeek]; rfl)
  cases hnext : spot.later with
  | nil =>
    rw [hpeek, hnext] at hstop
    cases hstop
  | cons row later =>
    have hall : rows.all = (spot.passed ++ [spot.row]) ++ row :: later := by simpa [hnext] using spot.all_eq
    rw [hrest, hnext, List.cons.injEq] at hlater
    refine ⟨⟨_, row, later, c'.faults, hall, broken, 0, hbroken, .inl rfl, by simpa using hblamed⟩, ?_, rfl⟩
    exact ⟨row, List.suffix_refl _, rows.rowed _ _ _ hall, hlater.2⟩

/-- A row that ends a line has not been blamed. -/
theorem Spot.Stands.broken_of_newline (h : spot.Stands c) (hpeek : c.peek.kind = .newline) :
    ∃ broken, broken.Sublist spot.passed ∧ List.Forall₂ (fun f row => f.span.On row) c.faults broken := by
  obtain ⟨broken, again, hbroken, hagain, hblamed⟩ := spot.blamed
  obtain ⟨hstop, -⟩ := h.peek_stop (by rw [hpeek]; rfl)
  obtain rfl : again = 0 := by
    refine hagain.resolve_right fun hlater => ?_
    rw [hpeek, hlater] at hstop
    cases hstop
  exact ⟨broken, hbroken, by simpa [h.faults] using hblamed⟩

theorem TokenKind.endsRow_eq_false {k : TokenKind} (heof : k ≠ .eof) (hnewline : k ≠ .newline) : k.endsRow = false := by
  cases k <;> first | rfl | contradiction

/-- Any token can be passed, and the end of the file is not passed. -/
theorem Reached.advance (h : Reached rows c) : Reached rows c.advance := by
  by_cases heof : c.peek.kind = .eof
  · rwa [Cursor.advance_of_eof heof]
  · obtain ⟨spot, hstands⟩ := h
    by_cases hnewline : c.peek.kind = .newline
    · obtain ⟨broken, hbroken, hblamed⟩ := hstands.broken_of_newline hnewline
      refine .of_newline hstands hnewline (Cursor.moves_advance heof).rest
        (hbroken.trans (List.sublist_append_left _ _)) ?_
      rwa [Cursor.faults_advance]
    · exact ⟨spot, hstands.advance (TokenKind.endsRow_eq_false heof hnewline)⟩

/-- Recovering from a fault blames the row, and goes on with the next row if there is one. -/
theorem Failed.nextLine (h : Failed rows f c) : Reached rows ({ c with faults := c.faults ++ [f] }.nextLine) := by
  obtain ⟨spot, hstands, hon⟩ := h
  have hfault : List.Forall₂ (fun f row => f.span.On row) [f] [spot.row] := .cons hon .nil
  -- token by token to the end of the row
  have hgo (toks : List Token) : ∀ last, spot.Stands ⟨toks, last, c.faults, c.kept⟩ →
      Reached rows (Cursor.nextLine.go { c with faults := c.faults ++ [f] } last toks) := by
    induction toks with
    | nil =>
      intro last hstands
      obtain ⟨-, hrest⟩ := hstands.peek_stop rfl
      cases hrest
    | cons t rest ih =>
      intro last hstands
      rw [Cursor.nextLine.go]
      by_cases heof : t.kind = .eof
      · -- the end of the file is blamed once more
        obtain ⟨broken, again, hbroken, -, hblamed⟩ := spot.blamed
        rw [if_pos heof]
        refine ⟨⟨_, _, _, c.faults ++ [f], spot.all_eq, broken, again + 1, hbroken, .inr (hstands.later_eq_nil heof), ?_⟩,
          hstands.rest, rfl⟩
        rw [List.replicate_succ', ← List.append_assoc, show c.faults = spot.faults from hstands.faults]
        exact List.rel_append hblamed hfault
      · rw [if_neg heof]
        by_cases hnewline : t.kind = .newline
        · obtain ⟨broken, hbroken, hblamed⟩ := hstands.broken_of_newline hnewline
          rw [if_pos hnewline]
          exact .of_newline hstands hnewline rfl (hbroken.append (List.Sublist.refl _)) (List.rel_append hblamed hfault)
        · rw [if_neg hnewline]
          have hadvance := hstands.advance (TokenKind.endsRow_eq_false heof hnewline)
          rw [Cursor.advance_cons heof] at hadvance
          exact ih _ hadvance
  exact hgo c.rest c.last hstands

end QiIdl
