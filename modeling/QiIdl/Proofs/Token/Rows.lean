import Mathlib.Data.List.SplitBy
import QiIdl.Proofs.Token.Order

/-!
# Rows of tokens

A row is a logical line: a longest run of tokens up to and including the end of a line. It may span several lines of
text, for inside brackets these have no end. The rows of a text that can be cut into tokens are lines, each with nothing
but its own end at its end, and behind them the end of the file in a row of its own (`rows_of_lex`).
-/

namespace QiIdl

/-- The longest runs of tokens that have the end of a line at most as their last token. -/
def rows (toks : List Token) : List (List Token) := toks.splitBy fun t _ => t.kind != .newline

/-- Whether a token is the end of a line or of the file. -/
def TokenKind.endsRow : TokenKind → Bool
  | newline | eof => true
  | _ => false

/-- Tokens of which the last is of the kind `stop`, and none before it ends a row. -/
inductive IsRow (stop : TokenKind) : List Token → Prop where
  | single {t : Token} : t.kind = stop → IsRow stop [t]
  | cons {t : Token} {row : List Token} : t.kind.endsRow = false → IsRow stop row → IsRow stop (t :: row)

namespace IsRow

variable {stop : TokenKind} {row : List Token}

theorem ne_nil (h : IsRow stop row) : row ≠ [] := by
  cases h <;> exact List.cons_ne_nil _ _

theorem kind_getLast (h : IsRow stop row) : ∀ t ∈ row.getLast?, t.kind = stop := by
  induction h with
  | single ht =>
    intro t hmem
    cases hmem
    exact ht
  | cons _ hrow ih =>
    intro t hmem
    rw [List.getLast?_cons_of_ne_nil hrow.ne_nil] at hmem
    exact ih t hmem

theorem isChain (h : IsRow stop row) : row.IsChain fun t _ => (t.kind != .newline) = true := by
  induction h with
  | single => exact .singleton _
  | @cons t row ht hrow ih =>
    obtain ⟨u, row, rfl⟩ := List.exists_cons_of_ne_nil hrow.ne_nil
    refine .cons_cons ?_ ih
    rw [bne_iff_ne]
    intro hnewline
    rw [hnewline] at ht
    cases ht

end IsRow

/-- A span reaches from one token of a row to another, or is that of one token. -/
def Span.On (s : Span) (row : List Token) : Prop := ∃ t ∈ row, ∃ u ∈ row, s = t.span.merge u.span

theorem Span.merge_self (s : Span) : s.merge s = s := by
  rw [merge, Nat.min_self, Nat.max_self]

theorem Span.on_of_mem {t : Token} {row : List Token} (h : t ∈ row) : t.span.On row :=
  ⟨t, h, t, h, t.span.merge_self.symm⟩

/-- A line is a row, whatever comes behind it. -/
theorem rows_line {line : List Token} (h : IsRow .newline line) (rest : List Token) :
    rows (line ++ rest) = line :: rows rest := by
  have hends : ∀ t ∈ line.getLast?, ∀ u ∈ rest.head?, (t.kind != .newline) = false := by
    intro t ht _ _
    rw [h.kind_getLast t ht]
    rfl
  rw [rows, List.splitBy_append hends, List.splitBy_of_isChain h.ne_nil h.isChain]
  rfl

/-- The tokens of a text are lines and the end of the file. Where a line has been begun, there is one. -/
theorem Layout.exists_lines {xs : List Lexeme} (h : ∀ x ∈ xs, x.content ≠ .token .eof) (l : Layout) :
    ∃ lines stop, l.tokens xs = lines.flatten ++ [stop] ∧ (∀ line ∈ lines, IsRow .newline line) ∧ stop.kind = .eof ∧
      (l.fresh = false → lines ≠ []) := by
  induction xs generalizing l with
  | nil =>
    unfold tokens
    by_cases hfresh : l.fresh = true
    · exact ⟨[], ⟨.eof, .point l.offset⟩, by simp [hfresh], by simp, rfl, by simp [hfresh]⟩
    · refine ⟨[[⟨.newline, .point l.offset⟩]], ⟨.eof, .point l.offset⟩, by simp [hfresh], ?_, rfl, by simp⟩
      exact List.forall_mem_singleton.mpr (.single rfl)
  | cons x xs ih =>
    obtain ⟨hx, hxs⟩ := List.forall_mem_cons.mp h
    obtain ⟨lines, stop, htokens, hlines, hstop, hbegun⟩ := ih hxs (l.after x)
    rw [tokens, tokenOf, htokens]
    unfold after at hbegun
    cases hkind : l.kindOf x.content with
    | none =>
      rw [hkind] at hbegun
      exact ⟨lines, stop, rfl, hlines, hstop, hbegun⟩
    | some k =>
      rw [hkind] at hbegun
      by_cases hnewline : k = .newline
      · subst hnewline
        refine ⟨[⟨.newline, l.spanOf x⟩] :: lines, stop, by simp, ?_, hstop, by simp⟩
        exact List.forall_mem_cons.mpr ⟨.single rfl, hlines⟩
      · -- the line goes on
        have heof : k ≠ .eof := fun heof => kindOf_ne_eof hx (heof ▸ hkind)
        obtain ⟨line, lines, rfl⟩ := List.exists_cons_of_ne_nil (hbegun (by cases k <;> first | rfl | contradiction))
        obtain ⟨hline, hlines⟩ := List.forall_mem_cons.mp hlines
        refine ⟨(⟨k, l.spanOf x⟩ :: line) :: lines, stop, by simp, ?_, hstop, by simp⟩
        refine List.forall_mem_cons.mpr ⟨.cons ?_ hline, hlines⟩
        cases k <;> first | rfl | contradiction

/-- The rows of a text are lines and the end of the file. -/
theorem rows_of_lex {source : String} {toks : List Token} (h : lex source = .ok toks) :
    ∃ lines stop, rows toks = lines ++ [[stop]] ∧ toks = (lines ++ [[stop]]).flatten ∧
      (∀ line ∈ lines, IsRow .newline line) ∧ stop.kind = .eof := by
  obtain ⟨-, rfl⟩ := lex_eq_ok_iff.mp h
  have hcontents : ∀ x ∈ Lexeme.all source.toList, x.content ≠ .token .eof :=
    Lexeme.forall_mem_all Lexeme.content_first_ne_eof _
  obtain ⟨lines, stop, htokens, hlines, hstop, -⟩ := Layout.exists_lines hcontents Layout.start
  refine ⟨lines, stop, ?_, by simp [htokens], hlines, hstop⟩
  rw [htokens]
  clear htokens
  induction lines with
  | nil => rfl
  | cons line lines ih =>
    obtain ⟨hline, hlines⟩ := List.forall_mem_cons.mp hlines
    rw [List.flatten_cons, List.append_assoc, rows_line hline, ih hlines, List.cons_append]

end QiIdl
