import QiIdl.Proofs.Token.Lines

/-!
# What tokens carry

A token that the lexer makes carries only what its class allows: a name is a word and no keyword, an integer has
64 bits, a float is a double, a comment stays on its line (`clean_of_mem_lex`). Everything that the parser takes from
tokens into a tree is therefore something that can be written and read again.
-/

namespace QiIdl

/-- What a token of this kind carries could have been read. -/
def TokenKind.Clean : TokenKind → Prop
  | .ident name => IsName name
  | .int value => value < Lexeme.integerBound
  | .float value => value.IsDouble
  | .comment text | .docComment text => Lexeme.IsRemark text.toList
  | _ => True

/-- Whether a token stands on a line with others: it is no comment and no end. -/
def TokenKind.isCode : TokenKind → Bool
  | newline | eof | comment _ | docComment _ => false
  | _ => true

/-- What a lexeme contributes could have been read. -/
def LexemeContent.Clean : LexemeContent → Prop
  | .comment _ text => Lexeme.IsRemark text.toList
  | .token kind => kind.Clean ∧ kind.isCode = true
  | _ => True

namespace Lexeme

theorem getLast?_dropWhile_reverse {p : Char → Bool} (cs : List Char) :
    ∀ c ∈ (cs.reverse.dropWhile p).reverse.getLast?, p c = false := by
  intro c hc
  rw [List.getLast?_reverse, Option.mem_def] at hc
  have hnot := List.head?_dropWhile_not p cs.reverse
  rwa [hc] at hnot

theorem isRemark_commentText {cs : List Char} (h : '\n' ∉ cs) : IsRemark (commentText cs).toList := by
  have hlast := getLast?_dropWhile_reverse (p := (· == '\r')) cs
  have hfeed : '\n' ∉ (cs.reverse.dropWhile (· == '\r')).reverse := by
    intro hmem
    exact h (List.mem_reverse.mp ((List.dropWhile_sublist _).subset (List.mem_reverse.mp hmem)))
  unfold commentText
  split
  · rename_i rest hrest
    rw [hrest] at hlast hfeed
    rw [String.toList_ofList]
    refine ⟨fun hmem => hfeed (by simp [hmem]), fun hr => ?_⟩
    have := hlast '\r' (by simp [List.getLast?_cons, hr])
    cases this
  · rw [String.toList_ofList]
    refine ⟨hfeed, fun hr => ?_⟩
    have := hlast '\r' hr
    cases this

theorem clean_comment (cs : List Char) : (comment cs).1.content.Clean := by
  have hfeed : '\n' ∉ cs.takeWhile (· != '\n') := by
    intro hmem
    exact absurd (List.all_eq_true.mp List.all_takeWhile _ hmem) (by decide)
  unfold comment
  dsimp only
  split
  · rename_i body hbody
    rw [hbody] at hfeed
    exact isRemark_commentText fun hmem => hfeed (by simp [hmem])
  · exact isRemark_commentText hfeed

theorem flaws_ne_nil_of_not_closed (before : Nat) (cs : List Char) (h : (stringBody before cs).closed = false) :
    (stringBody before cs).flaws ≠ [] := by
  fun_induction stringBody before cs with
  | case1 | case3 | case4 => exact List.cons_ne_nil _ _
  | case2 => cases h
  | case5 before e rest next value hvalue ih => exact ih h
  | case6 before e rest next hvalue ih => exact List.cons_ne_nil _ _
  | case7 before c rest _ _ _ _ ih => exact ih h

/-- What characters of code spell: a token, or nothing if there is something wrong with them. -/
def Spelled (x : Lexeme) : Prop :=
  (∃ k, x.content = .token k ∧ k.Clean ∧ k.isCode = true) ∨ x.content = .nothing ∧ x.flaws ≠ []

theorem spelled_ofToken (text : List Char) {k : TokenKind} (hk : k.Clean ∧ k.isCode = true) :
    (ofToken text k).Spelled := .inl ⟨k, rfl, hk⟩

theorem spelled_unread (text : List Char) (error : LexicalError) : (unread text error).Spelled :=
  .inr ⟨rfl, List.cons_ne_nil _ _⟩

theorem spelled_string (cs : List Char) : (string cs).1.Spelled := by
  cases hclosed : (stringBody 1 cs).closed with
  | true => exact .inl ⟨.string (String.ofList (stringBody 1 cs).value), by simp [string, hclosed], trivial, rfl⟩
  | false => exact .inr ⟨by simp [string, hclosed], flaws_ne_nil_of_not_closed 1 cs hclosed⟩

theorem spelled_decimal (first : Char) (cs : List Char) : (decimal first cs).1.Spelled := by
  unfold decimal
  dsimp only
  split
  · split
    · next hlt => exact spelled_ofToken _ ⟨hlt, rfl⟩
    · exact spelled_unread _ _
  · exact spelled_ofToken _ ⟨Binary64.isDouble_ofDecimal _ _, rfl⟩

theorem spelled_hexadecimal (mark : Char) (cs : List Char) : (hexadecimal mark cs).1.Spelled := by
  unfold hexadecimal
  dsimp only
  split
  · exact spelled_unread _ _
  · next hlt =>
    rw [not_or, Nat.not_le] at hlt
    exact spelled_ofToken _ ⟨hlt.2, rfl⟩

theorem spelled_word {first : Char} (h : Text.isWordStart first = true) (cs : List Char) :
    (word first cs).1.Spelled := by
  refine spelled_ofToken _ ?_
  unfold wordKind
  split
  · exact ⟨trivial, rfl⟩
  · next hfree => exact ⟨⟨⟨first, _, String.toList_ofList, h, List.all_eq_true.mp List.all_takeWhile⟩, hfree⟩, rfl⟩

theorem spelled_sign (first : Char) (cs : List Char) : (sign first cs).1.Spelled := by
  rcases sign_cases first cs with ⟨-, h⟩ | ⟨second, behind, kind, -, hkind, h⟩ <;> rw [h]
  · unfold shortSign
    split
    · next kind hkind =>
      refine spelled_ofToken _ ?_
      unfold shortSign? at hkind
      split at hkind <;> cases hkind <;> exact ⟨trivial, rfl⟩
    · exact spelled_unread _ _
  · refine spelled_ofToken _ ?_
    unfold longSign? at hkind
    split at hkind <;> cases hkind <;> exact ⟨trivial, rfl⟩

/-- The first character says whether a lexeme is a blank, a line feed, a comment or code. -/
theorem first_spelled (c : Char) :
    (isGap c = true ∧ ∀ cs, first c cs = (⟨[c], .blank, []⟩, cs)) ∨
    (c = '\n' ∧ ∀ cs, first c cs = (⟨[c], .feed, []⟩, cs)) ∨
    (c = '#' ∧ ∀ cs, first c cs = comment cs) ∨ ∀ cs, (first c cs).1.Spelled := by
  rcases first_cases c with hgap | hfeed | hhash | ⟨-, hc⟩ | hc | ⟨hword, hc⟩ | hc
  · exact .inl hgap
  · exact .inr (.inl hfeed)
  · exact .inr (.inr (.inl hhash))
  all_goals
    refine .inr (.inr (.inr fun cs => ?_))
    rw [hc]
  · exact spelled_string cs
  · rcases number_cases c cs with ⟨-, h⟩ | ⟨mark, behind, -, -, h⟩ <;> rw [h]
    · exact spelled_decimal c cs
    · exact spelled_hexadecimal mark behind
  · exact spelled_word hword cs
  · exact spelled_sign c cs

theorem clean_first (c : Char) (cs : List Char) : (first c cs).1.content.Clean := by
  rcases first_spelled c with ⟨-, hc⟩ | ⟨-, hc⟩ | ⟨-, hc⟩ | hc
  · rw [hc]
    trivial
  · rw [hc]
    trivial
  · rw [hc]
    exact clean_comment cs
  · rcases hc cs with ⟨k, hk, hclean⟩ | ⟨hk, -⟩ <;> rw [hk]
    · exact hclean
    · trivial

/-- What characters spell is code: comments and ends are made by the layout. -/
theorem isCode_first {c : Char} {cs : List Char} {k : TokenKind} (h : (first c cs).1.content = .token k) :
    k.isCode = true := by
  have hclean := clean_first c cs
  rw [h] at hclean
  exact hclean.2

end Lexeme

theorem Layout.clean_kindOf {l : Layout} {content : LexemeContent} (h : content.Clean) {kind : TokenKind}
    (hk : l.kindOf content = some kind) : kind.Clean := by
  cases content with
  | blank | nothing => cases hk
  | feed =>
    simp only [kindOf, Option.ite_none_right_eq_some, Option.some.injEq] at hk
    rw [← hk.2]
    trivial
  | comment isDoc text =>
    simp only [kindOf, Option.ite_none_right_eq_some, Option.some.injEq] at hk
    rw [← hk.2]
    cases isDoc <;> exact h
  | token kind' =>
    cases hk
    exact h.1

theorem Layout.clean_tokens {xs : List Lexeme} (h : ∀ x ∈ xs, x.content.Clean) (l : Layout) :
    ∀ t ∈ l.tokens xs, t.kind.Clean := by
  induction xs generalizing l with
  | nil =>
    intro t ht
    unfold tokens at ht
    split at ht
    · rw [List.mem_singleton] at ht
      rw [ht]
      trivial
    · rcases List.mem_cons.mp ht with rfl | ht
      · trivial
      · rw [List.mem_singleton] at ht
        rw [ht]
        trivial
  | cons x xs ih =>
    intro t ht
    rcases List.mem_append.mp ht with ht | ht
    · unfold tokenOf at ht
      split at ht
      · rename_i kind hkind
        rw [List.mem_singleton] at ht
        rw [ht]
        exact clean_kindOf (h x (by simp)) hkind
      · cases ht
    · exact ih (fun x hx => h x (by simp [hx])) _ t ht

/-- The tokens of a text carry only what their classes allow. -/
theorem clean_of_mem_lex {source : String} {toks : List Token} (h : lex source = .ok toks) :
    ∀ t ∈ toks, t.kind.Clean := by
  obtain ⟨-, rfl⟩ := lex_eq_ok_iff.mp h
  exact Layout.clean_tokens (Lexeme.forall_mem_all Lexeme.clean_first _) _

end QiIdl
