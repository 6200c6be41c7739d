import QiIdl.Token.Stream

/-!
# Cutting a text into lexemes

`Lexeme.first` takes one lexeme off a text. This file says what that does to the text and nothing else: the
characters of the lexeme and the rest are the text (`first_text_append`), so every lexeme takes something and
the count that bounds `Lexeme.cut` is never reached (`all_cons`). From there on a text is read by that one
equation, without a count.

Each class of lexemes has its own lemmas, in the order of the definitions.
-/

namespace QiIdl
namespace Lexeme

/-! ## Classes of lexemes -/

theorem comment_text (cs : List Char) : (comment cs).1.text = '#' :: cs.takeWhile (· != '\n') := by
  unfold comment
  dsimp only
  split
  · next body hbody => rw [hbody]
  · rfl

theorem comment_rest (cs : List Char) : (comment cs).2 = cs.dropWhile (· != '\n') := by
  unfold comment
  dsimp only
  split <;> rfl

theorem stringBody_taken_append : ∀ (before : Nat) (cs : List Char),
    (stringBody before cs).taken ++ (stringBody before cs).rest = cs := by
  intro before cs
  fun_induction stringBody before cs with
  | case1 | case2 | case3 | case4 => rfl
  | case5 before c rest next value h ih | case6 before c rest next h ih | case7 before c rest _ _ _ _ ih =>
    simp only [StringBody.after, List.append_assoc, ih]
    rfl

theorem hexadecimal_text (mark : Char) (cs : List Char) :
    (hexadecimal mark cs).1.text = '0' :: mark :: cs.takeWhile fun c => (hexDigit? c).isSome || c == '_' := by
  unfold hexadecimal
  dsimp only
  split <;> rfl

theorem hexadecimal_rest (mark : Char) (cs : List Char) :
    (hexadecimal mark cs).2 = cs.dropWhile fun c => (hexDigit? c).isSome || c == '_' := by
  unfold hexadecimal
  dsimp only
  split <;> rfl

theorem fraction_append (cs : List Char) : (fraction cs).1 ++ (fraction cs).2 = cs := by
  unfold fraction
  split
  · split
    · simp only [List.cons_append, List.takeWhile_append_dropWhile]
    · rfl
  · rfl

theorem exponent_append (cs : List Char) :
    (exponent cs).1 ++ ((exponent cs).2.1 ++ (exponent cs).2.2) = cs := by
  unfold exponent
  split
  · split
    · split
      · split
        · simp only [List.cons_append, List.nil_append, List.takeWhile_append_dropWhile]
        · split
          · simp only [List.cons_append, List.nil_append, List.takeWhile_append_dropWhile]
          · rfl
      · rfl
    · rfl
  · rfl

/-- What is behind the digits of a number, and what is behind its fraction. -/
theorem decimal_text_eq (first : Char) (cs : List Char) :
    (decimal first cs).1.text = first :: (cs.takeWhile isDigitOrGap ++ ((fraction (cs.dropWhile isDigitOrGap)).1 ++
      ((exponent (fraction (cs.dropWhile isDigitOrGap)).2).1 ++
        (exponent (fraction (cs.dropWhile isDigitOrGap)).2).2.1))) := by
  unfold decimal
  dsimp only
  split
  · split <;> simp [ofToken, unread]
  · simp [ofToken]

theorem decimal_rest (first : Char) (cs : List Char) :
    (decimal first cs).2 = (exponent (fraction (cs.dropWhile isDigitOrGap)).2).2.2 := by
  unfold decimal
  dsimp only
  split
  · split <;> rfl
  · rfl

/-- A number is decimal, but for the mark of a hexadecimal one. -/
theorem number_cases (first : Char) (cs : List Char) :
    ((∀ mark ∈ cs.head?, ¬ (first = '0' ∧ (mark = 'x' ∨ mark = 'X'))) ∧ number first cs = decimal first cs) ∨
    ∃ mark behind, cs = mark :: behind ∧ (first = '0' ∧ (mark = 'x' ∨ mark = 'X')) ∧
      number first cs = hexadecimal mark behind := by
  unfold number
  split
  · next mark behind =>
    split
    · next hmark => exact .inr ⟨mark, behind, rfl, hmark, rfl⟩
    · next hmark => exact .inl ⟨fun _ h => Option.some.inj h ▸ hmark, rfl⟩
  · exact .inl ⟨nofun, rfl⟩

theorem shortSign_text (c : Char) : (shortSign c).text = [c] := by
  unfold shortSign
  split <;> rfl

/-- A sign of one character, where the next character does not make a longer one of it. -/
theorem sign_eq_shortSign {first : Char} {cs : List Char} (h : ∀ c ∈ cs.head?, longSign? first c = none) :
    sign first cs = (shortSign first, cs) := by
  cases cs with
  | nil => rfl
  | cons c cs => simp only [sign, h c rfl]

/-- A sign has one character, or two if there is a sign of these two. -/
theorem sign_cases (first : Char) (cs : List Char) :
    ((∀ second ∈ cs.head?, longSign? first second = none) ∧ sign first cs = (shortSign first, cs)) ∨
    ∃ second behind kind, cs = second :: behind ∧ longSign? first second = some kind ∧
      sign first cs = (ofToken [first, second] kind, behind) := by
  unfold sign
  split
  · next second behind =>
    split
    · next kind hkind => exact .inr ⟨second, behind, kind, rfl, hkind, rfl⟩
    · next hnone => exact .inl ⟨fun _ h => Option.some.inj h ▸ hnone, rfl⟩
  · exact .inl ⟨nofun, rfl⟩

/-- The first character says what a lexeme is read as. -/
theorem first_cases (c : Char) :
    (isGap c = true ∧ ∀ cs, first c cs = (⟨[c], .blank, []⟩, cs)) ∨
    (c = '\n' ∧ ∀ cs, first c cs = (⟨[c], .feed, []⟩, cs)) ∨
    (c = '#' ∧ ∀ cs, first c cs = comment cs) ∨
    (c = '"' ∧ ∀ cs, first c cs = string cs) ∨
    (∀ cs, first c cs = number c cs) ∨ (Text.isWordStart c = true ∧ ∀ cs, first c cs = word c cs) ∨
    ∀ cs, first c cs = sign c cs := by
  unfold first
  by_cases hgap : isGap c = true
  · exact .inl ⟨hgap, fun cs => if_pos hgap⟩
  by_cases hfeed : c = '\n'
  · exact .inr (.inl ⟨hfeed, fun cs => by rw [if_neg hgap, if_pos hfeed]⟩)
  by_cases hhash : c = '#'
  · exact .inr (.inr (.inl ⟨hhash, fun cs => by rw [if_neg hgap, if_neg hfeed, if_pos hhash]⟩))
  refine .inr (.inr (.inr ?_))
  simp only [if_neg hgap, if_neg hfeed, if_neg hhash]
  by_cases hquote : c = '"'
  · exact .inl ⟨hquote, fun cs => if_pos hquote⟩
  by_cases hdigit : c.isDigit = true
  · exact .inr (.inl fun cs => by rw [if_neg hquote, if_pos hdigit])
  by_cases hword : Text.isWordStart c = true
  · exact .inr (.inr (.inl ⟨hword, fun cs => by rw [if_neg hquote, if_neg hdigit, if_pos hword]⟩))
  · exact .inr (.inr (.inr fun cs => by rw [if_neg hquote, if_neg hdigit, if_neg hword]))

/-! ## A lexeme and the rest are the text -/

/-- A lexeme that starts with `c`: what it takes besides and the rest are the text `cs`. -/
def Takes (c : Char) (cs : List Char) (x : Lexeme × List Char) : Prop :=
  ∃ more, x.1.text = c :: more ∧ more ++ x.2 = cs

theorem takes_comment (cs : List Char) : Takes '#' cs (comment cs) :=
  ⟨_, comment_text cs, by rw [comment_rest, List.takeWhile_append_dropWhile]⟩

theorem takes_decimal (first : Char) (cs : List Char) : Takes first cs (decimal first cs) :=
  ⟨_, decimal_text_eq first cs, by
    simp only [decimal_rest, List.append_assoc, exponent_append, fraction_append, List.takeWhile_append_dropWhile]⟩

theorem takes_number (first : Char) (cs : List Char) : Takes first cs (number first cs) := by
  rcases number_cases first cs with ⟨-, h⟩ | ⟨mark, behind, rfl, ⟨rfl, -⟩, h⟩ <;> rw [h]
  · exact takes_decimal first cs
  · refine ⟨_, hexadecimal_text mark behind, ?_⟩
    rw [hexadecimal_rest, List.cons_append, List.takeWhile_append_dropWhile]

theorem takes_sign (first : Char) (cs : List Char) : Takes first cs (sign first cs) := by
  rcases sign_cases first cs with ⟨-, h⟩ | ⟨second, behind, kind, rfl, -, h⟩ <;> rw [h]
  · exact ⟨[], shortSign_text first, rfl⟩
  · exact ⟨[second], rfl, rfl⟩

theorem takes_first (c : Char) (cs : List Char) : Takes c cs (first c cs) := by
  rcases first_cases c with ⟨-, hc⟩ | ⟨-, hc⟩ | ⟨rfl, hc⟩ | ⟨rfl, hc⟩ | hc | ⟨-, hc⟩ | hc <;> rw [hc]
  · exact ⟨[], rfl, rfl⟩
  · exact ⟨[], rfl, rfl⟩
  · exact takes_comment cs
  · exact ⟨_, rfl, stringBody_taken_append 1 cs⟩
  · exact takes_number c cs
  · exact ⟨_, rfl, List.takeWhile_append_dropWhile⟩
  · exact takes_sign c cs

/-- The characters of the first lexeme of a text, followed by the rest, are the text. -/
theorem first_text_append (c : Char) (cs : List Char) : (first c cs).1.text ++ (first c cs).2 = c :: cs := by
  obtain ⟨more, htext, happ⟩ := takes_first c cs
  rw [htext, List.cons_append, happ]

theorem text_eq_cons (c : Char) (cs : List Char) : (first c cs).1.text = c :: (first c cs).1.text.tail := by
  obtain ⟨more, htext, -⟩ := takes_first c cs
  rw [htext, List.tail_cons]

theorem first_text_ne_nil (c : Char) (cs : List Char) : (first c cs).1.text ≠ [] := by
  rw [text_eq_cons]
  exact List.cons_ne_nil _ _

/-! ## Cutting without a count -/

theorem first_rest_length_le (c : Char) (cs : List Char) : (first c cs).2.length ≤ cs.length := by
  have happ := congrArg List.length (first_text_append c cs)
  have hpos := List.length_pos_iff.mpr (first_text_ne_nil c cs)
  rw [List.length_append, List.length_cons] at happ
  omega

/-- A count of at least the length of the text is as good as any. -/
theorem cut_eq_all : ∀ (count : Nat) (cs : List Char), cs.length ≤ count → cut count cs = all cs := by
  intro count
  induction count using Nat.strongRecOn with
  | ind count ih =>
    intro cs hle
    match count, cs with
    | 0, [] | _ + 1, [] => rfl
    | count + 1, c :: cs =>
      have hrest := first_rest_length_le c cs
      have hcs : cs.length ≤ count := Nat.le_of_succ_le_succ hle
      simp only [all, cut, List.length_cons]
      rw [ih count (Nat.lt_succ_self _) _ (by omega), ih cs.length (by omega) _ hrest]

theorem all_cons (c : Char) (cs : List Char) : all (c :: cs) = (first c cs).1 :: all (first c cs).2 := by
  rw [← cut_eq_all _ _ (first_rest_length_le c cs)]
  rfl

/-- A text is read lexeme by lexeme. -/
theorem cut_induction {P : List Char → Prop} (nil : P []) (cons : ∀ c cs, P (first c cs).2 → P (c :: cs)) :
    ∀ cs, P cs := by
  intro cs
  induction hn : cs.length using Nat.strongRecOn generalizing cs with
  | ind n ih =>
    cases cs with
    | nil => exact nil
    | cons c cs =>
      have hrest := first_rest_length_le c cs
      rw [List.length_cons] at hn
      exact cons c cs (ih _ (by omega) _ rfl)

theorem forall_mem_all {P : Lexeme → Prop} (h : ∀ c cs, P (first c cs).1) : ∀ cs, ∀ x ∈ all cs, P x := by
  refine cut_induction (List.forall_mem_nil _) fun c cs ih => ?_
  rw [all_cons]
  exact List.forall_mem_cons.mpr ⟨h c cs, ih⟩

end Lexeme

theorem lex_eq_ok_iff {source : String} {toks : List Token} : lex source = .ok toks ↔
    Layout.start.faults (Lexeme.all source.toList) = [] ∧ Layout.start.tokens (Lexeme.all source.toList) = toks := by
  unfold lex
  dsimp only
  split
  · next hnone => simp [hnone]
  · next faults hsome =>
    constructor
    · exact nofun
    · exact fun h => absurd h.1 hsome

end QiIdl
