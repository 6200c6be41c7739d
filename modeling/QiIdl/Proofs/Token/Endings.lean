import QiIdl.Proofs.Token.Tiling

/-!
# The endings of lines

A line may end in a line feed or in a carriage return and a line feed. Written the other way, a text is cut into the
same lexemes but for blanks: the carriage return is one of its own, or it joins the comment that takes up the rest of
the line, and comments leave out the carriage returns at their ends. What blanks there are has no influence on the layout
(`Layout.kinds_of_substance`), so the tokens are the same.

Nothing else sees the carriage return. A token has no line feed in it, and what follows it is cut short by the carriage
return at most.
-/

namespace QiIdl

namespace Text

variable {sep : Char} {cs ds : List Char}

/-- Other words put between the pieces of a text take the place of the separators. -/
theorem intercalate_pieces_eq_flatMap (word cs : List Char) :
    word.intercalate (pieces sep cs) = cs.flatMap fun c => if c = sep then word else [c] := by
  induction cs with
  | nil => rfl
  | cons c cs ih =>
    rw [List.flatMap_cons, ← ih]
    by_cases hc : c = sep
    · subst hc
      obtain ⟨p, ps, hp⟩ := List.exists_cons_of_ne_nil (pieces_ne_nil c cs)
      rw [pieces_cons_sep, hp, List.intercalate_cons_cons, if_pos rfl, List.nil_append]
    · obtain ⟨p, ps, hp, hpc⟩ := pieces_cons_of_ne hc cs
      rw [hpc, hp, if_neg hc]
      cases ps with
      | nil => simp
      | cons q qs => simp only [List.intercalate_cons_cons, List.cons_append, List.nil_append]

/-- The characters of a text whose lines end in a carriage return and a line feed. -/
def withReturns (cs : List Char) : List Char := cs.flatMap fun c => if c = '\n' then ['\r', '\n'] else [c]

theorem toList_replaceChar_feed (s : String) : (replaceChar '\n' "\r\n" s).toList = withReturns s.toList := by
  have hmap : ((pieces '\n' s.toList).map String.ofList).map String.toList = pieces '\n' s.toList := by
    simp [List.map_map, Function.comp_def]
  rw [replaceChar, String.toList_intercalate, hmap]
  exact intercalate_pieces_eq_flatMap _ _

theorem withReturns_feed : withReturns ('\n' :: cs) = '\r' :: '\n' :: withReturns cs := by
  simp [withReturns]

theorem withReturns_cons {c : Char} (h : c ≠ '\n') : withReturns (c :: cs) = c :: withReturns cs := by
  simp [withReturns, h]

theorem withReturns_append : withReturns (cs ++ ds) = withReturns cs ++ withReturns ds := List.flatMap_append

theorem withReturns_of_not_mem (h : '\n' ∉ cs) : withReturns cs = cs := by
  induction cs with
  | nil => rfl
  | cons c cs ih =>
    rw [List.mem_cons, not_or] at h
    rw [withReturns_cons (Ne.symm h.1), ih h.2]

end Text

namespace Lexeme

open Text (withReturns)

/-- At the first end of a line a text with carriage returns comes to a blank. -/
theorem cutShort_withReturns (cs : List Char) : CutShort cs (withReturns cs) := by
  induction cs with
  | nil => exact .nil
  | cons c cs ih =>
    by_cases hc : c = '\n'
    · subst hc
      rw [Text.withReturns_feed]
      refine .stop fun d hd => ?_
      cases hd
      rfl
    · rw [Text.withReturns_cons hc]
      exact .cons ih

theorem first_return (cs : List Char) : first '\r' cs = (⟨['\r'], .blank, []⟩, cs) := by
  simp [first, isGap]

/-! ## Tokens stay on their line -/

theorem feed_not_mem_takeWhile {p : Char → Bool} (hp : p '\n' = false) (cs : List Char) : '\n' ∉ cs.takeWhile p := by
  intro hmem
  rw [List.all_eq_true.mp List.all_takeWhile _ hmem] at hp
  cases hp

theorem feed_not_mem_taken (before : Nat) (cs : List Char) (hclosed : (stringBody before cs).closed = true)
    (hflaws : (stringBody before cs).flaws = []) : '\n' ∉ (stringBody before cs).taken := by
  fun_induction stringBody before cs with
  | case1 | case3 | case4 => cases hclosed
  | case2 => simp
  | case5 before e rest next value hvalue ih =>
    have he : e ≠ '\n' := by
      rintro rfl
      cases hvalue
    simp [StringBody.after, Ne.symm he, ih hclosed hflaws]
  | case6 before e rest next hvalue ih => cases hflaws
  | case7 before c rest _ hfeed _ _ ih => simp [StringBody.after, Ne.symm hfeed, ih hclosed hflaws]

theorem feed_not_mem_fraction (cs : List Char) : '\n' ∉ (fraction cs).1 := by
  unfold fraction
  split
  · split
    · simp [feed_not_mem_takeWhile (p := isDigitOrGap) (by decide)]
    · simp
  · simp

theorem feed_not_mem_exponent (cs : List Char) : '\n' ∉ (exponent cs).1 ∧ '\n' ∉ (exponent cs).2.1 := by
  by_cases h : HasExponent cs
  · cases h with
    | signed hmark hsign hdigit =>
      rw [exponent_of_sign hmark hsign hdigit]
      refine ⟨?_, feed_not_mem_takeWhile (by decide) _⟩
      rcases hmark with rfl | rfl <;> rcases hsign with rfl | rfl <;> simp
    | plain hmark hdigit =>
      rw [exponent_of_digit hmark hdigit]
      refine ⟨?_, feed_not_mem_takeWhile (by decide) _⟩
      rcases hmark with rfl | rfl <;> simp
  · rw [exponent_eq_nil h]
    simp

theorem feed_not_mem_decimal (first : Char) (cs : List Char) : '\n' ∉ (decimal first cs).1.text.tail := by
  rw [decimal_text_eq, List.tail_cons]
  simp [feed_not_mem_takeWhile (p := isDigitOrGap) (by decide), feed_not_mem_fraction, feed_not_mem_exponent]

theorem feed_not_mem_number (first : Char) (cs : List Char) : '\n' ∉ (number first cs).1.text.tail := by
  rcases number_cases first cs with ⟨-, h⟩ | ⟨mark, behind, -, ⟨-, hmark⟩, h⟩ <;> rw [h]
  · exact feed_not_mem_decimal first cs
  · have hbody := feed_not_mem_takeWhile (p := fun c => (hexDigit? c).isSome || c == '_') (by decide) behind
    rw [hexadecimal_text]
    rcases hmark with rfl | rfl <;> simpa using hbody

theorem feed_not_mem_sign (first : Char) (cs : List Char) : '\n' ∉ (sign first cs).1.text.tail := by
  rcases sign_cases first cs with ⟨-, h⟩ | ⟨second, behind, kind, -, hkind, h⟩ <;> rw [h]
  · simp [shortSign_text]
  · have hsecond : second ≠ '\n' := by
      rintro rfl
      unfold longSign? at hkind
      split at hkind <;> simp_all
    simp [ofToken, Ne.symm hsecond]

/-- A token has no line feed in it. -/
theorem feed_not_mem_text {c : Char} {cs : List Char} {k : TokenKind} (hk : (first c cs).1.content = .token k)
    (hflaws : (first c cs).1.flaws = []) : c ≠ '\n' ∧ '\n' ∉ (first c cs).1.text.tail := by
  constructor
  · rintro rfl
    rw [first_feed] at hk
    cases hk
  · rcases first_cases c with ⟨-, hc⟩ | ⟨-, hc⟩ | ⟨-, hc⟩ | ⟨-, hc⟩ | hc | ⟨-, hc⟩ | hc <;> rw [hc] at hk hflaws ⊢
    · simp
    · simp
    · rw [comment_text]
      exact feed_not_mem_takeWhile (by decide) cs
    · refine feed_not_mem_taken 1 cs ?_ hflaws
      cases hclosed : (stringBody 1 cs).closed with
      | true => rfl
      | false =>
        simp only [string, hclosed] at hk
        cases hk
    · exact feed_not_mem_number c cs
    · exact feed_not_mem_takeWhile (by decide) cs
    · exact feed_not_mem_sign c cs

/-! ## The same lexemes but for blanks -/

/-- What some lexemes contribute besides blanks. -/
def substance (xs : List Lexeme) : List LexemeContent := (xs.map content).filter (· != .blank)

theorem substance_cons (x : Lexeme) (xs : List Lexeme) :
    substance (x :: xs) = if x.content = .blank then substance xs else x.content :: substance xs := by
  rw [substance, List.map_cons, List.filter_cons]
  split <;> simp_all [substance]

theorem commentText_return (cs : List Char) : commentText (cs ++ ['\r']) = commentText cs := by
  simp [commentText, List.reverse_append]

/-- A carriage return at the end of a comment is left out. -/
theorem content_comment_return {body : List Char} (h : '\n' ∉ body) (rest rest' : List Char) :
    (comment (body ++ '\r' :: '\n' :: rest)).1.content = (comment (body ++ '\n' :: rest')).1.content ∧
      (comment (body ++ '\r' :: '\n' :: rest)).2 = '\n' :: rest := by
  have hreturn : body ++ '\r' :: '\n' :: rest = (body ++ ['\r']) ++ '\n' :: rest := by simp
  obtain ⟨htake, hdrop⟩ := comment_append (show '\n' ∉ body ++ ['\r'] by simp [h]) rest
  obtain ⟨htake', -⟩ := comment_append h rest'
  rw [hreturn, comment_rest, hdrop, comment, comment, htake, htake']
  refine ⟨?_, rfl⟩
  cases body with
  | nil => rfl
  | cons c body =>
    by_cases hc : c = '#'
    · subst hc
      simp only [List.cons_append, commentText_return]
    · have hplain (ds : List Char) : commentText (c :: (ds ++ ['\r'])) = commentText (c :: ds) :=
        commentText_return (c :: ds)
      simp [hc, hplain]

theorem flaws_comment (cs : List Char) : (comment cs).1.flaws = [] := by
  unfold comment
  dsimp only
  split <;> rfl

/-- A token is cut from the same place, with the same characters. -/
theorem all_withReturns_token {c : Char} {cs : List Char} {k : TokenKind} (hk : (first c cs).1.content = .token k)
    (hflaws : (first c cs).1.flaws = []) :
    all (withReturns (c :: cs)) = (first c cs).1 :: all (withReturns (first c cs).2) := by
  obtain ⟨hne, hfeed⟩ := feed_not_mem_text hk hflaws
  have hcs : cs = (first c cs).1.text.tail ++ (first c cs).2 := by
    have happ := first_text_append c cs
    rw [text_eq_cons, List.cons_append] at happ
    exact (List.cons.inj happ).2.symm
  have hreturns : withReturns (c :: cs) = c :: ((first c cs).1.text.tail ++ withReturns (first c cs).2) := by
    conv => lhs; rw [hcs]
    rw [Text.withReturns_cons hne, Text.withReturns_append, Text.withReturns_of_not_mem hfeed]
  rw [hreturns, all_cons, first_cutShort hk (cutShort_withReturns (first c cs).2)]

/-- A comment before a line feed takes in the carriage return, but not into its text. -/
theorem all_withReturns_comment {cs behind : List Char} (h : cs.dropWhile (· != '\n') = '\n' :: behind) :
    ∃ x : Lexeme, x.flaws = [] ∧ x.content = (comment cs).1.content ∧
      all (withReturns ('#' :: cs)) = x :: all ('\n' :: withReturns behind) := by
  have hfeed := feed_not_mem_takeWhile (p := (· != '\n')) (by decide) cs
  have hcs := List.takeWhile_append_dropWhile (p := (· != '\n')) (l := cs)
  rw [h] at hcs
  obtain ⟨hcontent, hbehind⟩ := content_comment_return hfeed (withReturns behind) behind
  rw [hcs] at hcontent
  refine ⟨_, flaws_comment _, hcontent, ?_⟩
  rw [Text.withReturns_cons (by decide)]
  conv => lhs; rw [← hcs]
  rw [Text.withReturns_append, Text.withReturns_of_not_mem hfeed, Text.withReturns_feed, all_cons, first_hash, hbehind]

/-- With carriage returns a text without flaws has the same lexemes but for blanks, and none is flawed. -/
theorem all_withReturns (cs : List Char) : (∀ x ∈ all cs, x.flaws = []) →
    (∀ x ∈ all (withReturns cs), x.flaws = []) ∧ substance (all (withReturns cs)) = substance (all cs) := by
  induction cs using cut_induction with
  | nil => exact fun h => ⟨h, rfl⟩
  | cons c cs ih =>
    intro h
    rw [all_cons] at h ⊢
    obtain ⟨hflaws, hrest⟩ := List.forall_mem_cons.mp h
    obtain ⟨hflawless, hsame⟩ := ih hrest
    rcases first_of_flawless hflaws with ⟨hgap, hc⟩ | ⟨rfl, hc⟩ | ⟨rfl, hc⟩ | ⟨k, hk⟩
    · have hne : c ≠ '\n' := by
        rintro rfl
        cases hgap
      have hfirst : first c (withReturns cs) = (⟨[c], .blank, []⟩, withReturns cs) := by simp [first, hgap]
      rw [hc] at hflawless hsame ⊢
      rw [Text.withReturns_cons hne, all_cons, hfirst]
      exact ⟨List.forall_mem_cons.mpr ⟨rfl, hflawless⟩, by rw [substance_cons, substance_cons, hsame]⟩
    · rw [hc] at hflawless hsame ⊢
      rw [Text.withReturns_feed, all_cons, first_return, all_cons, first_feed]
      refine ⟨List.forall_mem_cons.mpr ⟨rfl, List.forall_mem_cons.mpr ⟨rfl, hflawless⟩⟩, ?_⟩
      simp only [substance_cons, hsame, if_true]
    · cases hbehind : cs.dropWhile (· != '\n') with
      | nil =>
        -- the last line has no end that could be written in another way
        have hfeed := feed_not_mem_takeWhile (p := (· != '\n')) (by decide) cs
        have hcs := List.takeWhile_append_dropWhile (p := (· != '\n')) (l := cs)
        rw [hbehind, List.append_nil] at hcs
        rw [Text.withReturns_of_not_mem (by rw [← hcs]; simp [hfeed]), all_cons]
        exact ⟨h, rfl⟩
      | cons d behind =>
        have hd : d = '\n' := by simpa using stops_dropWhile (· != '\n') cs d (by rw [hbehind]; rfl)
        subst hd
        obtain ⟨x, hx, hcontent, hall⟩ := all_withReturns_comment hbehind
        -- in front of the line feed the rest has a carriage return, which the comment has taken in
        rw [hc, comment_rest, hbehind, Text.withReturns_feed, all_cons, first_return] at hflawless hsame
        rw [hc, comment_rest, hbehind, hall, substance_cons, substance_cons, hcontent, ← hsame, substance_cons,
          if_pos rfl]
        exact ⟨List.forall_mem_cons.mpr ⟨hx, (List.forall_mem_cons.mp hflawless).2⟩, rfl⟩
    · rw [all_withReturns_token hk hflaws]
      exact ⟨List.forall_mem_cons.mpr ⟨hflaws, hflawless⟩, by rw [substance_cons, substance_cons, hsame]⟩

end Lexeme

/-! ## The same tokens -/

namespace Layout

theorem faults_eq_nil_iff {l : Layout} {xs : List Lexeme} : l.faults xs = [] ↔ ∀ x ∈ xs, x.flaws = [] := by
  induction xs generalizing l with
  | nil => simp [faults]
  | cons x xs ih => simp [faults, faultsOf, ih]

/-- The kinds of the tokens that become of some contents, if the line is still empty or not and so many brackets are
open. -/
def kindsOf (fresh : Bool) (depth : Nat) : List LexemeContent → List TokenKind
  | [] => if fresh then [.eof] else [.newline, .eof]
  | content :: contents =>
    match kindOf ⟨0, fresh, depth⟩ content with
    | none => kindsOf fresh depth contents
    | some .newline => .newline :: kindsOf true depth contents
    | some kind => kind :: kindsOf false (depthAfter depth kind) contents

/-- What tokens there are depends only on the contents that are not blank. -/
theorem kinds_of_substance (xs : List Lexeme) (l : Layout) :
    (l.tokens xs).map Token.kind = kindsOf l.fresh l.depth (Lexeme.substance xs) := by
  induction xs generalizing l with
  | nil =>
    simp only [tokens, Lexeme.substance, List.map_nil, List.filter_nil, kindsOf]
    split <;> rfl
  | cons x xs ih =>
    have hkind : kindOf ⟨0, l.fresh, l.depth⟩ x.content = l.kindOf x.content := by
      cases x.content <;> rfl
    rw [tokens, List.map_append, ih, Lexeme.substance_cons, tokenOf, after]
    by_cases hblank : x.content = .blank
    · rw [if_pos hblank, hblank]
      rfl
    · rw [if_neg hblank, kindsOf, hkind]
      cases hk : l.kindOf x.content with
      | none => rfl
      | some k => cases k <;> rfl

end Layout

/-- With carriage returns before its line feeds, a text has the same tokens. -/
theorem lex_replaceChar_feed {source : String} {toks : List Token} (h : lex source = .ok toks) :
    ∃ toks', lex (Text.replaceChar '\n' "\r\n" source) = .ok toks' ∧
      toks'.map Token.kind = toks.map Token.kind := by
  obtain ⟨hfaults, rfl⟩ := lex_eq_ok_iff.mp h
  obtain ⟨hflawless, hsame⟩ := Lexeme.all_withReturns source.toList (Layout.faults_eq_nil_iff.mp hfaults)
  rw [← Text.toList_replaceChar_feed] at hflawless hsame
  refine ⟨_, lex_eq_ok_iff.mpr ⟨Layout.faults_eq_nil_iff.mpr hflawless, rfl⟩, ?_⟩
  rw [Layout.kinds_of_substance, Layout.kinds_of_substance, hsame]

end QiIdl
