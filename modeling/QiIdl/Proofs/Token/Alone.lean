import QiIdl.Proofs.Token.Clean

/-!
# Tokens on their own

What a lexeme is depends on its own characters and on nothing else. To see where it ends the lexer looks a few
characters further, but all it learns there is that they do not go on with the lexeme. So these characters may as well
be missing, or be replaced by a blank at any point: a token is read as before if what follows it is *cut short*
(`first_cutShort`).

In particular a token is read from its own characters alone, and the end of the line and of the file follow
(`lex_of_first`). A quoted text is such a token (`lex_quote`).
-/

namespace QiIdl

namespace Lexeme

variable {c : Char} {cs' : List Char}

/-! ## Texts that are cut short -/

/-- The second text goes along with the first one, and may at any point come to its end or to a blank. -/
inductive CutShort : List Char → List Char → Prop where
  | stop {rest rest' : List Char} : (∀ c ∈ rest'.head?, isGap c = true) → CutShort rest rest'
  | cons {c : Char} {rest rest' : List Char} : CutShort rest rest' → CutShort (c :: rest) (c :: rest')

namespace CutShort

variable {cs rest rest' : List Char} {p : Char → Bool}

theorem nil : CutShort rest [] := .stop fun _ h => by cases h

theorem append_left (h : CutShort rest rest') : ∀ cs : List Char, CutShort (cs ++ rest) (cs ++ rest')
  | [] => h
  | _ :: cs => .cons (h.append_left cs)

/-- What the first character fails it still fails, unless blanks pass. -/
theorem stops (h : CutShort rest rest') (hp : ∀ c, isGap c = true → p c = false) (hstops : Stops p rest) :
    Stops p rest' := by
  cases h with
  | stop hgap => exact fun c hc => hp c (hgap c hc)
  | cons => exact hstops

/-- A text that starts with something other than a blank starts as before. -/
theorem eq_cons (h : CutShort rest (c :: cs')) (hc : isGap c = false) : ∃ cs, rest = c :: cs ∧ CutShort cs cs' := by
  cases h with
  | stop hgap =>
    rw [hgap c rfl] at hc
    cases hc
  | cons h => exact ⟨_, rfl, h⟩

end CutShort

theorem stops_dropWhile (p : Char → Bool) (cs : List Char) : Stops p (cs.dropWhile p) := by
  intro c hc
  have hnot := List.head?_dropWhile_not p cs
  rwa [Option.mem_def.mp hc] at hnot

theorem isGap_cases (h : isGap c = true) : c = ' ' ∨ c = '\t' ∨ c = '\r' := by
  simpa [isGap, or_assoc] using h

/-- A blank fails a test that the three blanks fail. -/
theorem eq_false_of_isGap {p : Char → Bool} (hp : [' ', '\t', '\r'].all (fun c => !p c) = true) :
    ∀ c, isGap c = true → p c = false := by
  intro c hc
  rcases isGap_cases hc with rfl | rfl | rfl <;> simp_all

section

variable {cs rest' : List Char} {p : Char → Bool}

/-- A run of characters is the same run if what follows it is cut short. -/
theorem CutShort.takeWhile_eq (h : CutShort (cs.dropWhile p) rest')
    (hp : [' ', '\t', '\r'].all (fun c => !p c) = true) : (cs.takeWhile p ++ rest').takeWhile p = cs.takeWhile p :=
  takeWhile_append_of_stops (List.all_eq_true.mp List.all_takeWhile)
    (h.stops (eq_false_of_isGap hp) (stops_dropWhile p cs))

theorem CutShort.dropWhile_eq (h : CutShort (cs.dropWhile p) rest')
    (hp : [' ', '\t', '\r'].all (fun c => !p c) = true) : (cs.takeWhile p ++ rest').dropWhile p = rest' :=
  dropWhile_append_of_stops (List.all_eq_true.mp List.all_takeWhile)
    (h.stops (eq_false_of_isGap hp) (stops_dropWhile p cs))

/-! ## Words and signs -/

theorem word_cutShort {first : Char} (h : CutShort (word first cs).2 rest') :
    word first ((word first cs).1.text.tail ++ rest') = ((word first cs).1, rest') := by
  simp only [word, ofToken, List.tail_cons] at h ⊢
  rw [h.takeWhile_eq (by decide), h.dropWhile_eq (by decide)]

theorem longSign?_of_isGap (first : Char) (h : isGap c = true) : longSign? first c = none := by
  unfold longSign?
  split <;> first | rfl | cases h

theorem sign_cutShort {first : Char} (h : CutShort (sign first cs).2 rest') :
    sign first ((sign first cs).1.text.tail ++ rest') = ((sign first cs).1, rest') := by
  rcases sign_cases first cs with ⟨hnone, hsign⟩ | ⟨second, behind, kind, rfl, hkind, -⟩
  · rw [hsign] at h ⊢
    rw [shortSign_text, List.tail_cons, List.nil_append]
    refine sign_eq_shortSign fun c hc => ?_
    obtain ⟨rest', rfl⟩ := List.head?_eq_some_iff.mp hc
    cases hgap : isGap c with
    | true => exact longSign?_of_isGap first hgap
    | false =>
      obtain ⟨cs, rfl, -⟩ := h.eq_cons hgap
      exact hnone c rfl
  · simp [sign, hkind, ofToken]

/-! ## Numbers -/

theorem hexadecimal_cutShort {mark : Char} (h : CutShort (hexadecimal mark cs).2 rest') :
    hexadecimal mark ((hexadecimal mark cs).1.text.drop 2 ++ rest') = ((hexadecimal mark cs).1, rest') := by
  rw [hexadecimal_rest] at h
  rw [hexadecimal_text, List.drop_succ_cons, List.drop_succ_cons, List.drop_zero]
  unfold hexadecimal
  dsimp only
  rw [h.takeWhile_eq (by decide), h.dropWhile_eq (by decide)]
  split <;> rfl

theorem startsWithDigit_cutShort (h : CutShort cs cs') (hcs : startsWithDigit cs = false) :
    startsWithDigit cs' = false := by
  cases h with
  | stop hgap =>
    cases cs' with
    | nil => rfl
    | cons c cs' => exact eq_false_of_isGap (p := Char.isDigit) (by decide) c (hgap c rfl)
  | cons => exact hcs

/-- Digits right behind a sign are still there. -/
theorem startsWithDigit_append (h : startsWithDigit cs = true) (rest' : List Char) :
    startsWithDigit (cs.takeWhile isDigitOrGap ++ rest') = true := by
  cases cs with
  | nil => cases h
  | cons c cs =>
    have hc : isDigitOrGap c = true := by
      rw [startsWithDigit] at h
      simp [isDigitOrGap, h]
    rw [List.takeWhile_cons_of_pos hc]
    exact h

/-- Without a point and a digit right behind it there is no fraction. -/
theorem fraction_eq_nil (h : ∀ behind, cs = '.' :: behind → startsWithDigit behind = false) :
    fraction cs = ([], cs) := by
  unfold fraction
  split
  · next behind => simp [h behind rfl]
  · rfl

theorem fraction_cutShort (h : CutShort (fraction cs).2 rest') :
    fraction ((fraction cs).1 ++ rest') = ((fraction cs).1, rest') := by
  by_cases hpoint : ∃ behind, cs = '.' :: behind ∧ startsWithDigit behind = true
  · obtain ⟨behind, rfl, hdigit⟩ := hpoint
    simp only [fraction, hdigit, if_true] at h ⊢
    simp only [List.cons_append, startsWithDigit_append hdigit, if_true]
    rw [h.takeWhile_eq (by decide), h.dropWhile_eq (by decide)]
  · have hnone : ∀ behind, cs = '.' :: behind → startsWithDigit behind = false := fun behind hcs =>
      Bool.eq_false_iff.mpr fun hdigit => hpoint ⟨behind, hcs, hdigit⟩
    rw [fraction_eq_nil hnone] at h ⊢
    refine fraction_eq_nil fun behind' hrest => ?_
    subst hrest
    obtain ⟨behind, hcs, hcut⟩ := h.eq_cons (by decide)
    exact startsWithDigit_cutShort hcut (hnone behind hcs)

/-- The mark of an exponent, a sign or none, and a digit stand at the start of a text. -/
inductive HasExponent : List Char → Prop where
  | signed {mark sign : Char} {behind : List Char} : mark = 'e' ∨ mark = 'E' → sign = '+' ∨ sign = '-' →
    startsWithDigit behind = true → HasExponent (mark :: sign :: behind)
  | plain {mark : Char} {behind : List Char} : mark = 'e' ∨ mark = 'E' → startsWithDigit behind = true →
    HasExponent (mark :: behind)

theorem exponent_of_sign {mark sign : Char} {behind : List Char} (hmark : mark = 'e' ∨ mark = 'E')
    (hsign : sign = '+' ∨ sign = '-') (hdigit : startsWithDigit behind = true) :
    exponent (mark :: sign :: behind) =
      ([mark, sign], behind.takeWhile isDigitOrGap, behind.dropWhile isDigitOrGap) := by
  simp only [exponent, hmark, hsign, hdigit, and_self, if_true]

theorem exponent_of_digit {mark : Char} {behind : List Char} (hmark : mark = 'e' ∨ mark = 'E')
    (hdigit : startsWithDigit behind = true) :
    exponent (mark :: behind) = ([mark], behind.takeWhile isDigitOrGap, behind.dropWhile isDigitOrGap) := by
  cases behind with
  | nil => cases hdigit
  | cons c behind =>
    rw [startsWithDigit] at hdigit
    have hsign : ¬ (c = '+' ∨ c = '-') := by
      rintro (rfl | rfl) <;> cases hdigit
    simp only [exponent, hmark, hsign, hdigit, false_and, if_true, if_false]

theorem exponent_eq_nil (h : ¬ HasExponent cs) : exponent cs = ([], [], cs) := by
  unfold exponent
  split
  · split
    · next mark behind hmark =>
      split
      · next sign behind =>
        have hsigned : ¬ ((sign = '+' ∨ sign = '-') ∧ startsWithDigit behind = true) := fun hs =>
          h (.signed hmark hs.1 hs.2)
        have hplain : ¬ sign.isDigit = true := fun hdigit => h (.plain hmark hdigit)
        rw [if_neg hsigned, if_neg hplain]
      · rfl
    · rfl
  · rfl

theorem HasExponent.of_cutShort (hcut : CutShort cs cs') (h : HasExponent cs') : HasExponent cs := by
  have hletter {mark : Char} (hmark : mark = 'e' ∨ mark = 'E') : isGap mark = false := by
    rcases hmark with rfl | rfl <;> rfl
  have hdigits {ds ds' : List Char} (hcut : CutShort ds ds') (hds : startsWithDigit ds' = true) :
      startsWithDigit ds = true := by
    rw [← Bool.not_eq_false]
    intro hno
    rw [startsWithDigit_cutShort hcut hno] at hds
    cases hds
  cases h with
  | signed hmark hsign hdigit =>
    obtain ⟨behind, rfl, hmore⟩ := hcut.eq_cons (hletter hmark)
    obtain ⟨behind, rfl, hdigits'⟩ := hmore.eq_cons (by rcases hsign with rfl | rfl <;> rfl)
    exact .signed hmark hsign (hdigits hdigits' hdigit)
  | plain hmark hdigit =>
    obtain ⟨behind, rfl, hmore⟩ := hcut.eq_cons (hletter hmark)
    exact .plain hmark (hdigits hmore hdigit)

theorem exponent_cutShort (h : CutShort (exponent cs).2.2 rest') :
    exponent ((exponent cs).1 ++ ((exponent cs).2.1 ++ rest')) = ((exponent cs).1, (exponent cs).2.1, rest') := by
  by_cases hexp : HasExponent cs
  · cases hexp with
    | signed hmark hsign hdigit =>
      rw [exponent_of_sign hmark hsign hdigit] at h ⊢
      simp only [List.cons_append, List.nil_append]
      rw [exponent_of_sign hmark hsign (startsWithDigit_append hdigit _), h.takeWhile_eq (by decide),
        h.dropWhile_eq (by decide)]
    | plain hmark hdigit =>
      rw [exponent_of_digit hmark hdigit] at h ⊢
      simp only [List.cons_append, List.nil_append]
      rw [exponent_of_digit hmark (startsWithDigit_append hdigit _), h.takeWhile_eq (by decide),
        h.dropWhile_eq (by decide)]
  · rw [exponent_eq_nil hexp] at h ⊢
    exact exponent_eq_nil fun hexp' => hexp (hexp'.of_cutShort h)

/-- A number is made of its digits, its fraction and its exponent. -/
theorem decimal_congr (first : Char) {cs cs' behind behind' : List Char}
    (hwhole : cs'.takeWhile isDigitOrGap = cs.takeWhile isDigitOrGap)
    (hfraction : fraction (cs'.dropWhile isDigitOrGap) = ((fraction (cs.dropWhile isDigitOrGap)).1, behind))
    (hexponent : exponent behind = ((exponent (fraction (cs.dropWhile isDigitOrGap)).2).1,
      (exponent (fraction (cs.dropWhile isDigitOrGap)).2).2.1, behind')) :
    decimal first cs' = ((decimal first cs).1, behind') := by
  unfold decimal
  simp only [hwhole, hfraction, hexponent]
  split
  · split <;> rfl
  · rfl

theorem decimal_cutShort {first : Char} (h : CutShort (decimal first cs).2 rest') :
    decimal first ((decimal first cs).1.text.tail ++ rest') = ((decimal first cs).1, rest') := by
  rw [decimal_rest] at h
  rw [decimal_text_eq, List.tail_cons]
  simp only [List.append_assoc]
  have hexponent := h.append_left (exponent (fraction (cs.dropWhile isDigitOrGap)).2).2.1 |>.append_left
    (exponent (fraction (cs.dropWhile isDigitOrGap)).2).1
  rw [exponent_append] at hexponent
  have hfraction := hexponent.append_left (fraction (cs.dropWhile isDigitOrGap)).1
  rw [fraction_append] at hfraction
  refine decimal_congr first (hfraction.takeWhile_eq (by decide)) ?_ (exponent_cutShort h)
  rw [hfraction.dropWhile_eq (by decide)]
  exact fraction_cutShort hexponent

/-- A decimal number, where no mark of a hexadecimal one follows. -/
theorem number_eq_decimal {first : Char} (h : ∀ mark ∈ cs.head?, ¬ (first = '0' ∧ (mark = 'x' ∨ mark = 'X'))) :
    number first cs = decimal first cs := by
  unfold number
  split
  · next mark behind => rw [if_neg (h mark rfl)]
  · rfl

theorem number_cutShort {first : Char} (h : CutShort (number first cs).2 rest') :
    number first ((number first cs).1.text.tail ++ rest') = ((number first cs).1, rest') := by
  rcases number_cases first cs with ⟨hnone, hdecimal⟩ | ⟨mark, behind, rfl, ⟨rfl, hmark⟩, -⟩
  · rw [hdecimal] at h ⊢
    rw [number_eq_decimal, decimal_cutShort h]
    intro mark hmark hx
    obtain ⟨behind', hbehind⟩ := List.head?_eq_some_iff.mp hmark
    obtain ⟨more, htext, hcs⟩ := takes_decimal first cs
    rw [htext, List.tail_cons] at hbehind
    have hcut := h.append_left more
    rw [hcs, hbehind] at hcut
    obtain ⟨behind, rfl, -⟩ := hcut.eq_cons (by rcases hx.2 with rfl | rfl <;> rfl)
    exact hnone mark rfl hx
  · have hnumber (behind : List Char) : number '0' (mark :: behind) = hexadecimal mark behind := by
      simp only [number, hmark, and_self, if_true]
    have htext : (hexadecimal mark behind).1.text.tail = mark :: (hexadecimal mark behind).1.text.drop 2 := by
      rw [hexadecimal_text]
      rfl
    rw [hnumber] at h ⊢
    rw [htext, List.cons_append, hnumber]
    exact hexadecimal_cutShort h

/-! ## Strings -/

theorem stringBody_other {c : Char} (hquote : c ≠ '"') (hfeed : c ≠ '\n') (hslash : c ≠ '\\') (before : Nat)
    (rest : List Char) :
    stringBody before (c :: rest) = (stringBody (before + c.utf8Size) rest).after [c] c [] := by
  rw [stringBody]
  · exact hquote
  · exact hfeed
  · exact fun h _ => hslash h
  · exact fun _ _ h _ => hslash h

/-- A string ends at its closing quote, whatever follows. -/
theorem stringBody_closed (before : Nat) (cs : List Char) (h : (stringBody before cs).closed = true)
    (rest' : List Char) :
    stringBody before ((stringBody before cs).taken ++ rest') = { stringBody before cs with rest := rest' } := by
  fun_induction stringBody before cs with
  | case1 | case3 | case4 => cases h
  | case2 before rest => rfl
  | case5 before e rest next value hvalue ih =>
    simp only [StringBody.after, List.cons_append, List.nil_append] at h ⊢
    rw [stringBody, hvalue]
    dsimp only
    rw [ih h]
    rfl
  | case6 before e rest next hvalue ih =>
    simp only [StringBody.after, List.cons_append, List.nil_append] at h ⊢
    rw [stringBody, hvalue]
    dsimp only
    rw [ih h]
    rfl
  | case7 before c rest hquote hfeed hend hslash ih =>
    simp only [StringBody.after, List.cons_append, List.nil_append] at h ⊢
    have hslash' : c ≠ '\\' := by
      rintro rfl
      cases rest with
      | nil => exact hend rfl rfl
      | cons e rest => exact hslash e rest rfl rfl
    rw [stringBody_other hquote hfeed hslash', ih h]
    rfl

theorem string_closed {cs : List Char} {k : TokenKind} (h : (string cs).1.content = .token k) (rest' : List Char) :
    string ((string cs).1.text.tail ++ rest') = ((string cs).1, rest') := by
  have hclosed : (stringBody 1 cs).closed = true := by
    simp only [string] at h
    split at h
    · assumption
    · cases h
  simp only [string, List.tail_cons, stringBody_closed 1 cs hclosed]

/-! ## Comments -/

theorem content_comment (cs : List Char) : ∃ isDoc text, (comment cs).1.content = .comment isDoc text := by
  unfold comment
  dsimp only
  split
  · exact ⟨true, _, rfl⟩
  · exact ⟨false, _, rfl⟩

/-- A comment is made of the characters up to the end of its line. -/
theorem comment_congr {cs cs' : List Char} (h : cs'.takeWhile (· != '\n') = cs.takeWhile (· != '\n')) :
    (comment cs').1 = (comment cs).1 := by
  unfold comment
  dsimp only
  rw [h]
  split <;> rfl

theorem comment_alone (cs : List Char) : comment (comment cs).1.text.tail = ((comment cs).1, []) := by
  have hall : ∀ c ∈ cs.takeWhile (· != '\n'), (c != '\n') = true := List.all_eq_true.mp List.all_takeWhile
  have hstops : Stops (· != '\n') [] := nofun
  have htake := takeWhile_append_of_stops hall hstops
  have hdrop := dropWhile_append_of_stops hall hstops
  rw [List.append_nil] at htake hdrop
  rw [comment_text, List.tail_cons]
  exact Prod.ext (comment_congr htake) ((comment_rest _).trans hdrop)

/-! ## All lexemes -/

/-- A token is read as before if what follows it is cut short. -/
theorem first_cutShort {c : Char} {cs : List Char} {k : TokenKind} (hk : (first c cs).1.content = .token k)
    (h : CutShort (first c cs).2 rest') :
    first c ((first c cs).1.text.tail ++ rest') = ((first c cs).1, rest') := by
  rcases first_cases c with ⟨-, hc⟩ | ⟨-, hc⟩ | ⟨-, hc⟩ | ⟨-, hc⟩ | hc | ⟨-, hc⟩ | hc <;> rw [hc] at hk h ⊢
  · cases hk
  · cases hk
  · obtain ⟨isDoc, text, hcomment⟩ := content_comment cs
    rw [hcomment] at hk
    cases hk
  · rw [hc]
    exact string_closed hk rest'
  · rw [hc]
    exact number_cutShort h
  · rw [hc]
    exact word_cutShort h
  · rw [hc]
    exact sign_cutShort h

/-- What becomes a token is read in the same way from its own characters alone. -/
theorem first_alone {c : Char} {cs : List Char} {l : Layout} {k : TokenKind}
    (hk : l.kindOf (first c cs).1.content = some k) (hne : k ≠ .newline) :
    first c (first c cs).1.text.tail = ((first c cs).1, []) := by
  rcases first_spelled c with ⟨-, hc⟩ | ⟨-, hc⟩ | ⟨-, hc⟩ | hc
  · rw [hc] at hk
    cases hk
  · rw [hc] at hk
    simp only [Layout.kindOf, Option.ite_none_right_eq_some, Option.some.injEq] at hk
    exact absurd hk.2.symm hne
  · rw [hc, hc]
    exact comment_alone cs
  · rcases hc cs with ⟨k', hcontent, -⟩ | ⟨hcontent, -⟩
    · have hcut : CutShort (first c cs).2 [] := .nil
      simpa only [List.append_nil] using first_cutShort hcontent hcut
    · rw [hcontent] at hk
      cases hk

end

end Lexeme

/-! ## Texts of one token -/

/-- The tokens of a text of so many bytes that is a single token: the end of the line and of the file follow it. -/
def loneTokens (k : TokenKind) (size : Nat) : List Token :=
  [⟨k, ⟨0, size⟩⟩, ⟨.newline, .point size⟩, ⟨.eof, .point size⟩]

theorem Layout.after_of_kindOf {l : Layout} {x : Lexeme} {k : TokenKind} (hk : l.kindOf x.content = some k)
    (hne : k ≠ .newline) : l.after x = ⟨l.offset + byteLength x.text, false, depthAfter l.depth k⟩ := by
  unfold after
  rw [hk]
  cases k <;> first | rfl | contradiction

/-- Where the first lexeme takes up the whole text, the text is a single token. -/
theorem lex_of_first {c : Char} {cs : List Char} {x : Lexeme} {k : TokenKind} (h : Lexeme.first c cs = (x, []))
    (hflaws : x.flaws = []) (hk : Layout.start.kindOf x.content = some k) (hne : k ≠ .newline) :
    lex (String.ofList (c :: cs)) = .ok (loneTokens k (byteLength (c :: cs))) := by
  have htext : x.text = c :: cs := by
    have happ := Lexeme.first_text_append c cs
    rwa [h, List.append_nil] at happ
  have hall : Lexeme.all (c :: cs) = [x] := by
    rw [Lexeme.all_cons, h]
    rfl
  have hafter := Layout.after_of_kindOf hk hne
  rw [htext, Layout.start, Nat.zero_add] at hafter
  simp only [lex, String.toList_ofList, hall, Layout.faults, Layout.faultsOf, hflaws, List.map_nil, List.nil_append,
    Layout.tokens, Layout.tokenOf, hk, Layout.spanOf, htext, loneTokens]
  simp [Layout.start, hafter]

theorem byteLength_toList (s : String) : byteLength s.toList = s.utf8ByteSize := by
  have hlist (cs : List Char) : byteLength cs = (String.ofList cs).utf8ByteSize := by
    induction cs with
    | nil => rfl
    | cons c cs ih =>
      have hcons : String.ofList (c :: cs) = String.singleton c ++ String.ofList cs := by simp
      rw [byteLength, ih, hcons, String.utf8ByteSize_append, String.utf8ByteSize_singleton]
  rw [hlist, String.ofList_toList]

/-- A text that is one lexeme is a single token. -/
theorem lex_of_spells {s : String} {k : TokenKind} (h : Lexeme.Spells [] s.toList k) (hne : k ≠ .newline) :
    lex s = .ok (loneTokens k s.utf8ByteSize) := by
  obtain ⟨c, cs, hs, hfirst⟩ := h
  rw [List.append_nil] at hfirst
  have hlex := lex_of_first hfirst rfl rfl hne
  rwa [← hs, String.ofList_toList, byteLength_toList] at hlex

/-! ## Quoted text -/

theorem Text.mem_quoteChar {c d : Char} (h : d ∈ quoteChar c) :
    d ∈ ['\\', 'n', 't', 'r', '"'] ∨ escape? d = none := by
  unfold quoteChar at h
  split at h
  · next e he =>
    unfold escape? at he
    simp only [List.mem_cons, List.not_mem_nil, or_false] at h
    split at he <;> cases he <;> rcases h with rfl | rfl <;> simp
  · next hc =>
    rw [List.mem_singleton.mp h]
    exact .inr hc

theorem Text.not_mem_quoteChars {d : Char} (h : d = '\n' ∨ d = '\r') (cs : List Char) : d ∉ quoteChars cs := by
  intro hmem
  rw [quoteChars, List.mem_cons, List.mem_append, List.mem_flatMap, List.mem_singleton] at hmem
  rcases hmem with rfl | ⟨c, -, hc⟩ | rfl
  · simp at h
  · rcases h with rfl | rfl <;> simpa [escape?] using mem_quoteChar hc
  · simp at h

theorem Lexeme.first_quoted (cs : List Char) :
    first '"' (cs.flatMap Text.quoteChar ++ ['"']) = (ofToken (Text.quoteChars cs) (.string (String.ofList cs)), []) := by
  have hfirst (ds : List Char) : first '"' ds = string ds := by simp [first, isGap]
  rw [hfirst, string, stringBody_quoted]
  rfl

/-- A quoted text is a single string token that covers it and has the text as its value, and it stays on one line. -/
theorem lex_quote (s : String) :
    lex (Text.quote s) = .ok (loneTokens (.string s) (Text.quote s).utf8ByteSize) ∧
      '\n' ∉ (Text.quote s).toList ∧ '\r' ∉ (Text.quote s).toList := by
  have hchars : (Text.quote s).toList = Text.quoteChars s.toList := String.toList_ofList
  refine ⟨?_, ?_, ?_⟩
  · have hlex := lex_of_first (Lexeme.first_quoted s.toList) rfl rfl (by simp)
    rw [String.ofList_toList] at hlex
    rw [← byteLength_toList, hchars]
    exact hlex
  · rw [hchars]
    exact Text.not_mem_quoteChars (.inl rfl) _
  · rw [hchars]
    exact Text.not_mem_quoteChars (.inr rfl) _

end QiIdl
