import Mathlib.Data.List.Chain
import QiIdl.Proofs.Token.Alone
import QiIdl.Proofs.Token.Order

/-!
# Tokens tile a text

A text is *tiled* by its tokens: it is put together from the texts of the tokens, in their order, and from what may
stand between them, which is blanks, line feeds and comments. `Tiles` says how, from some offset on. It follows the
lexemes of the text: one that becomes a token adds a tile, and any other is joined to what stands before the next tile.

What is then said of the whole text is read off its tiles (`tiled_of_lex`): spans fall between characters, tokens are
apart and in order, only filling stands between them, and each of them is what its own characters spell.
-/

namespace QiIdl

/-! ## Bytes -/

/-- A text cut behind its first `n` bytes, if that is between two characters. -/
def splitBytes? : (n : Nat) → List Char → Option (List Char × List Char)
  | 0, cs => some ([], cs)
  | _ + 1, [] => none
  | n + 1, c :: cs =>
    if c.utf8Size ≤ n + 1 then (splitBytes? (n + 1 - c.utf8Size) cs).map (Prod.map (c :: ·) id) else none

/-- The characters of a text that a span covers, if it starts and ends between characters. -/
def Span.slice? (s : Span) (cs : List Char) : Option (List Char) :=
  (splitBytes? s.start cs).bind fun parts => (splitBytes? (s.stop - s.start) parts.2).map Prod.fst

theorem splitBytes?_append : ∀ cs ds : List Char, splitBytes? (byteLength cs) (cs ++ ds) = some (cs, ds)
  | [], _ => by rw [byteLength, splitBytes?, List.nil_append]
  | c :: cs, ds => by
    have hpos := c.utf8Size_pos
    obtain ⟨n, hn⟩ : ∃ n, byteLength (c :: cs) = n + 1 := ⟨c.utf8Size + byteLength cs - 1, by rw [byteLength]; omega⟩
    have hrest : n + 1 - c.utf8Size = byteLength cs := by rw [← hn, byteLength]; omega
    have hle : c.utf8Size ≤ n + 1 := by rw [← hn, byteLength]; omega
    rw [hn, List.cons_append, splitBytes?, if_pos hle, hrest, splitBytes?_append cs ds]
    rfl

theorem byteLength_append (cs ds : List Char) : byteLength (cs ++ ds) = byteLength cs + byteLength ds := by
  induction cs with
  | nil => rw [List.nil_append, byteLength, Nat.zero_add]
  | cons c cs ih => rw [List.cons_append, byteLength, byteLength, ih, Nat.add_assoc]

theorem Span.slice?_append (before text after : List Char) :
    Span.slice? ⟨byteLength before, byteLength before + byteLength text⟩ (before ++ (text ++ after)) = some text := by
  rw [slice?, splitBytes?_append, Option.bind_some, Nat.add_sub_cancel_left, splitBytes?_append]
  rfl

theorem Span.slice?_point (cs : List Char) : (Span.point (byteLength cs)).slice? cs = some [] := by
  have hslice := slice?_append cs [] []
  rwa [byteLength, Nat.add_zero, List.nil_append, List.append_nil] at hslice

/-! ## Lexemes without flaws -/

namespace Lexeme

/-- Without flaws, a lexeme is a blank, a line feed, a comment, or it becomes a token. -/
theorem first_of_flawless {c : Char} {cs : List Char} (h : (first c cs).1.flaws = []) :
    (isGap c = true ∧ first c cs = (⟨[c], .blank, []⟩, cs)) ∨ (c = '\n' ∧ first c cs = (⟨['\n'], .feed, []⟩, cs)) ∨
      (c = '#' ∧ first c cs = comment cs) ∨ ∃ k, (first c cs).1.content = .token k := by
  rcases first_spelled c with ⟨hgap, hc⟩ | ⟨rfl, hc⟩ | ⟨hhash, hc⟩ | hc
  · exact .inl ⟨hgap, hc cs⟩
  · exact .inr (.inl ⟨rfl, hc cs⟩)
  · exact .inr (.inr (.inl ⟨hhash, hc cs⟩))
  · rcases hc cs with ⟨k, hk, -⟩ | ⟨-, hflaws⟩
    · exact .inr (.inr (.inr ⟨k, hk⟩))
    · exact absurd h hflaws

end Lexeme

/-! ## Filling -/

/-- What may stand between tokens, in front of `after`: blanks, line feeds, and comments, which reach to the ends of
their lines. -/
inductive IsFilling (after : List Char) : List Char → Prop where
  | nil : IsFilling after []
  | blank {c : Char} {cs : List Char} : c ∈ [' ', '\t', '\r', '\n'] → IsFilling after cs → IsFilling after (c :: cs)
  | comment {body cs : List Char} : '\n' ∉ body → (∀ c ∈ (cs ++ after).head?, c = '\n') → IsFilling after cs →
    IsFilling after ('#' :: (body ++ cs))

/-- A lexeme that becomes no token can stand between tokens. -/
theorem IsFilling.lexeme {l : Layout} {c : Char} {cs gap after : List Char} (hrest : (Lexeme.first c cs).2 = gap ++ after)
    (hflaws : (Lexeme.first c cs).1.flaws = []) (hnone : l.kindOf (Lexeme.first c cs).1.content = none)
    (h : IsFilling after gap) : IsFilling after ((Lexeme.first c cs).1.text ++ gap) := by
  rcases Lexeme.first_of_flawless hflaws with ⟨hgap, hc⟩ | ⟨-, hc⟩ | ⟨-, hc⟩ | ⟨k, hk⟩
  · rw [hc]
    refine .blank ?_ h
    rcases Lexeme.isGap_cases hgap with rfl | rfl | rfl <;> simp
  · rw [hc]
    exact .blank (by simp) h
  · rw [hc, Lexeme.comment_text]
    rw [hc, Lexeme.comment_rest] at hrest
    refine .comment ?_ ?_ h
    · intro hmem
      exact absurd (List.all_eq_true.mp List.all_takeWhile _ hmem) (by decide)
    · rw [← hrest]
      intro d hd
      simpa using Lexeme.stops_dropWhile (· != '\n') cs d hd
  · rw [hk] at hnone
    cases hnone

/-! ## Tiles -/

/-- The text `cs`, which starts at an offset, is tiled by tokens: it is the filling before the first of them, the text
of that one, and so on. The last line and the file may end without a character for it. -/
inductive Tiles : (offset : Nat) → (cs : List Char) → List Token → Prop where
  | eof {offset stop : Nat} {gap : List Char} : IsFilling [] gap → stop = offset + byteLength gap →
    Tiles offset gap [⟨.eof, .point stop⟩]
  | lastLine {offset stop : Nat} {gap : List Char} : IsFilling [] gap → stop = offset + byteLength gap →
    Tiles offset gap [⟨.newline, .point stop⟩, ⟨.eof, .point stop⟩]
  | token {offset start stop : Nat} {gap text rest : List Char} {k : TokenKind} {toks : List Token} :
    IsFilling (text ++ rest) gap → start = offset + byteLength gap → stop = start + byteLength text →
    (k ≠ .newline → lex (String.ofList text) = .ok (loneTokens k (byteLength text))) → Tiles stop rest toks →
    Tiles offset (gap ++ (text ++ rest)) (⟨k, ⟨start, stop⟩⟩ :: toks)

/-- What can stand between tokens joins the filling before the first tile. -/
theorem Tiles.fill {offset : Nat} {skipped cs : List Char} {toks : List Token}
    (hskip : ∀ gap after, cs = gap ++ after → IsFilling after gap → IsFilling after (skipped ++ gap))
    (h : Tiles (offset + byteLength skipped) cs toks) : Tiles offset (skipped ++ cs) toks := by
  cases h with
  | eof hgap hstop =>
    refine .eof (hskip _ [] (List.append_nil _).symm hgap) ?_
    rw [hstop, byteLength_append, Nat.add_assoc]
  | lastLine hgap hstop =>
    refine .lastLine (hskip _ [] (List.append_nil _).symm hgap) ?_
    rw [hstop, byteLength_append, Nat.add_assoc]
  | token hgap hstart hstop hlone htiles =>
    rw [← List.append_assoc]
    refine .token (hskip _ _ rfl hgap) ?_ hstop hlone htiles
    rw [hstart, byteLength_append, Nat.add_assoc]

namespace Layout

/-- Only the end of a line depends on where a lexeme stands. -/
theorem kindOf_start {l : Layout} {content : LexemeContent} {k : TokenKind} (hk : l.kindOf content = some k)
    (hne : k ≠ .newline) : start.kindOf content = some k := by
  cases content with
  | blank | nothing => cases hk
  | token kind => exact hk
  | feed =>
    simp only [kindOf, Option.ite_none_right_eq_some, Option.some.injEq] at hk
    exact absurd hk.2.symm hne
  | comment isDoc text =>
    simp only [kindOf, Option.ite_none_right_eq_some] at hk
    simpa [kindOf, start] using hk.2

theorem faults_cons {l : Layout} {x : Lexeme} {xs : List Lexeme} (h : l.faults (x :: xs) = []) :
    x.flaws = [] ∧ (l.after x).faults xs = [] := by
  simpa [faults, faultsOf] using h

/-- The tokens of a text without faults tile it. -/
theorem tiles (cs : List Char) : ∀ l : Layout, l.faults (Lexeme.all cs) = [] →
    Tiles l.offset cs (l.tokens (Lexeme.all cs)) := by
  induction cs using Lexeme.cut_induction with
  | nil =>
    intro l _
    change Tiles l.offset [] (l.tokens [])
    rw [tokens]
    split
    · exact .eof .nil rfl
    · exact .lastLine .nil rfl
  | cons c cs ih =>
    intro l hfaults
    rw [Lexeme.all_cons] at hfaults ⊢
    obtain ⟨hflaws, hrest⟩ := faults_cons hfaults
    have htiles := ih _ hrest
    rw [offset_after] at htiles
    rw [tokens, tokenOf, ← Lexeme.first_text_append c cs]
    cases hk : l.kindOf (Lexeme.first c cs).1.content with
    | none => exact htiles.fill fun gap after hgap => .lexeme hgap hflaws hk
    | some k =>
      have hgap : IsFilling ((Lexeme.first c cs).1.text ++ (Lexeme.first c cs).2) [] := .nil
      refine .token hgap rfl rfl (fun hne => ?_) htiles
      have halone := lex_of_first (Lexeme.first_alone hk hne) hflaws (kindOf_start hk hne) hne
      rwa [← Lexeme.text_eq_cons] at halone

end Layout

/-! ## What tiles say -/

/-- Between two offsets of a text there is nothing but filling. -/
def FilledBetween (source : List Char) (start stop : Nat) : Prop :=
  ∃ before gap after, source = before ++ (gap ++ after) ∧ byteLength before = start ∧
    byteLength (before ++ gap) = stop ∧ IsFilling after gap

namespace Tiles

variable {offset : Nat} {cs : List Char} {toks : List Token}

/-- The span of a tile covers its text. -/
theorem slice? (h : Tiles offset cs toks) : ∀ before, byteLength before = offset → ∀ t ∈ toks, ∃ text,
    t.span.slice? (before ++ cs) = some text ∧
      (t.kind ≠ .newline → t.kind ≠ .eof → lex (String.ofList text) = .ok (loneTokens t.kind (byteLength text))) := by
  induction h with
  | @eof offset stop gap _ hstop =>
    intro before hbefore t ht
    rw [List.mem_singleton] at ht
    subst ht
    rw [hstop, ← hbefore, ← byteLength_append]
    exact ⟨[], Span.slice?_point _, fun _ heof => absurd rfl heof⟩
  | @lastLine offset stop gap _ hstop =>
    intro before hbefore t ht
    have hend : t.span = .point stop ∧ (t.kind = .newline ∨ t.kind = .eof) := by
      simp only [List.mem_cons, List.not_mem_nil, or_false] at ht
      rcases ht with rfl | rfl <;> simp
    rw [hend.1, hstop, ← hbefore, ← byteLength_append]
    exact ⟨[], Span.slice?_point _, fun hnewline heof => absurd hend.2 (not_or.mpr ⟨hnewline, heof⟩)⟩
  | @token offset start stop gap text rest k toks _ hstart hstop hlone _ ih =>
    intro before hbefore t ht
    have hlength : byteLength (before ++ gap) = start := by rw [byteLength_append, hbefore, hstart]
    rcases List.mem_cons.mp ht with rfl | ht
    · have hslice := Span.slice?_append (before ++ gap) text rest
      rw [hlength, ← hstop, List.append_assoc] at hslice
      exact ⟨text, hslice, fun hnewline _ => hlone hnewline⟩
    · have hmore := ih (before ++ gap ++ text) (by rw [byteLength_append, hlength, hstop]) t ht
      simpa only [List.append_assoc] using hmore

/-- Between tiles there is filling only, and so it is before the first. -/
theorem filledBetween (h : Tiles offset cs toks) : ∀ before, byteLength before = offset →
    (∀ t ∈ toks.head?, FilledBetween (before ++ cs) offset t.span.start) ∧
      toks.IsChain fun a b => FilledBetween (before ++ cs) a.span.stop b.span.start := by
  induction h with
  | @eof offset stop gap hgap hstop =>
    intro before hbefore
    refine ⟨fun t ht => ?_, .singleton _⟩
    cases ht
    exact ⟨before, gap, [], by rw [List.append_nil], hbefore, by rw [byteLength_append, hbefore, hstop]; rfl, hgap⟩
  | @lastLine offset stop gap hgap hstop =>
    intro before hbefore
    have hlength : byteLength (before ++ gap) = stop := by rw [byteLength_append, hbefore, hstop]
    refine ⟨fun t ht => ?_, .cons_cons ?_ (.singleton _)⟩
    · cases ht
      exact ⟨before, gap, [], by rw [List.append_nil], hbefore, hlength, hgap⟩
    · exact ⟨before ++ gap, [], [], by simp, hlength, by rw [List.append_nil]; exact hlength, .nil⟩
  | @token offset start stop gap text rest k toks hgap hstart hstop _ _ ih =>
    intro before hbefore
    have hlength : byteLength (before ++ gap) = start := by rw [byteLength_append, hbefore, hstart]
    obtain ⟨hhead, hchain⟩ := ih (before ++ gap ++ text) (by rw [byteLength_append, hlength, hstop])
    simp only [List.append_assoc] at hhead hchain
    refine ⟨fun t ht => ?_, List.isChain_cons.mpr ⟨hhead, hchain⟩⟩
    cases ht
    exact ⟨before, gap, text ++ rest, rfl, hbefore, hlength, hgap⟩

theorem getLast? (h : Tiles offset cs toks) : toks.getLast? = some ⟨.eof, .point (offset + byteLength cs)⟩ := by
  induction h with
  | eof _ hstop | lastLine _ hstop => rw [hstop]; rfl
  | @token offset start stop gap text rest k toks _ hstart hstop _ htiles ih =>
    rw [List.getLast?_cons, ih, hstop, hstart, byteLength_append, byteLength_append]
    simp only [Option.getD_some, Nat.add_assoc]

end Tiles

/-- Tokens tile a text: their spans fall between its characters, they are apart and in order, and reach to its end;
before and between them there is only filling; and a token is what its own characters spell. -/
structure Tiled (source : List Char) (toks : List Token) : Prop where
  inside : ∀ t ∈ toks, (t.span.slice? source).isSome = true
  ordered : Ordered toks
  front : ∀ t ∈ toks.head?, FilledBetween source 0 t.span.start
  between : toks.IsChain fun a b => FilledBetween source a.span.stop b.span.start
  back : toks.getLast? = some ⟨.eof, .point (byteLength source)⟩
  alone : ∀ t ∈ toks, t.kind ≠ .newline → t.kind ≠ .eof → ∀ text ∈ t.span.slice? source,
    lex (String.ofList text) = .ok (loneTokens t.kind (byteLength text))

/-- The tokens of a text tile it. -/
theorem tiled_of_lex {source : String} {toks : List Token} (h : lex source = .ok toks) :
    Tiled source.toList toks := by
  obtain ⟨hfaults, rfl⟩ := lex_eq_ok_iff.mp h
  have htiles := Layout.tiles source.toList Layout.start hfaults
  obtain ⟨hfront, hbetween⟩ := htiles.filledBetween [] rfl
  constructor
  case inside =>
    intro t ht
    obtain ⟨text, hslice, -⟩ := htiles.slice? [] rfl t ht
    exact Option.isSome_of_mem hslice
  case ordered => exact ordered_of_lex h
  case front => exact hfront
  case between => exact hbetween
  case back => simpa [Layout.start] using htiles.getLast?
  case alone =>
    intro t ht hnewline heof text htext
    obtain ⟨text', hslice, hlone⟩ := htiles.slice? [] rfl t ht
    cases Option.mem_unique htext hslice
    exact hlone hnewline heof

/-- Tokens of every class: a call over two lines with a comment in it, and a line that has no end of its own. -/
theorem tiled_of_lex_call :
    let source := "# ä\r\nf(0x1F, # b\n 1.5e+3) <= -x\n\nend \"\\n\" # c"
    ∃ toks, lex source = .ok toks ∧
      toks.map Token.span = [⟨0, 5⟩, ⟨5, 6⟩, ⟨6, 7⟩, ⟨7, 8⟩, ⟨8, 12⟩, ⟨12, 13⟩, ⟨19, 25⟩, ⟨25, 26⟩, ⟨27, 29⟩,
        ⟨30, 31⟩, ⟨31, 32⟩, ⟨32, 33⟩, ⟨34, 37⟩, ⟨38, 42⟩, ⟨46, 46⟩, ⟨46, 46⟩] ∧ Tiled source.toList toks := by
  intro source
  have hspans : (lex source).map (List.map Token.span) =
      .ok [⟨0, 5⟩, ⟨5, 6⟩, ⟨6, 7⟩, ⟨7, 8⟩, ⟨8, 12⟩, ⟨12, 13⟩, ⟨19, 25⟩, ⟨25, 26⟩, ⟨27, 29⟩,
        ⟨30, 31⟩, ⟨31, 32⟩, ⟨32, 33⟩, ⟨34, 37⟩, ⟨38, 42⟩, ⟨46, 46⟩, ⟨46, 46⟩] := by
    decide +kernel
  cases hlex : lex source with
  | error faults =>
    rw [hlex] at hspans
    cases hspans
  | ok toks =>
    rw [hlex] at hspans
    exact ⟨toks, rfl, Except.ok.inj hspans, tiled_of_lex hlex⟩

end QiIdl
