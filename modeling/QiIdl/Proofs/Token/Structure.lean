import QiIdl.Proofs.Grammar.Carries
import QiIdl.Proofs.Token.Tiling

/-!
# The line structure of tokens

Tokens come in lines. A line is a comment by itself or some tokens that are no comments, and it has one end. How a text
got there is forgotten: empty lines, line feeds inside brackets and comments behind other tokens leave nothing.

The layout of a text is in one of two states. Before the first token of a line no bracket is open, and what follows are
whole lines; behind it, what follows is the rest of a line and then whole lines (`Layout.lines_kinds`). A comment takes
up all of its line, so that nothing but the end of the line can be behind it.
-/

namespace QiIdl

variable {cs : List Char} {c : Char} {ks : List TokenKind}

/-- The tokens of a line: a comment, or some tokens of code, and the end of the line. -/
inductive IsLine : List TokenKind → Prop where
  | comment (text : String) : IsLine [.comment text, .newline]
  | docComment (text : String) : IsLine [.docComment text, .newline]
  | code {ks : List TokenKind} : ks ≠ [] → (∀ k ∈ ks, k.isCode = true) → IsLine (ks ++ [.newline])

/-! ## Layouts -/

namespace Layout

variable {k : TokenKind}

/-- Kinds of tokens from the start of a line on: whole lines and the end of the file. -/
def WholeLines (ks : List TokenKind) : Prop :=
  ∃ lines : List (List TokenKind), ks = lines.flatten ++ [.eof] ∧ ∀ line ∈ lines, IsLine line

/-- Kinds of tokens from within a line on: the rest of the line, whole lines and the end of the file. -/
def RestOfLine (ks : List TokenKind) : Prop :=
  ∃ code rest, ks = code ++ .newline :: rest ∧ (∀ k ∈ code, k.isCode = true) ∧ WholeLines rest

theorem RestOfLine.cons (hk : k.isCode = true) (h : RestOfLine ks) : RestOfLine (k :: ks) := by
  obtain ⟨code, rest, rfl, hcode, hrest⟩ := h
  exact ⟨k :: code, rest, rfl, List.forall_mem_cons.mpr ⟨hk, hcode⟩, hrest⟩

theorem WholeLines.code (hk : k.isCode = true) (h : RestOfLine ks) : WholeLines (k :: ks) := by
  obtain ⟨code, rest, rfl, hcode, lines, rfl, hlines⟩ := h
  refine ⟨(k :: code ++ [.newline]) :: lines, by simp, List.forall_mem_cons.mpr ⟨?_, hlines⟩⟩
  exact .code (List.cons_ne_nil _ _) (List.forall_mem_cons.mpr ⟨hk, hcode⟩)

/-- A comment with the end of its line behind it. -/
theorem WholeLines.comment {isDoc : Bool} {text : String} (h : RestOfLine (.newline :: ks)) :
    WholeLines ((if isDoc then .docComment text else .comment text) :: .newline :: ks) := by
  obtain ⟨code, rest, hks, hcode, lines, rfl, hlines⟩ := h
  cases code with
  | cons k code =>
    -- the end of a line is no code
    cases hks
    cases hcode _ List.mem_cons_self
  | nil =>
    cases hks
    cases isDoc with
    | true => exact ⟨[.docComment text, .newline] :: lines, rfl, List.forall_mem_cons.mpr ⟨.docComment text, hlines⟩⟩
    | false => exact ⟨[.comment text, .newline] :: lines, rfl, List.forall_mem_cons.mpr ⟨.comment text, hlines⟩⟩

def kinds (l : Layout) (cs : List Char) : List TokenKind := (l.tokens (Lexeme.all cs)).map Token.kind

theorem kinds_cons (l : Layout) (c : Char) (cs : List Char) : l.kinds (c :: cs) =
    (l.kindOf (Lexeme.first c cs).1.content).toList ++ (l.after (Lexeme.first c cs).1).kinds (Lexeme.first c cs).2 := by
  rw [kinds, kinds, Lexeme.all_cons, tokens, tokenOf]
  cases l.kindOf (Lexeme.first c cs).1.content <;> rfl

theorem after_of_none {l : Layout} {x : Lexeme} (h : l.kindOf x.content = none) :
    l.after x = ⟨l.offset + byteLength x.text, l.fresh, l.depth⟩ := by
  rw [after, h]

/-- At the end of a line that has been begun, there is a token for it. -/
theorem exists_kinds_newline (h : ∀ c ∈ cs.head?, c = '\n') (offset : Nat) :
    ∃ ks, kinds ⟨offset, false, 0⟩ cs = .newline :: ks := by
  cases cs with
  | nil => exact ⟨[.eof], rfl⟩
  | cons c cs =>
    rw [h c rfl, kinds, (Lexeme.tokens_feed offset cs).1]
    exact ⟨_, rfl⟩

/-- A token of code begins a line or goes on with it. -/
theorem code_step (l : Layout) (hk : (Lexeme.first c cs).1.content = .token k) :
    k.isCode = true ∧ l.kindOf (Lexeme.first c cs).1.content = some k ∧ l.after (Lexeme.first c cs).1 =
      ⟨l.offset + byteLength (Lexeme.first c cs).1.text, false, depthAfter l.depth k⟩ := by
  have hcode := Lexeme.isCode_first hk
  have hkind : l.kindOf (Lexeme.first c cs).1.content = some k := by
    rw [hk]
    rfl
  refine ⟨hcode, hkind, after_of_kindOf hkind ?_⟩
  rintro rfl
  cases hcode

/-- A comment at the start of a line has nothing but the end of the line behind it. -/
theorem comment_step (hc : Lexeme.first c cs = Lexeme.comment cs) (offset : Nat) :
    ∃ (isDoc : Bool) (text : String) (ks : List TokenKind),
      kindOf ⟨offset, true, 0⟩ (Lexeme.first c cs).1.content =
        some (if isDoc then .docComment text else .comment text) ∧
      after ⟨offset, true, 0⟩ (Lexeme.first c cs).1 =
        ⟨offset + byteLength (Lexeme.first c cs).1.text, false, 0⟩ ∧
      kinds ⟨offset + byteLength (Lexeme.first c cs).1.text, false, 0⟩ (Lexeme.first c cs).2 = .newline :: ks := by
  obtain ⟨isDoc, text, hcomment⟩ := Lexeme.content_comment cs
  have hkind : kindOf ⟨offset, true, 0⟩ (Lexeme.first c cs).1.content =
      some (if isDoc then .docComment text else .comment text) := by
    rw [hc, hcomment]
    simp [kindOf]
  have hafter := after_of_kindOf hkind (by cases isDoc <;> simp)
  have hdepth : depthAfter 0 (if isDoc then .docComment text else .comment text) = 0 := by
    cases isDoc <;> rfl
  rw [hdepth] at hafter
  -- a comment runs up to the next line feed or the end of the text
  have hends : ∀ d ∈ (Lexeme.first c cs).2.head?, d = '\n' := by
    intro d hd
    rw [hc, Lexeme.comment_rest] at hd
    simpa using Lexeme.stops_dropWhile (· != '\n') cs d hd
  obtain ⟨ks, hks⟩ := exists_kinds_newline hends (offset + byteLength (Lexeme.first c cs).1.text)
  exact ⟨isDoc, text, ks, hkind, hafter, hks⟩

/-- From the start of a line there are whole lines, and from within a line there is the rest of it before them. -/
theorem lines_kinds (cs : List Char) :
    (∀ offset, faults ⟨offset, true, 0⟩ (Lexeme.all cs) = [] → WholeLines (kinds ⟨offset, true, 0⟩ cs)) ∧
    (∀ offset depth, faults ⟨offset, false, depth⟩ (Lexeme.all cs) = [] →
      RestOfLine (kinds ⟨offset, false, depth⟩ cs)) := by
  -- the two states lead into each other, so both are carried by one induction on the lexemes
  induction cs using Lexeme.cut_induction with
  | nil =>
    have hnone : WholeLines [.eof] := ⟨[], rfl, nofun⟩
    exact ⟨fun _ _ => hnone, fun _ _ _ => ⟨[], [.eof], rfl, nofun, hnone⟩⟩
  | cons c cs ih =>
    obtain ⟨hwhole, hrest⟩ := ih
    constructor
    · intro offset hfaults
      rw [Lexeme.all_cons] at hfaults
      obtain ⟨hflaws, hfaults⟩ := faults_cons hfaults
      rw [kinds_cons]
      rcases Lexeme.first_of_flawless hflaws with ⟨-, hc⟩ | ⟨-, hc⟩ | ⟨-, hc⟩ | ⟨k, hk⟩
      · rw [hc] at hfaults hwhole ⊢
        exact hwhole _ hfaults
      · rw [hc] at hfaults hwhole ⊢
        exact hwhole _ hfaults
      · obtain ⟨isDoc, text, ks, hkind, hafter, hks⟩ := comment_step hc offset
        rw [hafter] at hfaults ⊢
        have hline := hrest _ _ hfaults
        rw [hks] at hline ⊢
        rw [hkind]
        exact .comment hline
      · obtain ⟨hcode, hkind, hafter⟩ := code_step ⟨offset, true, 0⟩ hk
        rw [hafter] at hfaults ⊢
        rw [hkind]
        exact .code hcode (hrest _ _ hfaults)
    · intro offset depth hfaults
      rw [Lexeme.all_cons] at hfaults
      obtain ⟨hflaws, hfaults⟩ := faults_cons hfaults
      rw [kinds_cons]
      rcases Lexeme.first_of_flawless hflaws with ⟨-, hc⟩ | ⟨-, hc⟩ | ⟨-, hc⟩ | ⟨k, hk⟩
      · rw [hc] at hfaults hrest ⊢
        exact hrest _ _ hfaults
      · rw [hc] at hfaults hwhole hrest ⊢
        -- a line feed ends the line only if no bracket is open
        cases depth with
        | zero => exact ⟨[], _, rfl, nofun, hwhole _ hfaults⟩
        | succ depth => exact hrest _ _ hfaults
      · obtain ⟨isDoc, text, hcomment⟩ := Lexeme.content_comment cs
        have hkind : kindOf ⟨offset, false, depth⟩ (Lexeme.first c cs).1.content = none := by
          rw [hc, hcomment]
          rfl
        rw [after_of_none hkind] at hfaults ⊢
        rw [hkind]
        exact hrest _ _ hfaults
      · obtain ⟨hcode, hkind, hafter⟩ := code_step ⟨offset, false, depth⟩ hk
        rw [hafter] at hfaults ⊢
        rw [hkind]
        exact (hrest _ _ hfaults).cons hcode

end Layout

/-! ## What follows what -/

/-- What the line structure says of two tokens one behind the other: the end of a line has no other behind it, and a
comment has nothing else behind it. -/
def TokenKind.Before (a b : TokenKind) : Prop :=
  (a = .newline → b ≠ .newline) ∧ (a.isCode = false → a ≠ .newline → b = .newline)

theorem isChain_code {code rest : List TokenKind} (hcode : ∀ k ∈ code, k.isCode = true)
    (hrest : rest.IsChain TokenKind.Before) : (code ++ rest).IsChain TokenKind.Before := by
  induction code with
  | nil => exact hrest
  | cons k code ih =>
    obtain ⟨hk, hcode⟩ := List.forall_mem_cons.mp hcode
    refine List.isChain_cons.mpr ⟨fun b _ => ⟨?_, ?_⟩, ih hcode⟩
    · rintro rfl
      cases hk
    · rw [hk]
      exact nofun

theorem Layout.WholeLines.isChain (h : WholeLines ks) : ks.head? ≠ some .newline ∧ ks.IsChain TokenKind.Before := by
  obtain ⟨lines, rfl, hlines⟩ := h
  induction lines with
  | nil => exact ⟨by simp, .singleton _⟩
  | cons line lines ih =>
    obtain ⟨hline, hlines⟩ := List.forall_mem_cons.mp hlines
    obtain ⟨hhead, hchain⟩ := ih hlines
    have hend : (TokenKind.newline :: (lines.flatten ++ [.eof])).IsChain TokenKind.Before := by
      refine List.isChain_cons.mpr ⟨fun b hb => ⟨fun _ hnewline => hhead ?_, fun _ hne => absurd rfl hne⟩, hchain⟩
      rw [← hnewline]
      exact hb
    rw [List.flatten_cons]
    cases hline with
    | comment text => exact ⟨by simp, .cons_cons ⟨nofun, fun _ _ => rfl⟩ hend⟩
    | docComment text => exact ⟨by simp, .cons_cons ⟨nofun, fun _ _ => rfl⟩ hend⟩
    | @code code hne hcode =>
      rw [List.append_assoc, List.append_assoc, List.singleton_append]
      refine ⟨?_, isChain_code hcode hend⟩
      obtain ⟨k, code, rfl⟩ := List.exists_cons_of_ne_nil hne
      intro hnewline
      cases hnewline
      cases hcode _ List.mem_cons_self

/-- Where a line ends, the end of a line can be read. -/
theorem Parse.exists_lineEnd_eq_ok {c : Cursor Arena} (h : c.peek.kind = .newline ∨ c.peek.kind = .eof) :
    ∃ c', Parse.lineEnd c = .ok () c' ∧ c'.kept = c.kept := by
  have haccept : Parse.accept .newline c =
      if c.peek.kind = .newline then .ok true c.advance else .ok false c := by
    change (if c.peek.kind = .newline then _ else _ : Reading Arena Bool) c = _
    split <;> rfl
  by_cases hnewline : c.peek.kind = .newline
  · rw [if_pos hnewline] at haccept
    refine ⟨c.advance, ?_, c.kept_advance⟩
    simp only [Parse.lineEnd, bind, EStateM.bind, haccept, if_true]
    rfl
  · rw [if_neg hnewline] at haccept
    refine ⟨c, ?_, rfl⟩
    simp only [Parse.lineEnd, bind, EStateM.bind, haccept]
    change (if c.peek.kind = .eof then _ else _ : Reading Arena Unit) c = _
    rw [if_pos (h.resolve_left hnewline)]
    rfl

/-- A comment is read, with the end of its line, and is entered under the next number. -/
theorem Node.exists_parseComment_eq_ok {c : Cursor Arena} {text : String}
    (h : c.advance.peek.kind = .newline ∨ c.advance.peek.kind = .eof) :
    ∃ c', Node.parseComment text c = .ok (.comment ⟨c.kept.size, c.peek.span⟩ text) c' := by
  obtain ⟨c', hend, hkept⟩ := Parse.exists_lineEnd_eq_ok h
  rw [c.kept_advance] at hkept
  refine ⟨{ c' with kept := c'.kept.push (.comment ⟨c.kept.size, c.peek.span⟩ text) }, ?_⟩
  change (Parse.lineEnd >>= fun _ => Parse.enter c.peek.span (.comment · text) id : Reading Arena _) c.advance = _
  rw [bind_of_ok hend, ← hkept]
  rfl

theorem wholeLines_of_lex {source : String} {toks : List Token} (h : lex source = .ok toks) :
    Layout.WholeLines (toks.map Token.kind) := by
  obtain ⟨hfaults, rfl⟩ := lex_eq_ok_iff.mp h
  exact (Layout.lines_kinds source.toList).1 0 hfaults

/-- The tokens of a text are lines and the end of the file. So the end of a line is never the first token, two of them
never meet, and wherever a reader of the tokens comes to a comment, it finds the end of the line behind it. -/
theorem lines_of_lex {source : String} {toks : List Token} (h : lex source = .ok toks) :
    (∃ lines : List (List TokenKind), toks.map Token.kind = lines.flatten ++ [.eof] ∧ ∀ line ∈ lines, IsLine line) ∧
    (∀ t ∈ toks.head?, t.kind ≠ .newline) ∧
    (toks.IsChain fun a b => a.kind = .newline → b.kind ≠ .newline) ∧
    ∀ (c : Cursor Arena) (text : String), c.rest <:+ toks → c.peek.kind = .comment text →
      ∃ c', Node.parseComment text c = .ok (.comment ⟨c.kept.size, c.peek.span⟩ text) c' := by
  have hwhole := wholeLines_of_lex h
  obtain ⟨hhead, hchain⟩ := hwhole.isChain
  rw [List.isChain_map] at hchain
  refine ⟨hwhole, ?_, hchain.imp fun _ _ hbefore => hbefore.1, ?_⟩
  · intro t ht hnewline
    rw [List.head?_map, Option.mem_def.mp ht, Option.map_some, hnewline] at hhead
    exact hhead rfl
  · intro c text hsuffix hcomment
    refine Node.exists_parseComment_eq_ok ?_
    have hmore := hchain.suffix hsuffix
    unfold Cursor.peek at hcomment
    cases hrest : c.rest with
    | nil =>
      rw [hrest] at hcomment
      cases hcomment
    | cons t rest =>
      rw [hrest] at hcomment hmore
      have hkind : t.kind = .comment text := hcomment
      have hadvance : c.advance.rest = rest := by simp [Cursor.advance, hrest, hkind]
      rw [Cursor.peek, hadvance]
      cases rest with
      | nil => exact .inr rfl
      | cons u rest =>
        have hbefore := (List.isChain_cons.mp hmore).1 u rfl
        rw [hkind] at hbefore
        exact .inl (hbefore.2 rfl (by simp))

/-- Empty lines, a list in brackets over several lines, a closing bracket too many, comments of all sorts, and a last
line without an end. -/
theorem lines_of_lex_layout :
    let source := "\n# a\n\nf(1, # b\n\n  2) ) # c\n## d\nend"
    let lines := [[.comment "a", .newline], [.ident "f", .lparen, .int 1, .comma, .int 2, .rparen, .rparen, .newline],
      [.docComment "d", .newline], [.keyword .endKw, .newline]]
    ∃ toks, lex source = .ok toks ∧ toks.map Token.kind = lines.flatten ++ [.eof] ∧
      (∃ lines : List (List TokenKind), toks.map Token.kind = lines.flatten ++ [.eof] ∧ ∀ line ∈ lines, IsLine line) ∧
      ∃ c', Node.parseComment "a" ⟨toks, .point 0, [], (#[] : Arena)⟩ = .ok (.comment ⟨0, ⟨1, 4⟩⟩ "a") c' := by
  intro source lines
  have hcheck : (lex source).toOption.any (fun toks => toks.map Token.kind == lines.flatten ++ [.eof] &&
      (Cursor.mk toks (.point 0) [] (#[] : Arena)).peek == ⟨.comment "a", ⟨1, 4⟩⟩) = true := by
    decide +kernel
  obtain ⟨toks, hlex, htoks⟩ := exists_ok_of_any hcheck
  rw [Bool.and_eq_true, beq_iff_eq, beq_iff_eq] at htoks
  obtain ⟨hkinds, hpeek⟩ := htoks
  obtain ⟨hlines, -, -, hcomment⟩ := lines_of_lex hlex
  have hread := hcomment ⟨toks, .point 0, [], #[]⟩ "a" List.suffix_rfl (by rw [hpeek])
  rw [hpeek] at hread
  exact ⟨toks, hlex, hkinds, hlines, hread⟩

end QiIdl
