import QiIdl.Proofs.Token.Numbers

/-!
# Texts made of lines

A canonical text is a sequence of lines, and each of them starts with no bracket open. `Lines cs ks` says that
the lines `cs` become tokens of the kinds `ks`, whatever follows them and wherever they stand. Lines are put
together by `Lines.append`, so a text is read line by line, and a line is read by `Reads`: the blanks of its
margin vanish, its brackets are balanced, and the line feed ends it.
-/

namespace QiIdl

/-! ## Brackets -/

/-- The tokens open as many brackets as they close, wherever they stand. -/
def Balanced (ks : List TokenKind) : Prop := ∀ depth, ks.foldl Layout.depthAfter depth = depth

namespace Balanced

variable {ks js : List TokenKind} {k : TokenKind}

theorem nil : Balanced [] := fun _ => rfl

/-- A token that is no bracket inside of brackets is none anywhere. -/
theorem single (h : Layout.depthAfter 1 k = 1) : Balanced [k] := by
  intro depth
  cases k <;> first | rfl | cases h

theorem append_iff (hk : Balanced ks) : Balanced (ks ++ js) ↔ Balanced js := by
  simp only [Balanced, List.foldl_append, hk _]

theorem append (hk : Balanced ks) (hj : Balanced js) : Balanced (ks ++ js) := (append_iff hk).mpr hj

theorem cons (h : Layout.depthAfter 1 k = 1) (hj : Balanced js) : Balanced (k :: js) := (single h).append hj

/-- Balanced tokens between an opening and a closing bracket. -/
theorem enclose {o c : TokenKind} (ho : ∀ depth, Layout.depthAfter depth o = depth + 1)
    (hc : ∀ depth, Layout.depthAfter depth c = depth - 1) (hk : Balanced ks) : Balanced (o :: (ks ++ [c])) := by
  intro depth
  rw [List.foldl_cons, ho, List.foldl_append, hk, List.foldl_cons, hc, List.foldl_nil, Nat.add_sub_cancel]

theorem parens (hk : Balanced ks) : Balanced (.lparen :: (ks ++ [.rparen])) :=
  enclose (fun _ => rfl) (fun _ => rfl) hk

theorem brackets (hk : Balanced ks) : Balanced (.lbracket :: (ks ++ [.rbracket])) :=
  enclose (fun _ => rfl) (fun _ => rfl) hk

theorem braces (hk : Balanced ks) : Balanced (.lbrace :: (ks ++ [.rbrace])) :=
  enclose (fun _ => rfl) (fun _ => rfl) hk

theorem intercalate (h : Layout.depthAfter 1 k = 1) {kss : List (List TokenKind)}
    (hkss : ∀ ks ∈ kss, Balanced ks) : Balanced ([k].intercalate kss) := by
  induction kss with
  | nil => exact nil
  | cons ks kss ih =>
    cases kss with
    | nil =>
      rw [List.intercalate_singleton]
      exact hkss ks (by simp)
    | cons js kss =>
      rw [List.intercalate_cons_cons]
      exact ((hkss ks (by simp)).append (single h)).append (ih fun ks hks => hkss ks (by simp_all))

end Balanced

namespace Lexeme

variable {text rest cs : List Char} {ks : List TokenKind}

/-! ## The layout behind some tokens -/

/-- What `Reads` means for the tokens and the faults of a text. -/
theorem Reads.tokens (h : Reads rest cs ks) (l : Layout) : ∃ toks offset,
    toks.map Token.kind = ks ∧
    l.tokens (all (cs ++ rest)) =
      toks ++ Layout.tokens ⟨offset, ks.isEmpty && l.fresh, ks.foldl Layout.depthAfter l.depth⟩ (all rest) ∧
    l.faults (all (cs ++ rest)) =
      Layout.faults ⟨offset, ks.isEmpty && l.fresh, ks.foldl Layout.depthAfter l.depth⟩ (all rest) := by
  induction h generalizing l with
  | nil => exact ⟨[], l.offset, rfl, by simp, by simp⟩
  | @gap c cs ks hgap _ ih =>
    obtain ⟨toks, offset, hkinds, htokens, hfaults⟩ := ih { l with offset := l.offset + byteLength [c] }
    have hfirst : first c (cs ++ rest) = (⟨[c], .blank, []⟩, cs ++ rest) := by simp [first, hgap]
    refine ⟨toks, offset, hkinds, ?_, ?_⟩
    · rw [List.cons_append, all_cons, hfirst, Layout.tokens, ← htokens]
      rfl
    · rw [List.cons_append, all_cons, hfirst, Layout.faults, ← hfaults]
      rfl
  | @token c text cs k ks hk hfirst _ ih =>
    obtain ⟨toks, offset, hkinds, htokens, hfaults⟩ :=
      ih ⟨l.offset + byteLength (c :: text), false, Layout.depthAfter l.depth k⟩
    have hafter : l.after (ofToken (c :: text) k) =
        ⟨l.offset + byteLength (c :: text), false, Layout.depthAfter l.depth k⟩ := by
      simp only [Layout.after, Layout.kindOf, ofToken]
    refine ⟨⟨k, l.spanOf (ofToken (c :: text) k)⟩ :: toks, offset, by simp [hkinds], ?_, ?_⟩
    · rw [List.cons_append, List.append_assoc, all_cons, hfirst, Layout.tokens, hafter, htokens]
      simp [Layout.tokenOf, Layout.kindOf, ofToken]
    · rw [List.cons_append, List.append_assoc, all_cons, hfirst, Layout.faults, hafter, hfaults]
      simp [Layout.faultsOf, ofToken]

/-! ## Lines -/

/-- Lines become tokens of some kinds, without faults, and leave the start of a line behind them. -/
def Lines (cs : List Char) (ks : List TokenKind) : Prop :=
  ∀ (offset : Nat) (rest : List Char), ∃ toks next, toks.map Token.kind = ks ∧
    Layout.tokens ⟨offset, true, 0⟩ (all (cs ++ rest)) = toks ++ Layout.tokens ⟨next, true, 0⟩ (all rest) ∧
    Layout.faults ⟨offset, true, 0⟩ (all (cs ++ rest)) = Layout.faults ⟨next, true, 0⟩ (all rest)

theorem Lines.nil : Lines [] [] := fun offset _ => ⟨[], offset, rfl, rfl, rfl⟩

theorem Lines.append {ds : List Char} {js : List TokenKind} (hc : Lines cs ks) (hd : Lines ds js) :
    Lines (cs ++ ds) (ks ++ js) := by
  intro offset rest
  obtain ⟨toks, next, hkinds, htokens, hfaults⟩ := hc offset (ds ++ rest)
  obtain ⟨toks', next', hkinds', htokens', hfaults'⟩ := hd next rest
  refine ⟨toks ++ toks', next', by simp [hkinds, hkinds'], ?_, ?_⟩
  · rw [List.append_assoc, htokens, htokens', List.append_assoc]
  · rw [List.append_assoc, hfaults, hfaults']

theorem first_feed (cs : List Char) : first '\n' cs = (⟨['\n'], .feed, []⟩, cs) := by
  simp [first, isGap]

/-- An empty line. -/
theorem Lines.empty : Lines ['\n'] [] := by
  intro offset rest
  refine ⟨[], offset + byteLength ['\n'], rfl, ?_, ?_⟩
  · rw [List.singleton_append, all_cons, first_feed]
    rfl
  · rw [List.singleton_append, all_cons, first_feed]
    rfl

/-- The line feed behind a token. -/
theorem tokens_feed (offset : Nat) (rest : List Char) :
    Layout.tokens ⟨offset, false, 0⟩ (all ('\n' :: rest)) =
      ⟨.newline, ⟨offset, offset + byteLength ['\n']⟩⟩ ::
        Layout.tokens ⟨offset + byteLength ['\n'], true, 0⟩ (all rest) ∧
    Layout.faults ⟨offset, false, 0⟩ (all ('\n' :: rest)) =
      Layout.faults ⟨offset + byteLength ['\n'], true, 0⟩ (all rest) := by
  rw [all_cons, first_feed]
  exact ⟨rfl, rfl⟩

theorem reads_margin (n : Nat) (rest : List Char) : Reads rest (List.replicate n ' ') [] := by
  induction n with
  | zero => exact .nil
  | succ n ih => exact .gap rfl ih

/-- A line of tokens behind its margin. -/
theorem Lines.code (h : ∀ rest, Reads ('\n' :: rest) cs ks) (hne : ks ≠ []) (hb : Balanced ks) (margin : Nat) :
    Lines (List.replicate margin ' ' ++ cs ++ ['\n']) (ks ++ [.newline]) := by
  intro offset rest
  have hread := (reads_margin margin (cs ++ '\n' :: rest)).append (h rest)
  obtain ⟨toks, next, hkinds, htokens, hfaults⟩ := hread.tokens ⟨offset, true, 0⟩
  have hempty : ks.isEmpty = false := by simpa using hne
  rw [List.nil_append, hempty, Bool.false_and, hb] at htokens hfaults
  obtain ⟨hfeed, hfeed'⟩ := tokens_feed next rest
  refine ⟨toks ++ [⟨.newline, ⟨next, next + byteLength ['\n']⟩⟩], next + byteLength ['\n'], by simp [hkinds], ?_, ?_⟩
  · rw [List.append_assoc, List.singleton_append, htokens, hfeed, List.append_assoc, List.singleton_append]
  · rw [List.append_assoc, List.singleton_append, hfaults, hfeed']

/-! ## Comments -/

/-- A text that a comment can hold: it stays on its line and does not end in a carriage return. -/
structure IsRemark (text : List Char) : Prop where
  feed : '\n' ∉ text
  last : text.getLast? ≠ some '\r'

theorem commentText_space (h : IsRemark text) : commentText (' ' :: text) = String.ofList text := by
  have hdrop : ((' ' :: text).reverse.dropWhile (· == '\r')).reverse = ' ' :: text := by
    have hhead : ∀ c ∈ (' ' :: text).reverse.head?, (c == '\r') = false := by
      intro c hc
      rw [List.head?_reverse, List.getLast?_cons, Option.mem_some_iff] at hc
      cases hlast : text.getLast? with
      | none =>
        rw [hlast] at hc
        rw [← hc]
        decide
      | some d =>
        rw [hlast] at hc
        have hd : d ≠ '\r' := fun hd => h.last (by rw [hlast, hd])
        rw [← hc]
        simpa using hd
    cases hrev : (' ' :: text).reverse with
    | nil => simp at hrev
    | cons c cs =>
      rw [hrev] at hhead
      rw [List.dropWhile_cons, hhead c rfl, if_neg (by simp), ← hrev, List.reverse_reverse]
  rw [commentText, hdrop]
  rfl

theorem stops_feed (rest : List Char) : Stops (· != '\n') ('\n' :: rest) := by
  intro c hc
  cases hc
  rfl

/-- What stands behind the first sign of a comment, up to the end of its line. -/
theorem comment_append {body : List Char} (h : '\n' ∉ body) (rest : List Char) :
    (body ++ '\n' :: rest).takeWhile (· != '\n') = body ∧
      (body ++ '\n' :: rest).dropWhile (· != '\n') = '\n' :: rest := by
  have hall : ∀ c ∈ body, (c != '\n') = true := fun c hc => bne_iff_ne.mpr fun he => h (he ▸ hc)
  exact ⟨takeWhile_append_of_stops hall (stops_feed rest), dropWhile_append_of_stops hall (stops_feed rest)⟩

theorem first_hash (cs : List Char) : first '#' cs = comment cs := by
  simp [first, isGap]

/-- A comment behind its margin, where the lexeme is known. -/
theorem Lines.remark {body : List Char} (isDoc : Bool) {text : String}
    (h : ∀ rest, first '#' (body ++ '\n' :: rest) = (⟨'#' :: body, .comment isDoc text, []⟩, '\n' :: rest))
    (margin : Nat) : Lines (List.replicate margin ' ' ++ '#' :: body ++ ['\n'])
      [if isDoc then .docComment text else .comment text, .newline] := by
  intro offset rest
  obtain ⟨toks, next, hkinds, htokens, hfaults⟩ :=
    (reads_margin margin ('#' :: (body ++ '\n' :: rest))).tokens ⟨offset, true, 0⟩
  rw [List.map_eq_nil_iff] at hkinds
  subst hkinds
  rw [all_cons, h] at htokens hfaults
  obtain ⟨hfeed, hfeed'⟩ := tokens_feed (next + byteLength ('#' :: body)) rest
  have htext : List.replicate margin ' ' ++ '#' :: body ++ ['\n'] ++ rest =
      List.replicate margin ' ' ++ '#' :: (body ++ '\n' :: rest) := by simp
  refine ⟨[⟨if isDoc then .docComment text else .comment text, ⟨next, next + byteLength ('#' :: body)⟩⟩,
    ⟨.newline, ⟨next + byteLength ('#' :: body), next + byteLength ('#' :: body) + byteLength ['\n']⟩⟩],
    next + byteLength ('#' :: body) + byteLength ['\n'], rfl, ?_, ?_⟩
  · rw [htext, htokens, List.nil_append, Layout.tokens]
    cases isDoc <;> exact congrArg (List.cons _) hfeed
  · rw [htext, hfaults]
    cases isDoc <;> exact hfeed'

/-- A plain comment behind its margin. -/
theorem Lines.comment (h : IsRemark text) (margin : Nat) :
    Lines (List.replicate margin ' ' ++ '#' :: ' ' :: text ++ ['\n']) [.comment (String.ofList text), .newline] := by
  refine Lines.remark false (fun rest => ?_) margin
  obtain ⟨htake, hdrop⟩ := comment_append (show '\n' ∉ ' ' :: text by simp [h.feed]) rest
  rw [first_hash, Lexeme.comment, htake, hdrop, ← commentText_space h]
  rfl

/-- A line of documentation behind its margin. -/
theorem Lines.docComment (h : IsRemark text) (margin : Nat) :
    Lines (List.replicate margin ' ' ++ '#' :: '#' :: ' ' :: text ++ ['\n'])
      [.docComment (String.ofList text), .newline] := by
  refine Lines.remark true (fun rest => ?_) margin
  obtain ⟨htake, hdrop⟩ := comment_append (show '\n' ∉ '#' :: ' ' :: text by simp [h.feed]) rest
  rw [first_hash, Lexeme.comment, htake, hdrop, ← commentText_space h]
  rfl

end Lexeme

/-- A text of lines is read without faults, line by line up to the end. -/
theorem lex_of_lines {source : String} {ks : List TokenKind} (h : Lexeme.Lines source.toList ks) :
    ∃ toks, lex source = .ok toks ∧ toks.map Token.kind = ks ++ [.eof] := by
  obtain ⟨toks, next, hkinds, htokens, hfaults⟩ := h 0 []
  rw [List.append_nil] at htokens hfaults
  refine ⟨toks ++ [⟨.eof, .point next⟩], ?_, by simp [hkinds]⟩
  have hnone : Layout.start.faults (Lexeme.all source.toList) = [] := hfaults
  have hall : Layout.start.tokens (Lexeme.all source.toList) = toks ++ [⟨.eof, .point next⟩] := htokens
  simp only [lex, hnone, hall]

end QiIdl
