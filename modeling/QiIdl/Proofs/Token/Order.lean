import QiIdl.Proofs.Token.Clean

/-!
# The order of tokens

The tokens of a text stand one behind the other, in the order of the text. Lexemes are not empty, so of the tokens
only the ends of the last line and of the file can be, and the end of the file is the last token (`ordered_of_lex`).
-/

namespace QiIdl

/-- Tokens stand one behind the other, and none but the ends of lines and files is empty. The end of the file has
nothing behind it. -/
structure Ordered (toks : List Token) : Prop where
  apart : toks.Pairwise fun a b => a.span.stop ≤ b.span.start
  forward : ∀ t ∈ toks, t.span.start ≤ t.span.stop
  filled : ∀ t ∈ toks, t.kind ≠ .newline → t.kind ≠ .eof → t.span.start < t.span.stop
  ending : toks.Pairwise fun a _ => a.kind ≠ .eof

/-! ## Lexemes -/

/-- No characters spell the end of the file. -/
theorem Lexeme.content_first_ne_eof (c : Char) (cs : List Char) : (first c cs).1.content ≠ .token .eof :=
  fun h => nomatch isCode_first h

theorem byteLength_pos {cs : List Char} (h : cs ≠ []) : 0 < byteLength cs := by
  obtain ⟨c, cs, rfl⟩ := List.exists_cons_of_ne_nil h
  have hsize := c.utf8Size_pos
  rw [byteLength]
  omega

/-! ## Tokens -/

namespace Layout

theorem offset_after (l : Layout) (x : Lexeme) : (l.after x).offset = l.offset + byteLength x.text := by
  unfold after
  dsimp only
  split <;> rfl

theorem kindOf_ne_eof {l : Layout} {content : LexemeContent} (h : content ≠ .token .eof) :
    l.kindOf content ≠ some .eof := by
  cases content with
  | blank | nothing => nofun
  | feed => simp [kindOf]
  | comment isDoc text => cases isDoc <;> simp [kindOf]
  | token kind =>
    intro hkind
    cases hkind
    exact h rfl

/-- Tokens stand behind what has been read, one behind the other. -/
theorem ordered_tokens {xs : List Lexeme} (h : ∀ x ∈ xs, x.text ≠ [] ∧ x.content ≠ .token .eof) (l : Layout) :
    Ordered (l.tokens xs) ∧ ∀ t ∈ l.tokens xs, l.offset ≤ t.span.start := by
  induction xs generalizing l with
  | nil =>
    unfold tokens
    dsimp only
    split
    · refine ⟨⟨?_, ?_, ?_, ?_⟩, ?_⟩ <;> simp [Span.point]
    · refine ⟨⟨?_, ?_, ?_, ?_⟩, ?_⟩ <;> simp [Span.point]
  | cons x xs ih =>
    obtain ⟨⟨htext, hcontent⟩, hxs⟩ := List.forall_mem_cons.mp h
    obtain ⟨hordered, hbehind⟩ := ih hxs (l.after x)
    rw [offset_after] at hbehind
    have hpos := byteLength_pos htext
    rw [tokens, tokenOf]
    cases hkind : l.kindOf x.content with
    | none =>
      refine ⟨hordered, fun t ht => ?_⟩
      have := hbehind t ht
      omega
    | some kind =>
      have hkind : kind ≠ .eof := fun heof => kindOf_ne_eof hcontent (heof ▸ hkind)
      rw [List.singleton_append]
      refine ⟨⟨?_, ?_, ?_, ?_⟩, ?_⟩
      · exact List.pairwise_cons.mpr ⟨hbehind, hordered.apart⟩
      · exact List.forall_mem_cons.mpr ⟨Nat.le_add_right _ _, hordered.forward⟩
      · exact List.forall_mem_cons.mpr ⟨fun _ _ => Nat.lt_add_of_pos_right hpos, hordered.filled⟩
      · exact List.pairwise_cons.mpr ⟨fun _ _ => hkind, hordered.ending⟩
      · refine List.forall_mem_cons.mpr ⟨Nat.le_refl _, fun t ht => ?_⟩
        have := hbehind t ht
        omega

end Layout

/-- The tokens of a text are ordered. -/
theorem ordered_of_lex {source : String} {toks : List Token} (h : lex source = .ok toks) : Ordered toks := by
  obtain ⟨-, rfl⟩ := lex_eq_ok_iff.mp h
  refine (Layout.ordered_tokens (Lexeme.forall_mem_all (fun c cs => ?_) _) _).1
  exact ⟨Lexeme.first_text_ne_nil c cs, Lexeme.content_first_ne_eof c cs⟩

/-- Behind the end of the file there is nothing. -/
theorem Ordered.eq_nil_of_eof {before after : List Token} {t : Token} (h : Ordered (before ++ t :: after))
    (ht : t.kind = .eof) : after = [] := by
  have hending := (List.pairwise_append.mp h.ending).2.1
  cases after with
  | nil => rfl
  | cons u after => exact absurd ht ((List.pairwise_cons.mp hending).1 u List.mem_cons_self)

end QiIdl
