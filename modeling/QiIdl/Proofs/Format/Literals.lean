import QiIdl.Format.Canonical
import QiIdl.Proofs.Bind
import QiIdl.Proofs.Token.Alone

/-!
# Numbers as they are written

A number can be spelled in many ways: in decimal or hexadecimal digits, with gaps between them, with a fraction and an
exponent. The canonical form has one way for each value, and it is read as that value again.

The one exception is a literal that is too large for a double. It is read as infinity, for which there is no literal:
what is written, `inf`, is a name.
-/

namespace QiIdl

theorem Lexeme.ends_nil : Ends [] := rfl

theorem Lexeme.spells_infinity : Spells [] Binary64.infinity.text.toList (.ident "inf") := ⟨'i', ['n', 'f'], rfl, rfl⟩

/-- Whatever a number is spelled like in a text, its canonical form is read as one token with the same value. Only what
is written for a literal that is too large is read as a name. -/
theorem lex_canonical_of_number {source : String} {toks : List Token} (h : lex source = .ok toks) {t : Token}
    (ht : t ∈ toks) :
    (∀ value, t.kind = .int value → lex (Literal.int t.span value).canonical =
      .ok (loneTokens (.int value) (Literal.int t.span value).canonical.utf8ByteSize)) ∧
    ∀ value, t.kind = .float value → lex (Literal.float t.span value).canonical =
      .ok (loneTokens (if value = .infinity then .ident "inf" else .float value)
        (Literal.float t.span value).canonical.utf8ByteSize) := by
  have hclean := clean_of_mem_lex h t ht
  constructor
  · intro value hkind
    rw [hkind] at hclean
    exact lex_of_spells (.int hclean Lexeme.ends_nil) (by simp)
  · intro value hkind
    rw [hkind] at hclean
    cases hvalue : value.isInfinite with
    | true =>
      obtain rfl := hclean.eq_infinity hvalue
      exact lex_of_spells Lexeme.spells_infinity (by simp)
    | false =>
      have hfinite : value ≠ .infinity := by
        rintro rfl
        cases hvalue
      rw [if_neg hfinite]
      exact lex_of_spells (.float hvalue Lexeme.ends_nil) (by simp)

/-- A hexadecimal number, one with a fraction and an exponent, and one that is too large. -/
theorem lex_canonical_of_number_row :
    let source := "0xf_F 1_0.50e-3 1e999"
    let fine := Binary64.ofDecimal 105 (-4)
    ∃ toks, lex source = .ok toks ∧
      (∃ t ∈ toks, t.kind = .int 255 ∧ lex (Literal.int t.span 255).canonical = .ok (loneTokens (.int 255) 3)) ∧
      (∃ t ∈ toks, t.kind = .float fine ∧
        lex (Literal.float t.span fine).canonical = .ok (loneTokens (.float fine) 6)) ∧
      ∃ t ∈ toks, t.kind = .float .infinity ∧
        lex (Literal.float t.span .infinity).canonical = .ok (loneTokens (.ident "inf") 3) := by
  intro source fine
  have hkinds : (lex source).toOption.any (fun toks =>
      toks.map Token.kind == [.int 255, .float fine, .float .infinity, .newline, .eof]) = true := by
    decide +kernel
  obtain ⟨toks, hlex, hkinds⟩ := exists_ok_of_any hkinds
  have hkinds := beq_iff_eq.mp hkinds
  have hread (k : TokenKind) (hk : k ∈ [.int 255, .float fine, .float .infinity]) : ∃ t ∈ toks, t.kind = k := by
    have hmem : k ∈ toks.map Token.kind := by
      rw [hkinds]
      exact List.mem_append_left [.newline, .eof] hk
    exact List.mem_map.mp hmem
  obtain ⟨t₁, ht₁, hk₁⟩ := hread (.int 255) (by simp)
  obtain ⟨t₂, ht₂, hk₂⟩ := hread (.float fine) (by simp)
  obtain ⟨t₃, ht₃, hk₃⟩ := hread (.float .infinity) (by simp)
  refine ⟨toks, hlex, ⟨t₁, ht₁, hk₁, ?_⟩, ⟨t₂, ht₂, hk₂, ?_⟩, t₃, ht₃, hk₃, ?_⟩
  · exact (lex_canonical_of_number hlex ht₁).1 255 hk₁
  · have hsize : (Literal.float t₂.span fine).canonical.utf8ByteSize = 6 := by
      show fine.text.utf8ByteSize = 6
      decide +kernel
    have hfinite : fine ≠ .infinity := by decide +kernel
    have hlone := (lex_canonical_of_number hlex ht₂).2 fine hk₂
    rwa [hsize, if_neg hfinite] at hlone
  · exact (lex_canonical_of_number hlex ht₃).2 .infinity hk₃

end QiIdl
