import QiIdl.Proofs.Grammar.Climbing
import QiIdl.Proofs.Grammar.ReadBack.Types

/-!
# Values are read back

The tokens of a canonical literal or expression are read as that literal or expression, up to tags.

An expression asks something of what follows it: an index bracket would be taken, and so would a dot or an
opening bracket behind a name (`Expr.Follows`), and an operator. Inside a canonical expression none of these
follows. It is the one thing that has to be seen to where two values stand side by side.
-/

namespace QiIdl

open Takes

variable {α : Type} {next : List TokenKind}

theorem TokenKind.ne_of_startsOperand {k k' : TokenKind} (h : k.startsOperand = true)
    (h' : k'.startsOperand = false) : k ≠ k' := by
  rintro rfl
  rw [h] at h'
  cases h'

/-! ## Tokens of a canonical form -/

section Lists

variable {ι β δ : Type} {kinds : ι → List TokenKind} {D : List Token → β → Prop} {seen : β → δ} {meant : ι → δ}
  {ts : List Token}

/-- Tokens in brackets. -/
theorem exists_bracketed {o c : TokenKind} {ks : List TokenKind} (h : ts.map Token.kind = o :: (ks ++ [c])) :
    ∃ l inner r, ts = l :: inner ++ [r] ∧ l.kind = o ∧ inner.map Token.kind = ks ∧ r.kind = c := by
  obtain ⟨l, rest, rfl, hl, hrest⟩ := List.map_eq_cons_iff.mp h
  obtain ⟨inner, last, rfl, hinner, hlast⟩ := List.map_eq_append_iff.mp hrest
  obtain ⟨r, rfl, hr⟩ := List.map_eq_singleton_iff.mp hlast
  exact ⟨l, inner, r, rfl, hl, hinner, hr⟩

/-- Tokens with one of some kind among them. -/
theorem exists_between {k : TokenKind} {ks js : List TokenKind} (h : ts.map Token.kind = ks ++ k :: js) :
    ∃ ls o rs, ts = ls ++ o :: rs ∧ ls.map Token.kind = ks ∧ o.kind = k ∧ rs.map Token.kind = js := by
  obtain ⟨ls, rest, rfl, hls, hrest⟩ := List.map_eq_append_iff.mp h
  obtain ⟨o, rs, rfl, ho, hrs⟩ := List.map_eq_cons_iff.mp hrest
  exact ⟨ls, o, rs, rfl, hls, ho, hrs⟩

/-- The tokens of items with commas between them are cut into the tokens of the items. -/
theorem exists_joined : ∀ (items : List ι), items ≠ [] →
    (∀ i ∈ items, ∀ ts, ts.map Token.kind = kinds i → ∃ b, D ts b ∧ seen b = meant i) →
    ∀ {ts : List Token}, ts.map Token.kind = commaKinds (items.map kinds) →
    ∃ parts : List (List Token × β), (∀ p ∈ parts, D p.1 p.2) ∧ Joined (parts.map Prod.fst) ts ∧
      (parts.map Prod.snd).map seen = items.map meant
  | [], hne, _, _, _ => absurd rfl hne
  | [i], _, hitem, ts, h => by
    rw [List.map_singleton, commaKinds_singleton] at h
    obtain ⟨b, hb, hseen⟩ := hitem i (by simp) ts h
    exact ⟨[(ts, b)], by simpa using hb, .single ts, by simp [hseen]⟩
  | i :: j :: items, _, hitem, ts, h => by
    rw [List.map_cons, List.map_cons, commaKinds_cons_cons, ← List.map_cons] at h
    obtain ⟨ls, o, rs, rfl, hls, ho, hrs⟩ := exists_between h
    obtain ⟨b, hb, hseen⟩ := hitem i (by simp) ls hls
    obtain ⟨parts, hparts, hjoined, hmap⟩ := exists_joined (j :: items) (by simp)
      (fun k hk => hitem k (List.mem_cons_of_mem i hk)) hrs
    exact ⟨(ls, b) :: parts, List.forall_mem_cons.mpr ⟨hb, hparts⟩, .cons ho hjoined, by simp [hseen, hmap]⟩

theorem Joined.listed {parts : List (List Token)} (h : Joined parts ts) : Listed parts ts := by
  induction h with
  | single ts => exact .single ts
  | cons hcomma _ ih => exact .cons hcomma ih

theorem exists_listed (items : List ι)
    (hitem : ∀ i ∈ items, ∀ ts, ts.map Token.kind = kinds i → ∃ b, D ts b ∧ seen b = meant i)
    (h : ts.map Token.kind = commaKinds (items.map kinds)) :
    ∃ parts : List (List Token × β), (∀ p ∈ parts, D p.1 p.2) ∧ Listed (parts.map Prod.fst) ts ∧
      (parts.map Prod.snd).map seen = items.map meant := by
  by_cases hne : items = []
  · subst hne
    obtain rfl := List.map_eq_nil_iff.mp h
    exact ⟨[], by simp, .nil, rfl⟩
  · obtain ⟨parts, hparts, hjoined, hmap⟩ := exists_joined items hne hitem h
    exact ⟨parts, hparts, hjoined.listed, hmap⟩

/-- The tokens of a name are that name: the reader of names takes them all. -/
theorem dotted_of_kinds {name : String} (h : ts.map Token.kind = dottedKinds name) : Dotted ts name := by
  have hdot : headKind [] ≠ .dot := nofun
  obtain ⟨b, last, _, hok, rfl⟩ := Takes.dottedName (σ := Unit) "name" name hdot ts [] (.point 0) [] () h rfl
  obtain ⟨us, hreads, hdotted, -⟩ := (Parse.recognizes_dottedName _ _ _ (Nat.le_refl _) _ _).mp hok
  have hts : ts = us := List.append_cancel_right hreads.rest
  exact hts ▸ hdotted

end Lists

/-! ## Literals -/

/-- A comma behind the first item is there in any case. -/
theorem Literal.kinds_tuple_cons (tag : α) (item : Literal α) (items : List (Literal α)) :
    (Literal.tuple tag (item :: items)).kinds =
      .lparen :: (item.kinds ++ .comma :: (commaKinds (items.map kinds) ++ [.rparen])) := by
  cases items with
  | nil => rfl
  | cons second items =>
    rw [kinds, kindsAll_eq_map, List.map_cons, List.map_cons, commaKinds_cons_cons, List.append_assoc]
    · rfl
    · simp

/-- Tokens are a literal that is the same but for tags, where literals and where expressions are read. -/
structure Literal.DerivesAs (l : Literal α) (ts : List Token) (l' : Literal Span) : Prop where
  derives : Derives ts l'
  expr : Expr.Derives 11 ts (.ofLiteral l')
  erase : l'.erase = l.erase

/-- No bracket opens here that might group. -/
theorem Literal.DerivesAs.plain {l : Literal α} {t : Token} {ts : List Token} {l' : Literal Span}
    (h : Derives (t :: ts) l') (hkind : t.kind ≠ .lparen) (herase : l'.erase = l.erase) : l.DerivesAs (t :: ts) l' :=
  ⟨h, .literal h (by simpa using hkind), herase⟩

/-- The tokens of a canonical literal are that literal. -/
theorem Literal.exists_derives : ∀ (l : Literal α) {ts : List Token}, ts.map Token.kind = l.kinds →
    ∃ l', l.DerivesAs ts l'
  | .bool _ true, ts, h => by
    obtain ⟨t, rfl, ht⟩ := List.map_eq_singleton_iff.mp h
    exact ⟨_, .plain (.true ht) (by simp [ht]) rfl⟩
  | .bool _ false, ts, h => by
    obtain ⟨t, rfl, ht⟩ := List.map_eq_singleton_iff.mp h
    exact ⟨_, .plain (.false ht) (by simp [ht]) rfl⟩
  | .int _ value, ts, h => by
    obtain ⟨t, rfl, ht⟩ := List.map_eq_singleton_iff.mp h
    exact ⟨_, .plain (.int ht) (by simp [ht]) rfl⟩
  | .float _ value, ts, h => by
    obtain ⟨t, rfl, ht⟩ := List.map_eq_singleton_iff.mp h
    exact ⟨_, .plain (.float ht) (by simp [ht]) rfl⟩
  | .string _ value, ts, h => by
    obtain ⟨t, rfl, ht⟩ := List.map_eq_singleton_iff.mp h
    exact ⟨_, .plain (.string ht) (by simp [ht]) rfl⟩
  | .list _ items, ts, h => by
    rw [kinds, kindsAll_eq_map] at h
    obtain ⟨l, inner, r, rfl, hl, hinner, hr⟩ := exists_bracketed h
    have hitem : ∀ item ∈ items, ∀ ts, ts.map Token.kind = item.kinds → ∃ l', Derives ts l' ∧ l'.erase = item.erase := by
      intro item hmem ts h
      obtain ⟨l', h'⟩ := item.exists_derives h
      exact ⟨l', h'.derives, h'.erase⟩
    obtain ⟨parts, hparts, hlisted, hmap⟩ := exists_listed items hitem hinner
    refine ⟨_, .plain (.list parts hl hparts hlisted hr) (by simp [hl]) ?_⟩
    simp only [erase, eraseAll_eq_map, hmap]
  | .tuple _ [], ts, h => by
    have hkinds : ts.map Token.kind = .lparen :: ([] ++ [.rparen]) := h
    obtain ⟨l, inner, r, rfl, hl, hinner, hr⟩ := exists_bracketed hkinds
    obtain rfl := List.map_eq_nil_iff.mp hinner
    exact ⟨_, .tuple [] hl (by simp) .nil hr, .unit hl hr, rfl⟩
  | .tuple tag (item :: items), ts, h => by
    have hkinds : ts.map Token.kind =
        .lparen :: (item.kinds ++ .comma :: commaKinds (items.map kinds) ++ [.rparen]) := by
      rw [h, kinds_tuple_cons, List.append_assoc, List.cons_append]
    obtain ⟨l, inner, r, rfl, hl, hinner, hr⟩ := exists_bracketed hkinds
    obtain ⟨us, comma, rest, rfl, hus, hcomma, hrest⟩ := exists_between hinner
    obtain ⟨first, hfirst⟩ := item.exists_derives hus
    have hitem : ∀ item ∈ items, ∀ ts, ts.map Token.kind = item.kinds →
        ∃ l', (Derives ts l' ∧ Expr.Derives 0 ts (.ofLiteral l')) ∧ l'.erase = item.erase := by
      intro item hmem ts h
      obtain ⟨l', h'⟩ := item.exists_derives h
      exact ⟨l', ⟨h'.derives, h'.expr.loosen (Nat.zero_le _)⟩, h'.erase⟩
    obtain ⟨parts, hparts, hlisted, hmap⟩ := exists_listed items hitem hrest
    refine ⟨_, .tuple ((us, first) :: parts) hl ?_ (.cons hcomma hlisted) hr,
      .tuple parts hl (hfirst.expr.loosen (Nat.zero_le _)) hcomma (fun p hp => (hparts p hp).2) hlisted hr, ?_⟩
    · exact List.forall_mem_cons.mpr ⟨hfirst.derives, fun p hp => (hparts p hp).1⟩
    · simp only [erase, eraseAll_eq_map, List.map_cons, hfirst.erase, hmap]
  | .dict _ entries, ts, h => by
    rw [kinds, kindsEntries_eq_map] at h
    obtain ⟨l, inner, r, rfl, hl, hinner, hr⟩ := exists_bracketed h
    have hentry : ∀ e ∈ entries, ∀ ts, ts.map Token.kind = entryKinds e →
        ∃ e', DerivesEntry ts e' ∧ (e'.1.erase, e'.2.erase) = (e.1.erase, e.2.erase) := by
      rintro ⟨key, value⟩ hmem ts h
      obtain ⟨ks, colon, vs, rfl, hks, hcolon, hvs⟩ := exists_between h
      obtain ⟨key', hkey⟩ := key.exists_derives hks
      obtain ⟨value', hvalue⟩ := value.exists_derives hvs
      exact ⟨(key', value'), ⟨⟨ks, colon, vs, _⟩, rfl, rfl, hkey.derives, hcolon, hvalue.derives⟩,
        Prod.ext hkey.erase hvalue.erase⟩
    obtain ⟨parts, hparts, hlisted, hmap⟩ := exists_listed entries hentry hinner
    obtain ⟨es, htokens, hentries, hkeys, hcolons, hvalues⟩ := exists_entryTokens hparts
    rw [← htokens] at hlisted
    refine ⟨_, .plain (.dict es hl hkeys hcolons hvalues hlisted hr) (by simp [hl]) ?_⟩
    simp only [erase, eraseEntries_eq_map, hentries, hmap]
termination_by l => sizeOf l
decreasing_by
  all_goals first
    | decreasing_tactic
    | -- an entry of a dictionary is a pair, which is one step more
      have := List.sizeOf_lt_of_mem hmem
      simp only [Prod.mk.sizeOf_spec, dict.sizeOf_spec] at *
      omega

/-! ## Expressions -/

/-- The last token of an expression is one of a name. -/
def Expr.endsInName : Expr α → Bool
  | .var .. => true
  | .unary _ _ operand => operand.endsInName
  | .binary .. | .literal .. | .call .. => false

/-- What follows an operand is not taken for a part of it. -/
def Expr.Follows (e : Expr α) (next : List TokenKind) : Prop :=
  headKind next ≠ .lbracket ∧ (e.endsInName = true → headKind next ≠ .dot ∧ headKind next ≠ .lparen)

/-- What follows is no infix operator. -/
def NoInfix (next : List TokenKind) : Prop := ∀ op, headKind next = .operator op → op.isInfix = false

namespace Expr

theorem kinds_ne_nil {e : Expr α} (he : e.tree.Every Node.Sound) : e.kinds ≠ [] := by
  obtain ⟨k, ks, hk, -, -⟩ := e.kinds_eq_cons he
  simp [hk]

/-- The level of a canonical expression: all but prefix operations stand in brackets or need none. -/
def level (e : Expr α) : Nat := if e.isUnary then 9 else 10

theorem level_bounds (e : Expr α) : 9 ≤ e.level ∧ e.level ≤ 10 := by
  unfold level
  split <;> decide

/-- Tokens are an expression of a level that is the same but for tags, and a name is last only if it ends in one. -/
structure DerivesAs (e : Expr α) (n : Nat) (ts : List Token) (e' : Expr Span) : Prop where
  derives : Derives n ts e'
  erase : e'.erase = e.erase
  last : ∀ t ∈ ts.getLast?, ∀ s, t.kind = .ident s → e.endsInName = true

/-- Behind a closing bracket there is no name to go on with. -/
theorem DerivesAs.closed {e : Expr α} {n : Nat} {ts : List Token} {r : Token} {k : TokenKind} {e' : Expr Span}
    (h : Derives n (ts ++ [r]) e') (herase : e'.erase = e.erase) (hr : r.kind = k) (hk : ∀ s, k ≠ .ident s) :
    e.DerivesAs n (ts ++ [r]) e' := by
  refine ⟨h, herase, fun t ht s hs => ?_⟩
  rw [List.getLast?_concat] at ht
  cases ht
  exact absurd (hr.symm.trans hs) (hk s)

/-- The tokens of a canonical expression are that expression. -/
theorem exists_derives : ∀ (e : Expr α), e.tree.Every Node.Sound → ∀ {ts : List Token}, ts.map Token.kind = e.kinds →
    ∃ e', e.DerivesAs e.level ts e'
  | .var tag name, _, ts, h => by
    have hle := Nat.le_succ_of_le (var tag name).level_bounds.2
    exact ⟨_, .loosen (.name (dotted_of_kinds h)) hle, rfl, fun _ _ _ _ => rfl⟩
  | .literal tag l, _, ts, h => by
    obtain ⟨l', hl⟩ := l.exists_derives h
    have hle := Nat.le_succ_of_le (literal tag l).level_bounds.2
    refine ⟨ofLiteral l', hl.expr.loosen hle, congrArg (literal ()) hl.erase, ?_⟩
    exact fun t ht s hs => absurd hs (hl.derives.kind_getLast t ht s)
  | .call _ name args, he, ts, h => by
    have hargs := (every_call.mp he).2
    rw [kinds, kindsAll_eq_map] at h
    obtain ⟨ns, rest, rfl, hns, hrest⟩ := List.map_eq_append_iff.mp h
    obtain ⟨l, inner, r, rfl, hl, hinner, hr⟩ := exists_bracketed hrest
    have harg : ∀ arg ∈ args, ∀ ts, ts.map Token.kind = arg.kinds → ∃ e', Derives 0 ts e' ∧ e'.erase = arg.erase := by
      intro arg hmem ts h
      obtain ⟨e', h'⟩ := arg.exists_derives (hargs arg hmem) h
      exact ⟨e', h'.derives.loosen (Nat.zero_le _), h'.erase⟩
    have hparts : ∃ parts : List (List Token × Expr Span), (∀ p ∈ parts, Derives 0 p.1 p.2) ∧
        (parts = [] ∧ inner = [] ∨ Joined (parts.map Prod.fst) inner) ∧
        (parts.map Prod.snd).map erase = args.map erase := by
      by_cases hne : args = []
      · subst hne
        exact ⟨[], by simp, .inl ⟨rfl, List.map_eq_nil_iff.mp hinner⟩, rfl⟩
      · obtain ⟨parts, hparts, hjoined, hmap⟩ := exists_joined args hne harg hinner
        exact ⟨parts, hparts, .inr hjoined, hmap⟩
    obtain ⟨parts, hparts, hinner', hmap⟩ := hparts
    have hcall := (Derives.call parts (dotted_of_kinds hns) hl hparts hinner' hr).loosen (m := 10) (by decide)
    rw [← List.append_assoc] at hcall ⊢
    refine ⟨_, .closed hcall ?_ hr (by simp)⟩
    simp only [erase, eraseAll_eq_map, hmap]
  | .unary _ op operand, he, ts, h => by
    obtain ⟨hop, hoperand⟩ := every_unary.mp he
    obtain ⟨o, us, rfl, ho, hus⟩ := List.map_eq_cons_iff.mp h
    obtain ⟨e', h'⟩ := operand.exists_derives hoperand hus
    have hne : us ≠ [] := by
      rintro rfl
      exact kinds_ne_nil hoperand hus.symm
    refine ⟨_, .unary ho (Operator.isPrefix_iff.mp hop) (h'.derives.loosen operand.level_bounds.1), ?_, fun t ht => ?_⟩
    · simp only [erase, h'.erase]
    · rw [List.getLast?_cons_of_ne_nil hne] at ht
      exact h'.last t ht
  | .binary tag op left right, he, ts, h => by
    obtain ⟨hop, hleft, hright⟩ := every_binary.mp he
    by_cases hfetch : op = .fetch
    · subst hfetch
      rw [kinds] at h
      obtain ⟨ls, rest, rfl, hls, hrest⟩ := List.map_eq_append_iff.mp h
      obtain ⟨l, inner, r, rfl, hl, hinner, hr⟩ := exists_bracketed hrest
      obtain ⟨index, hindex⟩ := right.exists_derives hright hinner
      -- a prefix operation stands in brackets of its own before an index
      have hfront : ∃ e', Derives 10 ls e' ∧ e'.erase = left.erase := by
        by_cases hunary : left.isUnary = true
        · rw [if_pos hunary] at hls
          obtain ⟨l, inner, r, rfl, hl, hinner, hr⟩ := exists_bracketed hls
          obtain ⟨e', h'⟩ := left.exists_derives hleft hinner
          exact ⟨e', .tighter (.group hl (h'.derives.loosen (Nat.zero_le _)) hr), h'.erase⟩
        · rw [if_neg hunary] at hls
          obtain ⟨e', h'⟩ := left.exists_derives hleft hls
          have hderives := h'.derives
          rw [level, if_neg hunary] at hderives
          exact ⟨e', hderives, h'.erase⟩
      obtain ⟨e', hderives, herase⟩ := hfront
      have hall := Derives.fetch hderives hl (hindex.derives.loosen (Nat.zero_le _)) hr
      rw [← List.append_assoc] at hall ⊢
      refine ⟨_, .closed hall ?_ hr (by simp)⟩
      simp only [erase, herase, hindex.erase]
    · have hkinds : (binary tag op left right).kinds =
          .lparen :: ((left.kinds ++ .operator op :: right.kinds) ++ [.rparen]) := by
        rw [kinds, List.append_assoc]
        · rfl
        · exact hfetch
      rw [hkinds] at h
      obtain ⟨l, inner, r, rfl, hl, hinner, hr⟩ := exists_bracketed h
      obtain ⟨ls, o, rs, rfl, hls, ho, hrs⟩ := exists_between hinner
      obtain ⟨left', hleft'⟩ := left.exists_derives hleft hls
      obtain ⟨right', hright'⟩ := right.exists_derives hright hrs
      obtain ⟨n, hn⟩ := Operator.isInfix_iff_onLevel.mp (hop.resolve_right hfetch)
      have hlt := hn.lt
      have hinside := Derives.binary (hleft'.derives.loosen (Nat.le_trans (by omega) left.level_bounds.1)) ho hn
        (hright'.derives.loosen (Nat.le_trans (by omega) right.level_bounds.1))
      refine ⟨_, .closed (.tighter (.group hl (hinside.loosen (Nat.zero_le _)) hr)) ?_ hr (by simp)⟩
      simp only [erase, hleft'.erase, hright'.erase]

/-- A canonical expression is read back before what does not go on with it. -/
theorem takes_parse (e : Expr α) (he : e.tree.Every Node.Sound) (hnext : e.Follows next) (hbetween : NoInfix next) :
    Takes (σ := Arena) Expr.parse e.kinds next fun e' => e'.erase = e.erase := by
  intro toks rest last faults kept htoks hrest
  obtain ⟨e', h'⟩ := e.exists_derives he htoks
  have hends : Ends 0 toks (headKind next) := by
    refine ⟨fun m op _ hop hk => ?_, hnext.1, fun t ht s hs => (hnext.2 (h'.last t ht s hs)).symm⟩
    have hinfix := Operator.isInfix_iff_onLevel.mpr ⟨m, hop⟩
    rw [hbetween op hk] at hinfix
    cases hinfix
  let behind : Cursor Unit := ⟨rest, (toks.getLast?.map Token.span).getD last, faults, ()⟩
  have hpeek : behind.peek.kind = headKind next := Takes.kind_peek hrest
  rw [← hpeek] at hends
  have hok : Expr.parse ⟨toks ++ rest, last, faults, ()⟩ = .ok e' behind :=
    (recognizes_parse _ _ (Nat.le_refl _) _ _).mpr
      ⟨toks, ⟨⟨rfl, rfl⟩, rfl⟩, h'.derives.loosen (Nat.zero_le _), hends⟩
  obtain ⟨e'', ⟨rest', last', faults', kept'⟩, hok', hnumbers, hbare⟩ :=
    mirrors_parse.exists_ok (c := ⟨toks ++ rest, last, faults, kept⟩) hok
  obtain ⟨rfl, rfl, rfl, -⟩ := Cursor.mk.inj hbare
  exact ⟨e'', _, kept', hok', (Node.expr.inj (Node.erase_eq_of_sketch hnumbers)).trans h'.erase⟩

theorem erase_eq_literal {e : Expr α} {l : Literal Unit} (h : e.erase = .literal () l) :
    ∃ tag l', e = .literal tag l' ∧ l'.erase = l := by
  cases e with
  | literal tag l' =>
    rw [erase, literal.injEq] at h
    exact ⟨tag, l', rfl, h.2⟩
  | _ => simp [erase] at h

end Expr

/-! ## Values -/

/-- The last token of a value is one of a name: the value is a variable under prefix operators. -/
def Value.endsInName : Value α → Bool
  | .literal _ => false
  | .expr e => e.endsInName

/-- What follows a value is not taken for a part of it. -/
def Value.Follows (v : Value α) (next : List TokenKind) : Prop :=
  headKind next ≠ .lbracket ∧ (v.endsInName = true → headKind next ≠ .dot ∧ headKind next ≠ .lparen) ∧ NoInfix next

theorem Value.follows_newline (v : Value α) (next : List TokenKind) : v.Follows (.newline :: next) := by
  refine ⟨by simp [headKind], fun _ => by simp [headKind], fun op hop => ?_⟩
  cases hop

theorem Value.erase_ofExpr_literal {e : Expr α} {l : Literal Unit} (h : e.erase = .literal () l) :
    (Value.ofExpr e).erase = .literal l := by
  obtain ⟨tag, l', rfl, hl⟩ := Expr.erase_eq_literal h
  exact congrArg Value.literal hl

theorem Value.erase_ofExpr {e : Expr Mark} {e' : Expr α} (h : e.erase = e'.erase) (hproper : (Value.expr e').Proper) :
    (Value.ofExpr e).erase = .expr e'.erase := by
  cases e with
  | literal tag l =>
    cases e' with
    | literal => exact hproper.elim
    | _ => cases h
  | _ => exact congrArg Value.expr h

/-- A value is read back. -/
theorem Value.takes_parse (v : Value α) (hv : v.tree.Every Node.Sound) (hproper : v.Proper) (hnext : v.Follows next) :
    Takes (σ := Arena) Value.parse v.kinds next fun v' => v'.erase = v.erase := by
  obtain ⟨hbracket, hname, hbetween⟩ := hnext
  rw [← List.append_nil v.kinds]
  cases v with
  | literal l =>
    have hl : (Expr.literal l.tag l).tree.Every Node.Sound := Expr.every_literal.mpr ⟨trivial, hv⟩
    exact .bind (Expr.takes_parse (.literal l.tag l) hl ⟨hbracket, hname⟩ hbetween) fun e he =>
      .pure (erase_ofExpr_literal he)
  | expr e =>
    exact .bind (e.takes_parse hv ⟨hbracket, hname⟩ hbetween) fun e' he => .pure (erase_ofExpr he hproper)

theorem Value.takes_parseInitial (value : Option (Value α)) (hv : ∀ v ∈ value, v.tree.Every Node.Sound)
    (hproper : ∀ v ∈ value, v.Proper) : Takes (σ := Arena) Value.parseInitial (initialKinds value) (.newline :: next)
      fun value' => value'.map Value.erase = value.map Value.erase := by
  cases value with
  | none =>
    have hnext : headKind (initialKinds (none : Option (Value α)) ++ .newline :: next) ≠ .eq := by
      simp [initialKinds, headKind]
    exact .declined hnext (.pure rfl)
  | some v =>
    exact .accepted (by simp) <| .last (v.takes_parse (hv v rfl) (hproper v rfl) (v.follows_newline _))
      fun v' h => .pure (by simp [h])

/-! ## Side by side

Of the tokens that would be taken for a part of the value before, three can start a value. Each is written with a
character of its own, so they are seen in the text. -/

/-- The character with which the tokens are written that both start a value and go on with one. -/
def TokenKind.opening : TokenKind → Option Char
  | .lbracket => some '['
  | .lparen => some '('
  | .operator .minus => some '-'
  | _ => none

theorem head?_append_of_eq {cs : List Char} {c : Char} (h : cs.head? = some c) (ds : List Char) :
    (cs ++ ds).head? = some c := by
  cases cs with
  | nil => cases h
  | cons d cs => exact h

theorem opening_dottedKinds (name : String) (next : List TokenKind) :
    (headKind (dottedKinds name ++ next)).opening = none := by
  obtain ⟨segment, hsegment⟩ := headKind_dottedKinds name next
  rw [hsegment]
  rfl

theorem Literal.head_canonical (l : Literal α) : ∀ c ∈ (headKind l.kinds).opening, l.canonical.toList.head? = some c := by
  intro c hc
  cases l with
  | bool _ value => cases value <;> cases hc
  | tuple _ items =>
    match items with
    | [] | [_] | _ :: _ :: _ =>
      cases hc
      simp [canonical]
  | list _ items =>
    cases hc
    simp [canonical]
  | _ => cases hc

theorem Expr.head_canonical : ∀ (e : Expr α), e.tree.Every Node.Sound →
    ∀ c ∈ (headKind e.kinds).opening, e.canonical.toList.head? = some c
  | .binary _ op left right, he, c, hc => by
    obtain ⟨hop, hleft, -⟩ := every_binary.mp he
    by_cases hfetch : op = .fetch
    · subst hfetch
      rw [canonical]
      rw [kinds] at hc
      by_cases hunary : left.isUnary = true
      · rw [if_pos hunary] at hc ⊢
        cases hc
        simp
      · rw [if_neg hunary] at hc ⊢
        rw [headKind_append (kinds_ne_nil hleft)] at hc
        simp only [String.toList_append, List.append_assoc]
        exact head?_append_of_eq (left.head_canonical hleft c hc) _
    · rw [kinds] at hc
      · cases hc
        rw [canonical]
        · simp
        · exact hfetch
      · exact hfetch
  | .unary _ op operand, he, c, hc => by
    rw [canonical, String.toList_append]
    cases op <;> cases hc
    rfl
  | .var _ name, _, c, hc => by
    have := opening_dottedKinds name []
    rw [List.append_nil] at this
    rw [kinds, this] at hc
    cases hc
  | .literal _ l, _, c, hc => l.head_canonical c hc
  | .call _ name args, _, c, hc => by
    rw [kinds, opening_dottedKinds] at hc
    cases hc

theorem Value.head_canonical (v : Value α) (hv : v.tree.Every Node.Sound) :
    ∀ c ∈ (headKind v.kinds).opening, v.canonical.toList.head? = some c := by
  cases v with
  | literal l => exact l.head_canonical
  | expr e => exact e.head_canonical hv

theorem Value.startsOperand_kinds (v : Value α) (hv : v.tree.Every Node.Sound) :
    v.kinds ≠ [] ∧ (headKind v.kinds).startsOperand = true := by
  cases v with
  | literal l =>
    obtain ⟨k, ks, hk, hstart, -⟩ := l.kinds_eq_cons
    rw [kinds, hk]
    exact ⟨List.cons_ne_nil _ _, hstart⟩
  | expr e =>
    obtain ⟨k, ks, hk, hstart, -⟩ := e.kinds_eq_cons hv
    rw [kinds, hk]
    exact ⟨List.cons_ne_nil _ _, hstart⟩

theorem Operator.eq_minus {op : Operator} (hbefore : op.isPrefix = true) (hbetween : op.isInfix = true) :
    op = .minus := by
  cases op with
  | minus => rfl
  | negate => cases hbetween
  | _ => cases hbefore

/-- Two values may be written side by side: the text of the second does not go on with the first. -/
structure Separable (sender receiver : Value α) : Prop where
  bracket : receiver.canonical.toList.head? ≠ some '['
  minus : receiver.canonical.toList.head? ≠ some '-'
  paren : receiver.canonical.toList.head? = some '(' → sender.endsInName = false

instance (sender receiver : Value α) : Decidable (Separable sender receiver) :=
  decidable_of_iff (receiver.canonical.toList.head? ≠ some '[' ∧ receiver.canonical.toList.head? ≠ some '-' ∧
      (receiver.canonical.toList.head? = some '(' → sender.endsInName = false))
    ⟨fun ⟨hbracket, hminus, hparen⟩ => ⟨hbracket, hminus, hparen⟩, fun h => ⟨h.bracket, h.minus, h.paren⟩⟩

theorem Separable.follows {sender receiver : Value α} (h : Separable sender receiver)
    (hreceiver : receiver.tree.Every Node.Sound) (next : List TokenKind) : sender.Follows (receiver.kinds ++ next) := by
  have hhead := receiver.head_canonical hreceiver
  obtain ⟨hne, hstart⟩ := receiver.startsOperand_kinds hreceiver
  rw [Value.Follows, NoInfix, headKind_append hne]
  refine ⟨fun hk => ?_, fun hname => ⟨?_, fun hk => ?_⟩, fun op hk => ?_⟩
  · exact h.bracket (hhead '[' (by rw [hk]; rfl))
  · exact TokenKind.ne_of_startsOperand hstart rfl
  · have hparen := h.paren (hhead '(' (by rw [hk]; rfl))
    rw [hname] at hparen
    cases hparen
  · rw [hk] at hstart hhead
    by_contra hbetween
    obtain rfl := Operator.eq_minus hstart (by simpa using hbetween)
    exact h.minus (hhead '-' rfl)

end QiIdl
