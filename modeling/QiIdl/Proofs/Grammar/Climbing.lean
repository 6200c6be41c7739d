import QiIdl.Proofs.Grammar.Mirrors
import QiIdl.Proofs.Grammar.Recognizes

/-!
# Precedence climbing recognizes the stratified grammar

Precedence climbing knows no levels: it compares the precedence of the operator that is next with the least that is
wanted. `Cuts least n` ties the two together, since a least precedence cuts the operators where a level begins.

Left recursion in the grammar is a loop in a reader, for operators as for indices. In one direction the loop carries
an invariant: what has been read so far is an expression of a level, and what is next does not belong inside it
(`exists_of_climb`, `exists_of_parseIndices`). In the other direction a derivation says how far the loop has come
behind it (`climb_of_derives`, `parseIndices_of_derives`), by induction on the derivation and with as much of the
count left as there are tokens.
-/

namespace QiIdl

variable {op : Operator}

/-! ## Operators and levels -/

namespace Operator

variable {op other : Operator} {n m : Nat}

theorem OnLevel.lt (h : op.OnLevel n) : n < 9 := by
  by_contra hn
  rw [OnLevel, List.getD_eq_getElem?_getD, List.getElem?_eq_none (Nat.le_of_not_lt hn)] at h
  cases h

/-- The operators of a tighter level have a higher precedence. -/
theorem OnLevel.precedence_lt_iff (h : op.OnLevel n) (h' : other.OnLevel m) :
    op.precedence < other.precedence ↔ n < m := by
  have hall : ∀ n < 9, ∀ m < 9, ∀ op ∈ strata.getD n [], ∀ other ∈ strata.getD m [],
      (op.precedence < other.precedence ↔ n < m) := by decide
  exact hall n h.lt m h'.lt op h other h'

theorem isInfix_iff_onLevel : op.isInfix = true ↔ ∃ n, op.OnLevel n := by
  constructor
  · intro h
    have hmem : op ∈ strata.flatten := by cases op <;> first | decide | cases h
    obtain ⟨ops, hops, hop⟩ := List.mem_flatten.mp hmem
    obtain ⟨n, hn, rfl⟩ := List.getElem_of_mem hops
    refine ⟨n, ?_⟩
    rwa [OnLevel, List.getD_eq_getElem?_getD, List.getElem?_eq_getElem hn]
  · rintro ⟨n, h⟩
    have hall : ∀ n < 9, ∀ op ∈ strata.getD n [], op.isInfix = true := by decide
    exact hall n h.lt op h

theorem isPrefix_iff : op.isPrefix = true ↔ op = .minus ∨ op = .negate := by
  cases op <;> decide

end Operator

/-- The binary operators of at least some precedence are those from some level on. -/
structure Cuts (least n : Nat) : Prop where
  le : n ≤ 9
  least_le_iff : ∀ op m, Operator.OnLevel op m → (least ≤ op.precedence ↔ n ≤ m)

theorem cuts_zero : Cuts 0 0 := ⟨Nat.zero_le _, fun _ _ _ => ⟨fun _ => Nat.zero_le _, fun _ => Nat.zero_le _⟩⟩

/-- Only tighter operators are taken into a right operand. -/
theorem Operator.OnLevel.cuts {n : Nat} (h : op.OnLevel n) : Cuts (op.precedence + 1) (n + 1) :=
  ⟨h.lt, fun _ _ h' => h.precedence_lt_iff h'⟩

namespace Expr

open Parse

variable {ts : List Token} {r l : Token}

/-! ## What comes behind an expression -/

namespace Ends

variable {n m : Nat} {ts us : List Token} {next : TokenKind}

theorem mono (h : Ends n ts next) (hm : n ≤ m) : Ends m ts next :=
  ⟨fun k op hk => h.operator k op (Nat.le_trans hm hk), h.bracket, h.name⟩

/-- Only the last token of an expression counts. -/
theorem append_iff (ts : List Token) (hus : us ≠ []) : Ends n (ts ++ us) next ↔ Ends n us next := by
  have hlast := List.getLast?_append_of_ne_nil ts hus
  exact ⟨fun h => ⟨h.operator, h.bracket, hlast ▸ h.name⟩, fun h => ⟨h.operator, h.bracket, hlast.symm ▸ h.name⟩⟩

/-- Before a sign that separates or closes, an expression of any level ends. -/
theorem of_delimiter (h : next = .comma ∨ next = .rparen ∨ next = .rbracket ∨ next = .eof) : Ends n ts next := by
  rcases h with rfl | rfl | rfl | rfl <;> exact ⟨nofun, nofun, fun _ _ _ _ => ⟨nofun, nofun⟩⟩

/-- Above the binary operators there is none to go on with. -/
theorem of_nine (hbracket : next ≠ .lbracket)
    (hname : ∀ t ∈ ts.getLast?, ∀ s, t.kind = .ident s → next ≠ .lparen ∧ next ≠ .dot) : Ends 9 ts next :=
  ⟨fun _ _ hm hop => absurd hop.lt (Nat.not_lt.mpr hm), hbracket, hname⟩

end Ends

/-- What stands alone ends before everything but what would go on with a name. -/
def NameEnds (ts : List Token) (next : TokenKind) : Prop :=
  ∀ t ∈ ts.getLast?, ∀ s, t.kind = .ident s → next ≠ .lparen ∧ next ≠ .dot

theorem NameEnds.of_last {next : TokenKind} (hr : ∀ s, r.kind ≠ .ident s) : NameEnds (ts ++ [r]) next := by
  intro t ht s hs
  rw [List.getLast?_concat] at ht
  cases ht
  exact absurd hs (hr s)

/-! ## What stands alone -/

theorem Derives.ne_nil {n : Nat} {e : Expr Span} (h : Derives n ts e) : ts ≠ [] := by
  obtain ⟨t, ts', rfl, -⟩ := h.exists_cons
  exact List.cons_ne_nil t ts'

/-- What is read from an expression on extends from where the cursor stood. -/
theorem Derives.extent {n : Nat} {e : Expr Span} {c c' : Cursor Unit} {us : List Token} (h : Derives n ts e)
    (hall : c.Reads (ts ++ us) c') : c.peek.span.merge c'.last = Token.extent (ts ++ us) := by
  obtain ⟨t, ts', rfl, -⟩ := h.exists_cons
  exact hall.extent

section Primary

variable {expression : Parse (Expr Span)} {k m : Nat} {c c' : Cursor Unit} {e : Expr Span}

theorem delimits_argument : Delimits (Derives 0) (Ends 0) .rparen := by
  constructor
  · exact nofun
  · exact nofun
  · intro ts e he
    obtain ⟨t, ts', rfl, hstart, -⟩ := he.exists_cons
    refine ⟨t, ts', rfl, fun heq => ?_⟩
    rw [heq] at hstart
    cases hstart
  · exact fun _ _ _ => .of_delimiter (.inl rfl)
  · exact fun _ _ _ => .of_delimiter (.inr (.inl rfl))

theorem delimits_element : Delimits (fun ts l => Derives 0 ts (ofLiteral l)) (Ends 0) .rparen :=
  ⟨nofun, nofun, fun ts _ => delimits_argument.head ts _, fun ts _ => delimits_argument.ends_comma ts _,
    fun ts _ => delimits_argument.ends_close ts _⟩

theorem tupleElement_eq_ok {l : Literal Span} :
    tupleElement e c = .ok l c' ↔ c' = c ∧ ∃ tag, e = .literal tag l := by
  cases e with
  | literal tag l' =>
    constructor
    · intro h
      cases h
      exact ⟨rfl, tag, rfl⟩
    · rintro ⟨rfl, _, h⟩
      cases h
      rfl
  | _ =>
    constructor
    · exact fun h => nomatch h
    · rintro ⟨-, _, h⟩
      cases h

theorem parseBracketed_of_unit (h : c.Reads [l, r] c') (hl : l.kind = .lparen) (hr : r.kind = .rparen) :
    parseBracketed expression m c = .ok (ofLiteral (.tuple (Token.extent [l, r]) [])) c' := by
  obtain ⟨c₁, hopen, hclose⟩ := h.uncons
  refine (expect_bind_eq_ok (by nofun)).mpr ⟨l, c₁, hl, hopen, ?_⟩
  have hnext : c₁.peek.kind = .rparen := hclose.peek ▸ hr
  rw [accept_ite, if_pos hnext, ← hclose.eq_advance (hr ▸ nofun), close_bind, ← h.extent, h.peek]
  rfl

theorem parseNamed_of_name {name : String} (h : c.Reads ts c') (hdotted : Dotted ts name)
    (hends : NameEnds ts c'.peek.kind) : parseNamed expression m c = .ok (.var (Token.extent ts) name) c' := by
  obtain ⟨hparen, hdot⟩ : c'.peek.kind ≠ .lparen ∧ c'.peek.kind ≠ .dot := by
    cases hdotted with
    | single hkind => exact hends _ rfl _ hkind
    | snoc _ _ hkind => exact hends _ (List.getLast?_append_of_ne_nil _ (List.cons_ne_nil _ _)) _ hkind
  have hok := (recognizes_dottedName _ "name" c (Nat.le_refl _) name c').mpr ⟨ts, h, hdotted, hdot⟩
  obtain ⟨t, ts', s, rfl, -⟩ := hdotted.exists_cons
  rw [parseNamed, look_bind, bind_of_ok hok, accept_ite, if_neg hparen, close_eq, h.extent]

variable (hexpr : Recognizes k expression (Derives 0) (Ends 0)) (hm : m ≤ k + 1) (hc : c.rest.length ≤ m)

include hexpr

/-- An element of a tuple is an expression that is a literal. -/
theorem recognizes_parseElement :
    Recognizes k (parseElement expression) (fun ts l => Derives 0 ts (ofLiteral l)) (Ends 0) := by
  intro c hc l c'
  constructor
  · intro h
    obtain ⟨e, c₁, he, h⟩ := bind_eq_ok.mp h
    obtain ⟨rfl, tag, rfl⟩ := tupleElement_eq_ok.mp h
    obtain ⟨ts, hts, hderives, hends⟩ := (hexpr c hc _ _).mp he
    rw [hderives.tag_literal] at hderives
    exact ⟨ts, hts, hderives, hends⟩
  · intro h
    have hok := (hexpr c hc (ofLiteral l) c').mpr h
    rw [parseElement, bind_of_ok hok]
    rfl

include hm hc

theorem exists_of_parseBracketed (h : parseBracketed expression m c = .ok e c') :
    ∃ ts, c.Reads ts c' ∧ Derives 11 ts e ∧ NameEnds ts c'.peek.kind := by
  obtain ⟨l, c₁, hl, hopen, h⟩ := (expect_bind_eq_ok (by nofun)).mp h
  have hlength := hopen.length_single
  rw [← hopen.peek, accept_ite] at h
  by_cases hunit : c₁.peek.kind = .rparen
  · rw [if_pos hunit, close_bind] at h
    cases h
    have hall := hopen.cons (Cursor.reads_advance (hunit ▸ nofun : c₁.peek.kind ≠ .eof))
    rw [hall.extent]
    exact ⟨[l] ++ [c₁.peek], hall, .unit hl hunit, NameEnds.of_last (by rw [hunit]; nofun)⟩
  · rw [if_neg hunit] at h
    obtain ⟨inner, c₂, hinner, h⟩ := bind_eq_ok.mp h
    obtain ⟨ts, hts, hderives, -⟩ := (hexpr c₁ (by omega) inner c₂).mp hinner
    have hlength' := hts.length
    rw [accept_ite] at h
    by_cases hclose : c₂.peek.kind = .rparen
    · rw [if_pos hclose] at h
      cases h
      have hread := Cursor.reads_advance (hclose ▸ nofun : c₂.peek.kind ≠ .eof)
      exact ⟨l :: ts ++ [c₂.peek], hopen.cons (hts.snoc hread), .group hl hderives hclose,
        .of_last (by rw [hclose]; nofun)⟩
    · rw [if_neg hclose] at h
      obtain ⟨comma, c₃, hcomma, hread, h⟩ := (expect_bind_eq_ok (by nofun)).mp h
      obtain ⟨first, c₄, hfirst, h⟩ := bind_eq_ok.mp h
      obtain ⟨rfl, tag, rfl⟩ := tupleElement_eq_ok.mp hfirst
      have hlength'' := hread.length
      simp only [close_wrap] at h
      obtain ⟨rest, r, parts, hrest, hparts, hlisted, hr, rfl⟩ := (enclosed_closed_eq_ok
        (recognizes_parseElement hexpr) delimits_element (by omega) (by omega)).mp h
      have hall : c.Reads (l :: (ts ++ comma :: rest) ++ [r]) c' := by
        have := hopen.cons (hts.trans (hread.cons hrest))
        simpa using this
      have hextent : c.peek.span.merge c'.last = _ := hall.extent
      rw [hderives.tag_literal] at hderives
      rw [hextent]
      exact ⟨_, hall, .tuple parts hl hderives hcomma hparts hlisted hr, .of_last (by rw [hr]; nofun)⟩

theorem parseBracketed_of_group (h : c.Reads (l :: ts ++ [r]) c') (hl : l.kind = .lparen) (he : Derives 0 ts e)
    (hr : r.kind = .rparen) : parseBracketed expression m c = .ok e c' := by
  obtain ⟨c₁, hopen, h⟩ := h.uncons
  have hlength := hopen.length_single
  have hfirst : c₁.peek.kind ≠ .rparen := delimits_argument.peek_ne he h
  obtain ⟨c₂, hts, hclose⟩ := h.split
  have hnext : c₂.peek.kind = .rparen := hclose.peek ▸ hr
  have hok := (hexpr c₁ (by omega) e c₂).mpr ⟨ts, hts, he, .of_delimiter (.inr (.inl hnext))⟩
  refine (expect_bind_eq_ok (by nofun)).mpr ⟨l, c₁, hl, hopen, ?_⟩
  rw [accept_ite, if_neg hfirst, bind_of_ok hok, accept_ite, if_pos hnext, ← hclose.eq_advance (hr ▸ nofun)]
  rfl

theorem parseBracketed_of_tuple {comma : Token} {inner : List Token} {first : Literal Span}
    {parts : List (List Token × Literal Span)} (h : c.Reads (l :: (ts ++ comma :: inner) ++ [r]) c')
    (hl : l.kind = .lparen) (hfirst : Derives 0 ts (ofLiteral first)) (hcomma : comma.kind = .comma)
    (hparts : ∀ p ∈ parts, Derives 0 p.1 (ofLiteral p.2)) (hlisted : Listed (parts.map Prod.fst) inner)
    (hr : r.kind = .rparen) : parseBracketed expression m c =
      .ok (ofLiteral (.tuple (Token.extent (l :: (ts ++ comma :: inner) ++ [r])) (first :: parts.map Prod.snd))) c' := by
  have hextent : c.peek.span.merge c'.last = _ := h.extent
  rw [h.peek] at hextent
  obtain ⟨c₁, hopen, h⟩ := h.uncons
  rw [List.append_eq, List.append_assoc] at h
  have hlength := hopen.length_single
  have hne : c₁.peek.kind ≠ .rparen := delimits_argument.peek_ne hfirst h
  obtain ⟨c₂, hts, h⟩ := h.split
  have hlength' := hts.length
  obtain ⟨c₃, hread, hrest⟩ := h.uncons
  have hlength'' := hread.length
  have hnext : c₂.peek.kind = .comma := hread.peek ▸ hcomma
  have hok := (hexpr c₁ (by omega) (ofLiteral first) c₂).mpr ⟨ts, hts, hfirst, .of_delimiter (.inl hnext)⟩
  refine (expect_bind_eq_ok (by nofun)).mpr ⟨l, c₁, hl, hopen, ?_⟩
  rw [accept_ite, if_neg hne, bind_of_ok hok, accept_ite, if_neg (hnext ▸ nofun)]
  refine (expect_bind_eq_ok (by nofun)).mpr ⟨comma, c₃, hcomma, hread, ?_⟩
  have helement : tupleElement (ofLiteral first) c₃ = .ok first c₃ := rfl
  rw [bind_of_ok helement]
  simp only [close_wrap]
  refine (enclosed_closed_eq_ok (recognizes_parseElement hexpr) delimits_element (by omega) (by omega)).mpr
    ⟨inner, r, parts, hrest, hparts, hlisted, hr, ?_⟩
  rw [hextent]
  rfl

theorem exists_of_parseNamed (h : parseNamed expression m c = .ok e c') :
    ∃ ts, c.Reads ts c' ∧ Derives 11 ts e ∧ NameEnds ts c'.peek.kind := by
  rw [parseNamed, look_bind] at h
  obtain ⟨name, c₁, hname, h⟩ := bind_eq_ok.mp h
  obtain ⟨ns, hns, hdotted, hdot⟩ := (recognizes_dottedName _ _ c (Nat.le_refl _) name c₁).mp hname
  obtain ⟨t, ns', s, rfl, -⟩ := hdotted.exists_cons
  rw [accept_ite] at h
  by_cases hopen : c₁.peek.kind = .lparen
  · rw [if_pos hopen] at h
    obtain ⟨args, c₂, r, hargs, hr, hclose, rfl⟩ := (closed_eq_ok (by nofun)).mp h
    have hread := Cursor.reads_advance (hopen ▸ nofun : c₁.peek.kind ≠ .eof)
    have hlength := (hns.snoc hread).length
    rw [List.length_append, List.length_cons, List.length_singleton] at hlength
    obtain ⟨inner, parts, hinner, hparts, hjoined, rfl⟩ := (separatedUnless_eq_ok hexpr delimits_argument
      (by omega) (by omega) (hclose.peek ▸ hr)).mp hargs
    have hall := hns.trans (hread.cons (hinner.snoc hclose))
    have hextent : c.peek.span.merge c'.last = _ := hall.extent
    rw [hextent]
    refine ⟨_, hall, .call parts hdotted hopen hparts hjoined hr, ?_⟩
    rw [← List.cons_append, ← List.append_assoc]
    exact .of_last (by rw [hr]; nofun)
  · rw [if_neg hopen, close_eq] at h
    cases h
    rw [hns.extent]
    exact ⟨_, hns, .name hdotted, fun _ _ _ _ => ⟨hopen, hdot⟩⟩

theorem parseNamed_of_call {ns inner : List Token} {name : String} {parts : List (List Token × Expr Span)}
    (h : c.Reads (ns ++ (l :: inner ++ [r])) c') (hdotted : Dotted ns name) (hl : l.kind = .lparen)
    (hparts : ∀ p ∈ parts, Derives 0 p.1 p.2) (hjoined : parts = [] ∧ inner = [] ∨ Joined (parts.map Prod.fst) inner)
    (hr : r.kind = .rparen) :
    parseNamed expression m c =
      .ok (.call (Token.extent (ns ++ (l :: inner ++ [r]))) name (parts.map Prod.snd)) c' := by
  obtain ⟨t, ns', s, rfl, -⟩ := hdotted.exists_cons
  have hextent : c.peek.span.merge c'.last = _ := h.extent
  obtain ⟨c₁, hns, h⟩ := h.split
  obtain ⟨c₂, hopen, h⟩ := h.uncons
  have hlength := (hns.snoc hopen).length
  rw [List.length_append, List.length_cons, List.length_singleton] at hlength
  obtain ⟨c₃, hinner, hclose⟩ := h.split
  have hparen : c₁.peek.kind = .lparen := hopen.peek ▸ hl
  have hok := (recognizes_dottedName _ "name" c (Nat.le_refl _) name c₁).mpr ⟨_, hns, hdotted, hparen ▸ nofun⟩
  rw [parseNamed, look_bind, bind_of_ok hok, accept_ite, if_pos hparen, ← hopen.eq_advance (hl ▸ nofun)]
  refine (closed_eq_ok (by nofun)).mpr ⟨_, c₃, r, ?_, hr, hclose, by rw [hextent]; rfl⟩
  exact (separatedUnless_eq_ok hexpr delimits_argument (by omega) (by omega) (hclose.peek ▸ hr)).mpr
    ⟨inner, parts, hinner, hparts, hjoined, rfl⟩

omit hc in
theorem recognizes_parsePrimary :
    Recognizes m (parsePrimary expression m) (Derives 11) NameEnds := by
  intro c hc e c'
  rw [parsePrimary, kind_bind]
  constructor
  · intro h
    by_cases hparen : c.peek.kind = .lparen
    · rw [hparen] at h
      exact exists_of_parseBracketed hexpr hm hc h
    by_cases hident : ∃ s, c.peek.kind = .ident s
    · obtain ⟨s, hident⟩ := hident
      rw [hident] at h
      exact exists_of_parseNamed hexpr hm hc h
    · have hliteral : (Literal.parse >>= fun l => pure (ofLiteral l) : Parse (Expr Span)) c = .ok e c' := by
        cases hkind : c.peek.kind with
        | lparen => exact absurd hkind hparen
        | ident s => exact absurd ⟨s, hkind⟩ hident
        | _ =>
          rw [hkind] at h
          exact h
      obtain ⟨l, c₁, hl, h⟩ := bind_eq_ok.mp hliteral
      cases h
      obtain ⟨ts, hts, hderives, -⟩ := (Literal.recognizes_parse _ c (Nat.le_refl _) l _).mp hl
      refine ⟨ts, hts, .literal hderives ?_, fun t ht s hs => absurd hs (hderives.kind_getLast t ht s)⟩
      obtain ⟨t, ts', rfl, -⟩ := hderives.exists_cons
      rw [hts.peek] at hparen
      intro u hu
      cases hu
      exact hparen
  · rintro ⟨ts, hts, he, hends⟩
    obtain ⟨t, ts', htsEq, -⟩ := he.exists_cons
    cases he with
    | tighter he => exact absurd he.le_eleven (by decide)
    | binary _ _ hop => exact absurd hop.lt (by decide)
    | group hl he hr =>
      rw [hts.peek, hl]
      exact parseBracketed_of_group hexpr hm hc hts hl he hr
    | unit hl hr =>
      rw [hts.peek, hl]
      exact parseBracketed_of_unit hts hl hr
    | tuple parts hl hfirst hcomma hparts hlisted hr =>
      rw [hts.peek, hl]
      exact parseBracketed_of_tuple hexpr hm hc hts hl hfirst hcomma hparts hlisted hr
    | name hdotted =>
      obtain ⟨t, ts', s, rfl, ht⟩ := hdotted.exists_cons
      rw [hts.peek, ht]
      exact parseNamed_of_name hts hdotted hends
    | call parts hdotted hl hparts hjoined hr =>
      have hkind : ∃ s, c.peek.kind = .ident s := by
        obtain ⟨t, ts', s, rfl, ht⟩ := hdotted.exists_cons
        rw [hts.peek]
        exact ⟨s, ht⟩
      obtain ⟨s, hkind⟩ := hkind
      rw [hkind]
      exact parseNamed_of_call hexpr hm hc hts hdotted hl hparts hjoined hr
    | @literal _ l hl hparen =>
      have hok := (Literal.recognizes_parse _ c (Nat.le_refl _) l c').mpr ⟨_, hts, hl, trivial⟩
      have hbind : (Literal.parse >>= fun l => pure (ofLiteral l) : Parse (Expr Span)) c = .ok (ofLiteral l) c' := by
        rw [bind_of_ok hok]
        rfl
      obtain ⟨t, ts', rfl, -, -, hident⟩ := hl.exists_cons
      have hpeek := hts.peek
      subst hpeek
      cases hkind : c.peek.kind with
      | lparen => exact absurd hkind (hparen _ rfl)
      | ident s => exact absurd hkind (hident s)
      | _ => exact hbind

end Primary

/-! ## Indices and prefix operators -/

section Operand

variable {expression : Parse (Expr Span)} {k m count : Nat} {c c₀ c' : Cursor Unit} {e e' : Expr Span} {ls ts : List Token}

theorem parseIndices_of_ne {start : Span} (h : c.peek.kind ≠ .lbracket) :
    parseIndices expression start count e c = .ok e c := by
  cases count with
  | zero => rfl
  | succ count =>
    rw [parseIndices, accept_ite, if_neg h]
    rfl

/-- One more index, if a bracket is next. -/
theorem parseIndices_step (hexpr : Recognizes k expression (Derives 0) (Ends 0)) (hc : c.rest.length ≤ k + 1)
    {start : Span} {index : Expr Span} (h : c.Reads (l :: ts ++ [r]) c') (hl : l.kind = .lbracket)
    (hindex : Derives 0 ts index) (hr : r.kind = .rbracket) : parseIndices expression start (count + 1) e c =
      parseIndices expression start count (.binary (start.merge c'.last) .fetch e index) c' := by
  have hopen : c.peek.kind = .lbracket := h.peek ▸ hl
  obtain ⟨c₁, hread, h⟩ := h.uncons
  have hlength := hread.length_single
  obtain ⟨c₂, hts, hclose⟩ := h.split
  have hnext : c₂.peek.kind = .rbracket := hclose.peek ▸ hr
  have hok := (hexpr c₁ (by omega) index c₂).mpr ⟨ts, hts, hindex, .of_delimiter (.inr (.inr (.inl hnext)))⟩
  have hsign : expect .rbracket "']' after index" c₂ = .ok r c' := (expect_eq_ok (by nofun)).mpr ⟨hr, hclose⟩
  rw [parseIndices, accept_ite, if_pos hopen, ← hread.eq_advance (hl ▸ nofun), bind_of_ok hok, bind_of_ok hsign]
  rfl

/-- Indices are read behind an expression of their level until no bracket is next. -/
theorem exists_of_parseIndices (hexpr : Recognizes k expression (Derives 0) (Ends 0)) (hcount : c.rest.length ≤ count)
    (hk : c.rest.length ≤ k + 1) (hls : c₀.Reads ls c) (he : Derives 10 ls e) (hends : NameEnds ls c.peek.kind)
    (h : parseIndices expression c₀.peek.span count e c = .ok e' c') :
    ∃ ts, c₀.Reads ts c' ∧ Derives 10 ts e' ∧ Ends 9 ts c'.peek.kind := by
  induction count generalizing c ls e with
  | zero =>
    cases h
    exact ⟨ls, hls, he, .of_delimiter (.inr (.inr (.inr (Cursor.kind_peek_of_length hcount))))⟩
  | succ count ih =>
    by_cases hopen : c.peek.kind = .lbracket
    · rw [parseIndices, accept_ite, if_pos hopen] at h
      have hread := Cursor.reads_advance (hopen ▸ nofun : c.peek.kind ≠ .eof)
      have hlength := hread.length_single
      obtain ⟨index, c₁, hindex, h⟩ := bind_eq_ok.mp h
      obtain ⟨ts, hts, hderives, -⟩ := (hexpr _ (by omega) index c₁).mp hindex
      obtain ⟨r, c₂, hr, hclose, h⟩ := (expect_bind_eq_ok (by nofun)).mp h
      have hinside := (hts.snoc hclose).length
      have hall : c₀.Reads (ls ++ (c.peek :: ts ++ [r])) c₂ := hls.trans (hread.cons (hts.snoc hclose))
      have hlast : NameEnds (ls ++ (c.peek :: ts ++ [r])) c₂.peek.kind := by
        rw [← List.append_assoc]
        exact .of_last (by rw [hr]; nofun)
      rw [close_bind, he.extent hall] at h
      exact ih (by omega) (by omega) hall (.fetch he hopen hderives hr) hlast h
    · rw [parseIndices_of_ne hopen] at h
      cases h
      exact ⟨ls, hls, he, .of_nine hopen hends⟩

/-- What stands alone, and its indices. -/
def parsePlain (expression : Parse (Expr Span)) (start : Span) (count : Nat) : Parse (Expr Span) := do
  let e ← parsePrimary expression count
  parseIndices expression start count e

/-- Behind the tokens of an expression with its indices, the loop over indices has got as far as they go. -/
theorem parseIndices_of_derives (hexpr : Recognizes k expression (Derives 0) (Ends 0)) (hm : m ≤ k + 1)
    (hc : c.rest.length ≤ m) (he : Derives 10 ts e) (h : c.Reads ts c') (hends : NameEnds ts c'.peek.kind) :
    ∃ count, c'.rest.length ≤ count ∧
      parsePlain expression c.peek.span m c = parseIndices expression c.peek.span count e c' := by
  generalize hn : 10 = n at he
  induction he generalizing c' with
  | @tighter _ ts e he =>
    subst hn
    have hlength := h.length
    refine ⟨m, by omega, bind_of_ok ?_⟩
    exact (recognizes_parsePrimary hexpr hm c hc e c').mpr ⟨ts, h, he, hends⟩
  | binary _ _ hop => exact absurd hop.lt (by omega)
  | @fetch ls ts l r e index he hl hindex hr ih =>
    have hextent := he.extent h
    obtain ⟨c₁, hls, h⟩ := h.split
    have hlength := hls.length
    have hlength' := h.length
    rw [List.cons_append, List.length_cons] at hlength'
    have hopen : c₁.peek.kind = .lbracket := h.peek ▸ hl
    obtain ⟨count, hcount, heq⟩ := ih hls (fun _ _ _ _ => by rw [hopen]; exact ⟨nofun, nofun⟩) rfl
    obtain ⟨count, rfl⟩ : ∃ j, count = j + 1 := ⟨count - 1, by omega⟩
    refine ⟨count, by omega, ?_⟩
    rw [heq, parseIndices_step hexpr (by omega) h hl hindex hr, hextent]
  | _ => cases hn

theorem parseOperand_of_sign (hkind : c.peek.kind = .operator op) (hop : op.isPrefix = true) :
    parseOperand expression (count + 1) c = (do
      let _ ← advance
      let operand ← parseOperand expression count
      close c.peek.span (.unary · op operand) .expr : Parse (Expr Span)) c := by
  rw [parseOperand, look_bind, kind_bind, hkind]
  dsimp only
  rw [if_pos hop]

theorem parseOperand_of_plain (h : ∀ op, c.peek.kind = .operator op → op.isPrefix = false) :
    parseOperand expression (count + 1) c = parsePlain expression c.peek.span (count + 1) c := by
  rw [parseOperand, look_bind, kind_bind]
  cases hkind : c.peek.kind with
  | operator op =>
    dsimp only
    rw [if_neg (by rw [h op hkind]; decide)]
    rfl
  | _ => rfl

/-- Operands are read as the grammar says, unless an index or a call would go on with them. -/
theorem recognizes_parseOperand (hexpr : Recognizes k expression (Derives 0) (Ends 0)) (hm : m ≤ k + 1) :
    Recognizes m (parseOperand expression m) (Derives 9) (Ends 9) := by
  induction m with
  | zero =>
    exact recognizes_zero fun _ _ he => he.ne_nil
  | succ m ih =>
    intro c hc e c'
    by_cases hsign : ∃ op, c.peek.kind = .operator op ∧ op.isPrefix = true
    · obtain ⟨op, hkind, hop⟩ := hsign
      have hread := Cursor.reads_advance (hkind ▸ nofun : c.peek.kind ≠ .eof)
      have hlength := hread.length_single
      have hoperand := ih (by omega) c.advance (by omega)
      rw [parseOperand_of_sign hkind hop, advance_bind]
      constructor
      · intro h
        obtain ⟨operand, c₁, hok, h⟩ := bind_eq_ok.mp h
        cases h
        obtain ⟨ts, hts, he, hends⟩ := (hoperand operand _).mp hok
        have hall := hread.cons hts
        rw [hall.extent]
        exact ⟨[c.peek] ++ ts, hall, .unary hkind (Operator.isPrefix_iff.mp hop) he,
          (Ends.append_iff _ he.ne_nil).mpr hends⟩
      · rintro ⟨ts, hts, he, hends⟩
        cases he with
        | tighter he =>
          -- an expression without prefix operators does not start with one
          obtain ⟨t, ts', rfl, -, hplain⟩ := he.exists_cons
          exact absurd (hts.peek ▸ hkind) (hplain (Nat.le_refl _) op)
        | binary _ _ hop => exact absurd hop.lt (by decide)
        | @unary ts o op' operand ho _ he =>
          have hpeek := hts.peek
          subst hpeek
          cases ho.symm.trans hkind
          have hextent := hts.extent
          obtain ⟨c₁, hfirst, hts⟩ := hts.uncons
          rw [hfirst.unique hread] at hts
          have hends' := (Ends.append_iff [c.peek] he.ne_nil).mp hends
          have hok := (hoperand operand c').mpr ⟨ts, hts, he, hends'⟩
          rw [bind_of_ok hok, close_eq, hextent]
    · have hplain : ∀ op, c.peek.kind = .operator op → op.isPrefix = false := by
        intro op hkind
        by_contra hop
        exact hsign ⟨op, hkind, Bool.of_not_eq_false hop⟩
      rw [parseOperand_of_plain hplain]
      constructor
      · intro h
        obtain ⟨e₀, c₁, hprimary, h⟩ := bind_eq_ok.mp h
        obtain ⟨ls, hls, he₀, hends⟩ := (recognizes_parsePrimary hexpr hm c hc e₀ c₁).mp hprimary
        have hlength := hls.length
        obtain ⟨ts, hts, he, hends⟩ :=
          exists_of_parseIndices hexpr (by omega) (by omega) hls he₀.tighter hends h
        exact ⟨ts, hts, he.tighter, hends⟩
      · rintro ⟨ts, hts, he, hends⟩
        cases he with
        | tighter he =>
          obtain ⟨count, -, heq⟩ := parseIndices_of_derives hexpr hm hc he hts hends.name
          rw [heq, parseIndices_of_ne hends.bracket]
        | binary _ _ hop => exact absurd hop.lt (by decide)
        | unary ho hop _ =>
          have hkind := hts.peek ▸ ho
          exact absurd ⟨_, hkind, Operator.isPrefix_iff.mpr hop⟩ hsign

end Operand

/-! ## Binary operators -/

section Climb

variable {operand : Nat → Parse (Expr Span)} {k n q least count : Nat} {start : Span} {c c₀ c' : Cursor Unit}
  {e left : Expr Span} {ls ts : List Token}

/-- Nothing is read behind a left operand if no operator of the level or a tighter one is next. -/
theorem climb_of_ends (hcuts : Cuts least n) (h : ∀ m op, n ≤ m → op.OnLevel m → c.peek.kind ≠ .operator op) :
    climb operand start least count left c = .ok left c := by
  cases count with
  | zero => rfl
  | succ count =>
    rw [climb, kind_bind]
    cases hkind : c.peek.kind with
    | operator op =>
      dsimp only
      rw [if_neg]
      · rfl
      · rintro ⟨hbinary, hleast⟩
        obtain ⟨m, hop⟩ := Operator.isInfix_iff_onLevel.mp hbinary
        exact h m op ((hcuts.least_le_iff op m hop).mp hleast) hop hkind
    | _ => rfl

theorem climb_of_operator {m : Nat} (hcuts : Cuts least n) (hkind : c.peek.kind = .operator op) (hop : op.OnLevel m)
    (hm : n ≤ m) : climb operand start least (count + 1) left c = (do
      let _ ← advance
      let right ← operand (op.precedence + 1)
      let whole ← close start (.binary · op left right) .expr
      climb operand start least count whole : Parse (Expr Span)) c := by
  rw [climb, kind_bind, hkind]
  dsimp only
  rw [if_pos ⟨Operator.isInfix_iff_onLevel.mpr ⟨m, hop⟩, (hcuts.least_le_iff op m hop).mpr hm⟩]

/-- The loop is at an expression of a level, and no tighter operator is next. An operator that is taken is then of
this level or a looser one, so that what was read so far is a left operand for it; and behind the right operand no
tighter operator than the one just taken is next. -/
theorem exists_of_climb (hoperand : ∀ least n, Cuts least n → Recognizes k (operand least) (Derives n) (Ends n))
    (hcuts : Cuts least n) (hcount : c.rest.length ≤ count) (hk : c.rest.length ≤ k + 1) (hls : c₀.Reads ls c)
    (hleft : Derives q ls left) (hq : n ≤ q) (hends : Ends (q + 1) ls c.peek.kind)
    (h : climb operand c₀.peek.span least count left c = .ok e c') :
    ∃ ts, c₀.Reads ts c' ∧ Derives n ts e ∧ Ends n ts c'.peek.kind := by
  induction count generalizing c ls left q with
  | zero =>
    cases h
    exact ⟨ls, hls, hleft.loosen hq, .of_delimiter (.inr (.inr (.inr (Cursor.kind_peek_of_length hcount))))⟩
  | succ count ih =>
    by_cases hnext : ∃ m op, n ≤ m ∧ op.OnLevel m ∧ c.peek.kind = .operator op
    · obtain ⟨m, op, hm, hop, hkind⟩ := hnext
      have hmq : m ≤ q := by
        by_contra hlt
        exact hends.operator m op (by omega) hop hkind
      have hread := Cursor.reads_advance (hkind ▸ nofun : c.peek.kind ≠ .eof)
      have hlength := hread.length_single
      rw [climb_of_operator hcuts hkind hop hm, advance_bind] at h
      obtain ⟨right, c₁, hright, h⟩ := bind_eq_ok.mp h
      obtain ⟨rs, hrs, hderives, hends'⟩ := (hoperand _ _ hop.cuts c.advance (by omega) right c₁).mp hright
      have hlength' := hrs.length
      have hall : c₀.Reads (ls ++ c.peek :: rs) c₁ := hls.trans (hread.cons hrs)
      have hlast : Ends (m + 1) (ls ++ c.peek :: rs) c₁.peek.kind := by
        rw [List.append_cons, Ends.append_iff _ hderives.ne_nil]
        exact hends'
      rw [close_bind, hleft.extent hall] at h
      exact ih (by omega) (by omega) hall (.binary (hleft.loosen hmq) hkind hop hderives) hm hlast h
    · have hnone : ∀ m op, n ≤ m → op.OnLevel m → c.peek.kind ≠ .operator op :=
        fun m op hm hop hkind => hnext ⟨m, op, hm, hop, hkind⟩
      rw [climb_of_ends hcuts hnone] at h
      cases h
      exact ⟨ls, hls, hleft.loosen hq, hnone, hends.bracket, hends.name⟩

/-- An operand, and the operators behind it. -/
def parseClimb (expression : Parse (Expr Span)) (operand : Nat → Parse (Expr Span)) (start : Span)
    (least count : Nat) : Parse (Expr Span) := do
  let left ← parseOperand expression count
  climb operand start least count left

/-- Behind the tokens of an expression of some level, the loop over operators has got as far as they go, if no
tighter operator is next. -/
theorem climb_of_derives (hoperand : ∀ least n, Cuts least n → Recognizes k (operand least) (Derives n) (Ends n))
    (hcuts : Cuts least n) (hc : c.rest.length ≤ k + 1) (he : Derives q ts e) (hq : n ≤ q) (hnine : q ≤ 9)
    (h : c.Reads ts c') (hends : Ends (q + 1) ts c'.peek.kind) : ∃ count, c'.rest.length ≤ count ∧
      parseClimb (operand 0) operand c.peek.span least (k + 1) c = climb operand c.peek.span least count e c' := by
  induction he generalizing c' with
  | @tighter q ts e he ih =>
    by_cases hlt : q < 9
    · exact ih (Nat.le_succ_of_le hq) hlt h (hends.mono (Nat.le_succ _))
    · obtain rfl : q = 9 := by omega
      have hlength := h.length
      refine ⟨k + 1, by omega, bind_of_ok ?_⟩
      exact (recognizes_parseOperand (hoperand 0 0 cuts_zero) (Nat.le_refl _) c hc e c').mpr
        ⟨ts, h, he.tighter, .of_nine hends.bracket hends.name⟩
  | @binary q ls rs o op left right hleft ho hop hright ih _ =>
    have hextent := hleft.extent h
    obtain ⟨c₁, hls, h⟩ := h.split
    obtain ⟨c₂, hread, hrs⟩ := h.uncons
    have hlength := hls.length
    have hlength' := hread.length_single
    have hlength'' := hrs.length
    have hkind : c₁.peek.kind = .operator op := hread.peek ▸ ho
    have hends₁ : Ends (q + 1) ls c₁.peek.kind := by
      rw [hkind]
      refine ⟨fun m op' hm hop' heq => ?_, nofun, fun _ _ _ _ => ⟨nofun, nofun⟩⟩
      cases heq
      have := hop.precedence_lt_iff hop'
      omega
    obtain ⟨count, hcount, heq⟩ := ih hq hnine hls hends₁
    obtain ⟨count, rfl⟩ : ∃ j, count = j + 1 := ⟨count - 1, by omega⟩
    refine ⟨count, by omega, ?_⟩
    rw [List.append_cons, Ends.append_iff _ hright.ne_nil] at hends
    have hok := (hoperand _ _ hop.cuts c₂ (by omega) right c').mpr ⟨rs, hrs, hright, hends⟩
    rw [heq, climb_of_operator hcuts hkind hop hq, advance_bind, ← hread.eq_advance (ho ▸ nofun), bind_of_ok hok,
      close_bind, hextent]
  | @unary ts o op e ho hop he =>
    have hlength := h.length
    refine ⟨k + 1, by omega, bind_of_ok ?_⟩
    exact (recognizes_parseOperand (hoperand 0 0 cuts_zero) (Nat.le_refl _) c hc _ c').mpr
      ⟨_, h, .unary ho hop he, .of_nine hends.bracket hends.name⟩
  | _ => exact absurd hnine (by decide)

/-- Precedence climbing from a least precedence recognizes the level that the precedence cuts at. -/
theorem recognizes_parseWithin (n : Nat) {least level : Nat} (hcuts : Cuts least level) :
    Recognizes n (parseWithin n least) (Derives level) (Ends level) := by
  induction n generalizing least level with
  | zero =>
    exact recognizes_zero fun _ _ he => he.ne_nil
  | succ n ih =>
    have hoperand : ∀ least level, Cuts least level → Recognizes n (parseWithin n least) (Derives level) (Ends level) :=
      fun _ _ h => ih h
    intro c hc e c'
    rw [parseWithin, look_bind]
    constructor
    · intro h
      obtain ⟨left, c₁, hleft, h⟩ := bind_eq_ok.mp h
      obtain ⟨ls, hls, hderives, hends⟩ :=
        (recognizes_parseOperand (ih cuts_zero) (Nat.le_refl _) c hc left c₁).mp hleft
      have hlength := hls.length
      exact exists_of_climb hoperand hcuts (by omega) (by omega) hls hderives hcuts.le (hends.mono (Nat.le_succ _)) h
    · rintro ⟨ts, hts, he, hends⟩
      obtain ⟨count, -, heq⟩ :=
        climb_of_derives hoperand hcuts hc he (Nat.le_refl _) hcuts.le hts (hends.mono (Nat.le_succ _))
      exact heq.trans (climb_of_ends hcuts hends.operator)

theorem recognizes_parse (n : Nat) : Recognizes n parse (Derives 0) (Ends 0) := by
  intro c _ e c'
  rw [parse, left_bind]
  exact recognizes_parseWithin _ cuts_zero c (Nat.le_succ _) e c'

/-- Tokens are one expression at most: read with nothing behind them, they are what the reader gives. -/
theorem Derives.unique {e' : Expr Span} (h : Derives 0 ts e) (h' : Derives 0 ts e') : e = e' := by
  let c : Cursor Unit := ⟨ts, .point 0, [], ()⟩
  let c' : Cursor Unit := ⟨[], (ts.getLast?.map Token.span).getD (.point 0), [], ()⟩
  have hreads : c.Reads ts c' := ⟨⟨(List.append_nil ts).symm, rfl⟩, rfl⟩
  have hends : Ends 0 ts c'.peek.kind := .of_delimiter (.inr (.inr (.inr rfl)))
  have hok := (recognizes_parse _ c (Nat.le_refl _) e c').mpr ⟨ts, hreads, h, hends⟩
  have hok' := (recognizes_parse _ c (Nat.le_refl _) e' c').mpr ⟨ts, hreads, h', hends⟩
  cases hok.symm.trans hok'
  rfl

end Climb

/-- The reader of expressions succeeds exactly on the longest expression of the grammar that starts at the cursor: it
moves over its tokens, gives its tree, and stops where neither a binary operator nor an index is next, and behind a
name neither the bracket of a call nor a further segment. No run of tokens is two expressions. With an arena to keep
its nodes in, the reader goes the same way. -/
theorem parse_eq_ok_iff_derives :
    (∀ c e c', parse c = .ok e c' ↔ ∃ ts, c.Reads ts c' ∧ Derives 0 ts e ∧ Ends 0 ts c'.peek.kind) ∧
      (∀ ts e e', Derives 0 ts e → Derives 0 ts e' → e = e') ∧ Mirrors Expr.Numbers parse parse :=
  ⟨fun c e c' => recognizes_parse _ c (Nat.le_refl _) e c', fun _ _ _ => Derives.unique, mirrors_parse⟩

/-- A chain of minus signs is a difference of a difference, and nothing else. -/
theorem parse_eq_ok_iff_derives_chain :
    let chain : List Token := [⟨.ident "a", ⟨0, 1⟩⟩, ⟨.operator .minus, ⟨2, 3⟩⟩, ⟨.ident "b", ⟨4, 5⟩⟩,
      ⟨.operator .minus, ⟨6, 7⟩⟩, ⟨.ident "c", ⟨8, 9⟩⟩]
    let tree : Expr Span := .binary ⟨0, 9⟩ .minus (.binary ⟨0, 5⟩ .minus (.var ⟨0, 1⟩ "a") (.var ⟨4, 5⟩ "b"))
      (.var ⟨8, 9⟩ "c")
    Derives 0 chain tree ∧ ∀ e, Derives 0 chain e → e = tree := by
  intro chain tree
  have hok : parse ⟨chain, .point 0, [], ()⟩ = .ok tree ⟨[], ⟨8, 9⟩, [], ()⟩ := by rfl
  obtain ⟨ts, hreads, hderives, -⟩ := (parse_eq_ok_iff_derives.1 _ _ _).mp hok
  have hts : chain = ts := hreads.rest.trans (List.append_nil ts)
  subst hts
  exact ⟨hderives, fun e he => parse_eq_ok_iff_derives.2.1 _ _ _ he hderives⟩

end Expr

end QiIdl
