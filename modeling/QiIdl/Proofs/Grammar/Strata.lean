import QiIdl.Grammar.Values
import QiIdl.Proofs.Format.Kinds

/-!
# The grammar of values

The grammar that expressions are read by, said without a reader: which runs of tokens are an expression, and which
tree they are. It has one level for each precedence of binary operators (`strata`, the loosest first), then a level
of prefix operators, one of indices, and one of what stands alone. An expression of one level is also one of every
looser level, and the operators of a level associate to the left.

The grammar does not say where an expression ends: `a` is an expression, and so is `a + b`. A reader takes the
longest one, and `Expr.Ends` says what this means: behind the expression comes nothing that it would go on with.
-/

namespace QiIdl

variable {ts : List Token} {l : Literal Span}

/-- The stretch of source text from the first of some tokens to the last. -/
def Token.extent : List Token → Span
  | [] => .point 0
  | t :: ts => t.span.merge (ts.getLast?.getD t).span

/-! ## Lists -/

/-- Some runs of tokens with commas between them. -/
inductive Joined : List (List Token) → List Token → Prop where
  | single (ts : List Token) : Joined [ts] ts
  | cons {ts rest : List Token} {parts : List (List Token)} {comma : Token} :
    comma.kind = .comma → Joined parts rest → Joined (ts :: parts) (ts ++ comma :: rest)

/-- Some runs of tokens with commas between them, and perhaps one behind the last. -/
inductive Listed : List (List Token) → List Token → Prop where
  | nil : Listed [] []
  | single (ts : List Token) : Listed [ts] ts
  | cons {ts rest : List Token} {parts : List (List Token)} {comma : Token} :
    comma.kind = .comma → Listed parts rest → Listed (ts :: parts) (ts ++ comma :: rest)

/-- The tokens of a dotted name. -/
inductive Dotted : List Token → String → Prop where
  | single {t : Token} {s : String} : t.kind = .ident s → Dotted [t] s
  | snoc {ts : List Token} {dot t : Token} {front s : String} :
    Dotted ts front → dot.kind = .dot → t.kind = .ident s → Dotted (ts ++ [dot, t]) s!"{front}.{s}"

/-! ## Literals -/

/-- An entry of a dictionary: the tokens of its key and of its value, the colon, and what they are read as. -/
structure EntryTokens where
  key : List Token
  colon : Token
  value : List Token
  entry : Literal Span × Literal Span

def EntryTokens.tokens (p : EntryTokens) : List Token := p.key ++ p.colon :: p.value

/-- The runs of tokens that are literals. -/
inductive Literal.Derives : List Token → Literal Span → Prop where
  | int {t : Token} {value : Nat} : t.kind = .int value → Derives [t] (.int (Token.extent [t]) value)
  | float {t : Token} {value : Binary64} : t.kind = .float value → Derives [t] (.float (Token.extent [t]) value)
  | string {t : Token} {value : String} : t.kind = .string value → Derives [t] (.string (Token.extent [t]) value)
  | true {t : Token} : t.kind = .keyword .trueKw → Derives [t] (.bool (Token.extent [t]) Bool.true)
  | false {t : Token} : t.kind = .keyword .falseKw → Derives [t] (.bool (Token.extent [t]) Bool.false)
  | list {l r : Token} {inner : List Token} (parts : List (List Token × Literal Span)) :
    l.kind = .lbracket → (∀ p ∈ parts, Derives p.1 p.2) → Listed (parts.map Prod.fst) inner → r.kind = .rbracket →
      Derives (l :: inner ++ [r]) (.list (Token.extent (l :: inner ++ [r])) (parts.map Prod.snd))
  | tuple {l r : Token} {inner : List Token} (parts : List (List Token × Literal Span)) :
    l.kind = .lparen → (∀ p ∈ parts, Derives p.1 p.2) → Listed (parts.map Prod.fst) inner → r.kind = .rparen →
      Derives (l :: inner ++ [r]) (.tuple (Token.extent (l :: inner ++ [r])) (parts.map Prod.snd))
  | dict {l r : Token} {inner : List Token} (parts : List EntryTokens) :
    l.kind = .lbrace → (∀ p ∈ parts, Derives p.key p.entry.1) → (∀ p ∈ parts, p.colon.kind = .colon) →
      (∀ p ∈ parts, Derives p.value p.entry.2) → Listed (parts.map EntryTokens.tokens) inner → r.kind = .rbrace →
      Derives (l :: inner ++ [r]) (.dict (Token.extent (l :: inner ++ [r])) (parts.map EntryTokens.entry))

/-! ## Expressions -/

/-- The binary operators level by level, the loosest first. -/
def strata : List (List Operator) :=
  [[.boolOr], [.boolAnd], [.bitOr], [.bitXor], [.bitAnd], [.equal, .notEqual],
   [.less, .lessEqual, .greater, .greaterEqual], [.plus, .minus], [.multiply, .divide, .modulus]]

/-- A binary operator stands on a level. -/
def Operator.OnLevel (op : Operator) (n : Nat) : Prop := op ∈ strata.getD n []

instance (op : Operator) (n : Nat) : Decidable (op.OnLevel n) := inferInstanceAs (Decidable (op ∈ strata.getD n []))

namespace Expr

/-- The expression that a literal is read as. -/
def ofLiteral (l : Literal Span) : Expr Span := .literal l.tag l

theorem close_wrap (start : Span) (build : Span → Literal Span) :
    (Parse.close start build .literal >>= fun l => wrap l : Parse (Expr Span)) =
      Parse.spanFrom start >>= fun s => pure (ofLiteral (build s)) := rfl

/-- The runs of tokens that are expressions of a level. The first nine levels are those of the binary operators; level
9 has prefix operators, level 10 indices, and level 11 neither. -/
inductive Derives : Nat → List Token → Expr Span → Prop where
  | tighter {n : Nat} {ts : List Token} {e : Expr Span} : Derives (n + 1) ts e → Derives n ts e
  | binary {n : Nat} {ls rs : List Token} {o : Token} {op : Operator} {left right : Expr Span} :
    Derives n ls left → o.kind = .operator op → op.OnLevel n → Derives (n + 1) rs right →
      Derives n (ls ++ o :: rs) (.binary (Token.extent (ls ++ o :: rs)) op left right)
  | unary {ts : List Token} {o : Token} {op : Operator} {e : Expr Span} :
    o.kind = .operator op → op = .minus ∨ op = .negate → Derives 9 ts e →
      Derives 9 (o :: ts) (.unary (Token.extent (o :: ts)) op e)
  | fetch {ls ts : List Token} {l r : Token} {e index : Expr Span} :
    Derives 10 ls e → l.kind = .lbracket → Derives 0 ts index → r.kind = .rbracket →
      Derives 10 (ls ++ (l :: ts ++ [r])) (.binary (Token.extent (ls ++ (l :: ts ++ [r]))) .fetch e index)
  | group {ts : List Token} {l r : Token} {e : Expr Span} :
    l.kind = .lparen → Derives 0 ts e → r.kind = .rparen → Derives 11 (l :: ts ++ [r]) e
  | name {ts : List Token} {name : String} : Dotted ts name → Derives 11 ts (.var (Token.extent ts) name)
  | call {ns inner : List Token} {l r : Token} {name : String} (parts : List (List Token × Expr Span)) :
    Dotted ns name → l.kind = .lparen → (∀ p ∈ parts, Derives 0 p.1 p.2) →
      (parts = [] ∧ inner = [] ∨ Joined (parts.map Prod.fst) inner) → r.kind = .rparen →
      Derives 11 (ns ++ (l :: inner ++ [r])) (.call (Token.extent (ns ++ (l :: inner ++ [r]))) name (parts.map Prod.snd))
  | literal {ts : List Token} {l : Literal Span} :
    Literal.Derives ts l → (∀ t ∈ ts.head?, t.kind ≠ .lparen) → Derives 11 ts (ofLiteral l)
  | unit {l r : Token} : l.kind = .lparen → r.kind = .rparen →
      Derives 11 [l, r] (ofLiteral (.tuple (Token.extent [l, r]) []))
  | tuple {ts inner : List Token} {l r comma : Token} {first : Literal Span}
    (parts : List (List Token × Literal Span)) :
    l.kind = .lparen → Derives 0 ts (ofLiteral first) → comma.kind = .comma →
      (∀ p ∈ parts, Derives 0 p.1 (ofLiteral p.2)) → Listed (parts.map Prod.fst) inner → r.kind = .rparen →
      Derives 11 (l :: (ts ++ comma :: inner) ++ [r])
        (ofLiteral (.tuple (Token.extent (l :: (ts ++ comma :: inner) ++ [r])) (first :: parts.map Prod.snd)))

/-- Behind an expression comes nothing that one of a level would go on with: no operator of the level or a tighter one,
no index, and behind a name no bracket of a call and no further segment. -/
structure Ends (n : Nat) (ts : List Token) (next : TokenKind) : Prop where
  operator : ∀ m op, n ≤ m → op.OnLevel m → next ≠ .operator op
  bracket : next ≠ .lbracket
  name : ∀ t ∈ ts.getLast?, ∀ s, t.kind = .ident s → next ≠ .lparen ∧ next ≠ .dot

end Expr

/-! ## First tokens -/

theorem Dotted.exists_cons {s : String} (h : Dotted ts s) : ∃ t ts' first, ts = t :: ts' ∧ t.kind = .ident first := by
  induction h with
  | single hkind => exact ⟨_, [], _, rfl, hkind⟩
  | snoc _ _ _ ih =>
    obtain ⟨t, ts', first, rfl, hfirst⟩ := ih
    exact ⟨t, _, first, rfl, hfirst⟩

theorem Literal.Derives.exists_cons (h : Literal.Derives ts l) :
    ∃ t ts', ts = t :: ts' ∧ t.kind.startsOperand = Bool.true ∧ (∀ op, t.kind ≠ .operator op) ∧
      ∀ s, t.kind ≠ .ident s := by
  cases h with
  | int hkind | float hkind | string hkind | true hkind | false hkind =>
    refine ⟨_, [], rfl, ?_⟩
    simp [hkind, TokenKind.startsOperand]
  | list parts hkind | tuple parts hkind | dict parts hkind =>
    refine ⟨_, _, rfl, ?_⟩
    simp [hkind, TokenKind.startsOperand]

theorem Literal.Derives.kind_getLast (h : Literal.Derives ts l) : ∀ t ∈ ts.getLast?, ∀ s, t.kind ≠ .ident s := by
  intro t ht s hs
  cases h with
  | int hkind | float hkind | string hkind | true hkind | false hkind =>
    cases ht
    cases hkind.symm.trans hs
  | list _ _ _ _ hr | tuple _ _ _ _ hr | dict _ _ _ _ _ _ hr =>
    rw [List.getLast?_concat] at ht
    cases ht
    cases hr.symm.trans hs

namespace Expr.Derives

variable {n m : Nat} {ts : List Token} {e : Expr Span}

/-- An expression starts as operands do, and with an operator only if it is a prefix operation. -/
theorem exists_cons (h : Derives n ts e) :
    ∃ t ts', ts = t :: ts' ∧ t.kind.startsOperand = true ∧ (10 ≤ n → ∀ op, t.kind ≠ .operator op) := by
  induction h with
  | tighter _ ih =>
    obtain ⟨t, ts', rfl, hstart, hplain⟩ := ih
    exact ⟨t, ts', rfl, hstart, fun hn => hplain (Nat.le_succ_of_le hn)⟩
  | binary _ _ _ _ ih | fetch _ _ _ _ ih =>
    obtain ⟨t, ts', rfl, hstart, hplain⟩ := ih
    exact ⟨t, _, rfl, hstart, hplain⟩
  | unary hkind hop =>
    refine ⟨_, _, rfl, ?_, fun hn => absurd hn (by decide)⟩
    rcases hop with rfl | rfl <;> simp [hkind, TokenKind.startsOperand, Operator.isPrefix]
  | group hkind | unit hkind | tuple _ hkind =>
    refine ⟨_, _, rfl, ?_⟩
    simp [hkind, TokenKind.startsOperand]
  | name hdotted | call _ hdotted =>
    obtain ⟨t, ts', s, rfl, hkind⟩ := hdotted.exists_cons
    refine ⟨t, _, rfl, ?_⟩
    simp [hkind, TokenKind.startsOperand]
  | literal hl _ =>
    obtain ⟨t, ts', rfl, hstart, hop, -⟩ := hl.exists_cons
    exact ⟨t, ts', rfl, hstart, fun _ => hop⟩

/-- An expression of a level is one of every looser level. -/
theorem loosen (h : Derives n ts e) (hm : m ≤ n) : Derives m ts e := by
  induction hm with
  | refl => exact h
  | step _ ih => exact ih (.tighter h)

/-- There is no level above that of what stands alone. -/
theorem le_eleven (h : Derives n ts e) : n ≤ 11 := by
  induction h with
  | tighter _ ih => exact Nat.le_of_succ_le ih
  | binary _ _ _ _ ih => exact ih
  | _ => decide

/-- A literal among expressions carries its own tag. -/
theorem tag_literal {tag : Span} (h : Derives n ts (.literal tag l)) : (.literal tag l : Expr Span) = ofLiteral l := by
  generalize he : (.literal tag l : Expr Span) = e at h
  induction h with
  | tighter _ ih => exact ih he
  | group _ _ _ ih => exact ih he
  | literal | unit | tuple =>
    cases he
    rfl
  | _ => cases he

end Expr.Derives

end QiIdl
