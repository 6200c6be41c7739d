import QiIdl.Proofs.Ast.Every

/-!
# The tokens of canonical types and values

The canonical form of a type, a literal or an expression is a text, and `kinds` says which tokens it is meant to
be: one clause per constructor, like `canonical` itself. That the text is read as these tokens is proved here by
induction over the tree; what the parser makes of the tokens is another matter and does not look at the text.

The text of a float has to be read back as the same double, so infinite ones are excluded, and a name has to be a
name. Both are said of single nodes and asked of every node (`Node.Legible`).
-/

namespace QiIdl

variable {α : Type}

/-! ## Kinds -/

/-- The tokens of some things with commas between them. -/
def commaKinds (kss : List (List TokenKind)) : List TokenKind := [.comma].intercalate kss

mutual

/-- The tokens of a canonical type. -/
def TypeExpr.kinds : TypeExpr α → List TokenKind
  | .builtin _ type => dottedKinds type.spelling
  | .custom _ name => dottedKinds name
  | .list _ element => .lbracket :: .rbracket :: element.kinds
  | .map _ key value => .lbracket :: (key.kinds ++ .rbracket :: value.kinds)
  | .tuple _ elements => .lparen :: (commaKinds (TypeExpr.kindsAll elements) ++ [.rparen])

def TypeExpr.kindsAll : List (TypeExpr α) → List (List TokenKind)
  | [] => []
  | t :: ts => t.kinds :: TypeExpr.kindsAll ts

end

mutual

def Literal.kinds : Literal α → List TokenKind
  | .bool _ value => [.keyword (if value then .trueKw else .falseKw)]
  | .int _ value => [.int value]
  | .float _ value => [.float value]
  | .string _ value => [.string value]
  | .list _ items => .lbracket :: (commaKinds (Literal.kindsAll items) ++ [.rbracket])
  | .tuple _ [item] => .lparen :: (item.kinds ++ [.comma, .rparen])
  | .tuple _ items => .lparen :: (commaKinds (Literal.kindsAll items) ++ [.rparen])
  | .dict _ entries => .lbrace :: (commaKinds (Literal.kindsEntries entries) ++ [.rbrace])

def Literal.kindsAll : List (Literal α) → List (List TokenKind)
  | [] => []
  | l :: ls => l.kinds :: Literal.kindsAll ls

def Literal.kindsEntries : List (Literal α × Literal α) → List (List TokenKind)
  | [] => []
  | (key, value) :: rest => (key.kinds ++ .colon :: value.kinds) :: Literal.kindsEntries rest

end

mutual

def Expr.kinds : Expr α → List TokenKind
  | .binary _ .fetch left right =>
    (if left.isUnary then .lparen :: (left.kinds ++ [.rparen]) else left.kinds) ++
      .lbracket :: (right.kinds ++ [.rbracket])
  | .binary _ op left right => .lparen :: (left.kinds ++ .operator op :: (right.kinds ++ [.rparen]))
  | .unary _ op operand => .operator op :: operand.kinds
  | .var _ name => dottedKinds name
  | .literal _ l => l.kinds
  | .call _ name args => dottedKinds name ++ .lparen :: (commaKinds (Expr.kindsAll args) ++ [.rparen])

def Expr.kindsAll : List (Expr α) → List (List TokenKind)
  | [] => []
  | e :: es => e.kinds :: Expr.kindsAll es

end

def Value.kinds : Value α → List TokenKind
  | .literal l => l.kinds
  | .expr e => e.kinds

/-! Lists are maps. -/

theorem TypeExpr.kindsAll_eq_map (ts : List (TypeExpr α)) : TypeExpr.kindsAll ts = ts.map TypeExpr.kinds :=
  eq_map_of_cons rfl (fun _ _ => rfl) ts

theorem TypeExpr.canonicalAll_eq_map (ts : List (TypeExpr α)) :
    TypeExpr.canonicalAll ts = ts.map TypeExpr.canonical := eq_map_of_cons rfl (fun _ _ => rfl) ts

theorem Literal.kindsAll_eq_map (ls : List (Literal α)) : Literal.kindsAll ls = ls.map Literal.kinds :=
  eq_map_of_cons rfl (fun _ _ => rfl) ls

theorem Literal.canonicalAll_eq_map (ls : List (Literal α)) :
    Literal.canonicalAll ls = ls.map Literal.canonical := eq_map_of_cons rfl (fun _ _ => rfl) ls

def Literal.entryKinds (e : Literal α × Literal α) : List TokenKind := e.1.kinds ++ .colon :: e.2.kinds

theorem Literal.kindsEntries_eq_map (es : List (Literal α × Literal α)) :
    Literal.kindsEntries es = es.map Literal.entryKinds := eq_map_of_cons rfl (fun _ _ => rfl) es

theorem Literal.canonicalEntries_eq_map (es : List (Literal α × Literal α)) :
    Literal.canonicalEntries es = es.map fun e => e.1.canonical ++ ": " ++ e.2.canonical :=
  eq_map_of_cons rfl (fun _ _ => rfl) es

theorem Expr.kindsAll_eq_map (es : List (Expr α)) : Expr.kindsAll es = es.map Expr.kinds :=
  eq_map_of_cons rfl (fun _ _ => rfl) es

theorem Expr.canonicalAll_eq_map (es : List (Expr α)) : Expr.canonicalAll es = es.map Expr.canonical :=
  eq_map_of_cons rfl (fun _ _ => rfl) es

/-! ## Legible nodes -/

/-- The node is no infinite float. -/
def Node.IsFinite : Node α → Prop
  | .literal (.float _ x) => x.isInfinite = false
  | _ => True

instance : DecidablePred (@Node.IsFinite α)
  | .literal (.float _ x) => inferInstanceAs (Decidable (x.isInfinite = false))
  | .literal (.bool ..) | .literal (.int ..) | .literal (.string ..) | .literal (.list ..) | .literal (.tuple ..)
  | .literal (.dict ..) | .expr _ | .type _ | .interface _ | .fn _ | .emit _ | .prop _ | .struct _ | .field _
  | .const _ | .typedef _ | .enum _ | .enumItem _ | .package .. | .imports _ | .object _ | .var _ | .comment .. =>
    .isTrue trivial

/-- What a node says itself can be written so that it is read again: it is sound, and no infinite float. -/
def Node.Legible (n : Node α) : Prop := n.Sound ∧ n.IsFinite

theorem Builtin.isName_spelling (type : Builtin) : IsName type.spelling := by
  cases type <;> exact ⟨⟨_, _, rfl, by decide, List.all_eq_true.mp (by decide)⟩, by decide⟩

theorem Builtin.ofSpelling?_spelling (type : Builtin) : Builtin.ofSpelling? type.spelling = some type := by
  cases type <;> decide

open Lexeme

variable {rest : List Char}

/-- A list with commas is read item by item. -/
theorem Lexeme.Reads.commaList {ι : Type} {items : List ι} {text : ι → String} {kinds : ι → List TokenKind}
    (hitem : ∀ i ∈ items, ∀ rest, Ends rest → Reads rest (text i).toList (kinds i)) (h : Ends rest) :
    Reads rest (QiIdl.commaList (items.map text)).toList (commaKinds (items.map kinds)) := by
  have hlist : (QiIdl.commaList (items.map text)).toList =
      [',', ' '].intercalate (items.map fun i => (text i).toList) := by
    rw [QiIdl.commaList, String.toList_intercalate, List.map_map]
    rfl
  rw [hlist]
  exact .intercalate (fun _ => .commaSpace) (fun _ => rfl) _ _ _ hitem h

/-! ## Types -/

/-- The canonical form of a type is read as its tokens. -/
theorem TypeExpr.reads : ∀ (t : TypeExpr α), t.tree.Every Node.Legible → ∀ {rest : List Char}, Ends rest →
    Reads rest t.canonical.toList t.kinds
  | .builtin _ type, _, rest, h => .dotted type.isName_spelling.isDotted h
  | .custom _ name, ht, rest, h => .dotted ht.label.1.1 h
  | .list _ element, ht, rest, h => by
    have helement := element.reads (every_list.mp ht).2 h
    simp only [canonical, String.toList_append]
    exact .append (Reads.lbracket.append .rbracket) helement
  | .map _ key value, ht, rest, h => by
    obtain ⟨-, hkey, hvalue⟩ := every_map.mp ht
    simp only [canonical, String.toList_append, List.append_assoc]
    exact .append .lbracket (.append (key.reads hkey rfl) (.append .rbracket (value.reads hvalue h)))
  | .tuple _ elements, ht, rest, h => by
    obtain ⟨-, helements⟩ := every_tuple.mp ht
    have hitems : ∀ t ∈ elements, ∀ rest, Ends rest → Reads rest t.canonical.toList t.kinds :=
      fun t hmem rest h => t.reads (helements t hmem) h
    simp only [canonical, kinds, canonicalAll_eq_map, kindsAll_eq_map, String.toList_append, List.append_assoc]
    exact .append .lparen (.append (.commaList hitems rfl) .rparen)

/-! ## Literals -/

/-- The canonical form of a literal is read as its tokens. -/
theorem Literal.reads : ∀ (l : Literal α), l.tree.Every Node.Legible → ∀ {rest : List Char}, Ends rest →
    Reads rest l.canonical.toList l.kinds
  | .bool _ true, _, rest, h => .keyword .trueKw h
  | .bool _ false, _, rest, h => .keyword .falseKw h
  | .int _ value, hl, rest, h => .int hl.label.1 h
  | .float tag value, hl, rest, h => .float (hl.label.2) h
  | .string _ value, _, rest, _ => .quoted value
  | .list _ items, hl, rest, h => by
    obtain ⟨-, hitems⟩ := every_list.mp hl
    have hread : ∀ l ∈ items, ∀ rest, Ends rest → Reads rest l.canonical.toList l.kinds :=
      fun l hmem rest h => l.reads (hitems l hmem) h
    simp only [canonical, kinds, canonicalAll_eq_map, kindsAll_eq_map, String.toList_append, List.append_assoc]
    exact .append .lbracket (.append (.commaList hread rfl) .rbracket)
  | .tuple _ [], _, rest, _ => by
    simp only [canonical, kinds, canonicalAll_eq_map, kindsAll_eq_map, String.toList_append, List.append_assoc]
    exact .append .lparen (.append .nil .rparen)
  | .tuple _ [item], hl, rest, h => by
    obtain ⟨-, hitems⟩ := every_tuple.mp hl
    simp only [canonical, String.toList_append, List.append_assoc]
    exact .append .lparen (.append (item.reads (hitems item (by simp)) rfl) (Reads.comma.append .rparen))
  | .tuple _ (first :: second :: items), hl, rest, h => by
    obtain ⟨-, hitems⟩ := every_tuple.mp hl
    have hread : ∀ l ∈ first :: second :: items, ∀ rest, Ends rest → Reads rest l.canonical.toList l.kinds :=
      fun l hmem rest h => l.reads (hitems l hmem) h
    simp only [canonical, kinds, canonicalAll_eq_map, kindsAll_eq_map, String.toList_append, List.append_assoc]
    exact .append .lparen (.append (.commaList hread rfl) .rparen)
  | .dict _ entries, hl, rest, h => by
    obtain ⟨-, hentries⟩ := every_dict.mp hl
    have hread : ∀ e ∈ entries, ∀ rest, Ends rest →
        Reads rest (e.1.canonical ++ ": " ++ e.2.canonical).toList (entryKinds e) := by
      rintro ⟨key, value⟩ hmem rest h
      obtain ⟨hkey, hvalue⟩ := hentries (key, value) hmem
      simp only [String.toList_append, List.append_assoc]
      exact .append (key.reads hkey rfl) (.append .colonSpace (value.reads hvalue h))
    simp only [canonical, kinds, canonicalEntries_eq_map, kindsEntries_eq_map, String.toList_append,
      List.append_assoc]
    exact .append .lbrace (.append (.commaList hread rfl) .rbrace)
termination_by l => sizeOf l
decreasing_by
  all_goals first
    | decreasing_tactic
    | -- an entry of a dictionary is a pair, which is one step more
      have := List.sizeOf_lt_of_mem hmem
      simp only [Prod.mk.sizeOf_spec, dict.sizeOf_spec] at *
      omega

/-! ## Expressions -/

/-- Whether an operand may start with a token of this kind. -/
def TokenKind.startsOperand : TokenKind → Bool
  | .operator op => op.isPrefix
  | .keyword .trueKw | .keyword .falseKw | .lparen | .lbracket | .lbrace | .ident _ | .int _ | .float _
  | .string _ => true
  | _ => false

theorem dottedKinds_eq_cons (name : String) : ∃ segment ks, dottedKinds name = .ident segment :: ks := by
  obtain ⟨segment, segments, hs⟩ := List.exists_cons_of_ne_nil (Text.segments_ne_nil name)
  rw [dottedKinds, hs]
  cases segments with
  | nil => exact ⟨segment, [], rfl⟩
  | cons next segments =>
    simp only [List.map_cons, List.intercalate_cons_cons]
    exact ⟨segment, _, rfl⟩

theorem Literal.kinds_eq_cons (l : Literal α) :
    ∃ k ks, l.kinds = k :: ks ∧ k.startsOperand = true ∧ ∀ op, k ≠ .operator op := by
  cases l with
  | bool _ value => cases value <;> exact ⟨_, _, rfl, rfl, by simp⟩
  | tuple _ items =>
    match items with
    | [] | [_] | _ :: _ :: _ => exact ⟨_, _, rfl, rfl, by simp⟩
  | _ => exact ⟨_, _, rfl, rfl, by simp⟩

/-- An expression starts as operands do, and with an operator only if it is a prefix operation. -/
theorem Expr.kinds_eq_cons : ∀ (e : Expr α), e.tree.Every Node.Sound →
    ∃ k ks, e.kinds = k :: ks ∧ k.startsOperand = true ∧ (e.isUnary = false → ∀ op, k ≠ .operator op)
  | .binary _ op left right, he => by
    obtain ⟨hop, hleft, -⟩ := every_binary.mp he
    by_cases hfetch : op = .fetch
    · subst hfetch
      rw [kinds]
      split
      · exact ⟨_, _, rfl, rfl, by simp⟩
      · rename_i hunary
        obtain ⟨k, ks, hk, hstart, hne⟩ := left.kinds_eq_cons hleft
        rw [hk]
        exact ⟨k, _, rfl, hstart, fun _ => hne (by simpa using hunary)⟩
    · rw [kinds]
      · exact ⟨_, _, rfl, rfl, by simp⟩
      · exact hfetch
  | .unary _ op operand, he => ⟨_, _, rfl, (every_unary.mp he).1, by simp [isUnary]⟩
  | .var _ name, _ => by
    obtain ⟨segment, ks, hk⟩ := dottedKinds_eq_cons name
    exact ⟨_, ks, hk, rfl, by simp⟩
  | .literal _ l, _ => by
    obtain ⟨k, ks, hk, hstart, hne⟩ := l.kinds_eq_cons
    exact ⟨k, ks, hk, hstart, fun _ => hne⟩
  | .call _ name args, _ => by
    obtain ⟨segment, ks, hk⟩ := dottedKinds_eq_cons name
    rw [kinds, hk]
    exact ⟨_, _, rfl, rfl, by simp⟩

theorem Lexeme.content_sign {c : Char} {cs : List Char} {k : TokenKind}
    (h : (sign c cs).1.content = .token k) : (∃ d, longSign? c d = some k) ∨ shortSign? c = some k := by
  rcases sign_cases c cs with ⟨-, hsign⟩ | ⟨second, behind, kind, -, hkind, hsign⟩ <;> rw [hsign] at h
  · unfold shortSign at h
    split at h <;> cases h
    exact .inr ‹_›
  · cases h
    exact .inl ⟨second, hkind⟩

theorem startsOperand_sign {c : Char} {k : TokenKind} (hc : c = '>' ∨ c = '=')
    (h : (∃ d, longSign? c d = some k) ∨ shortSign? c = some k) : k.startsOperand = false := by
  rcases h with ⟨d, h⟩ | h
  · unfold longSign? at h
    split at h <;> cases h <;> rfl
  · rcases hc with rfl | rfl <;> cases h <;> rfl

/-- The text of an operand does not start with what would lengthen the sign of a prefix operator. -/
theorem Lexeme.Reads.head_ne {cs : List Char} {k : TokenKind} {ks : List TokenKind}
    (h : Reads rest cs (k :: ks)) (hk : k.startsOperand = true) : ∀ c ∈ (cs ++ rest).head?, c ≠ '>' ∧ c ≠ '=' := by
  intro c hc
  rw [← not_or]
  intro hsign
  cases h with
  | gap hgap _ =>
    cases hc
    rcases hsign with rfl | rfl <;> cases hgap
  | @token _ text _ _ _ _ hfirst _ =>
    cases hc
    rw [first_eq_sign (by rcases hsign with rfl | rfl <;> rfl)] at hfirst
    have hcontent := content_sign (congrArg (·.1.content) hfirst)
    rw [startsOperand_sign hsign hcontent] at hk
    cases hk

/-- The canonical form of an expression is read as its tokens. -/
theorem Expr.reads : ∀ (e : Expr α), e.tree.Every Node.Legible → ∀ {rest : List Char}, Ends rest →
    Reads rest e.canonical.toList e.kinds
  | .binary _ op left right, he, rest, h => by
    obtain ⟨hop, hleft, hright⟩ := every_binary.mp he
    have hl : ∀ {rest : List Char}, Ends rest → Reads rest left.canonical.toList left.kinds :=
      fun h => left.reads hleft h
    have hr : ∀ {rest : List Char}, Ends rest → Reads rest right.canonical.toList right.kinds :=
      fun h => right.reads hright h
    by_cases hfetch : op = .fetch
    · subst hfetch
      simp only [canonical, kinds, String.toList_append, List.append_assoc]
      refine .append ?_ (.append .lbracket (.append (hr rfl) .rbracket))
      split
      · simp only [String.toList_append, List.append_assoc]
        exact .append .lparen (.append (hl rfl) .rparen)
      · exact hl rfl
    · have hbetween : op.isInfix = true := hop.1.resolve_right hfetch
      rw [canonical, kinds]
      · simp only [String.toList_append, List.append_assoc]
        refine .append .lparen (.append (hl ?_) (.append .space (.append (.infixOperator hbetween)
          (.append .space (.append (hr ?_) .rparen)))))
        · rfl
        · rfl
      · exact hfetch
      · exact hfetch
  | .unary _ op operand, he, rest, h => by
    obtain ⟨hop, hoperand⟩ := every_unary.mp he
    have hread := operand.reads hoperand h
    obtain ⟨k, ks, hk, hstart, -⟩ := operand.kinds_eq_cons (hoperand.mono fun _ h => h.1)
    simp only [canonical, String.toList_append]
    refine .append (.prefixOperator hop.1 (Reads.head_ne (hk ▸ hread) hstart)) hread
  | .var _ name, he, rest, h => .dotted he.label.1 h
  | .literal _ l, he, rest, h => l.reads (every_literal.mp he).2 h
  | .call _ name args, he, rest, h => by
    obtain ⟨hname, hargs⟩ := every_call.mp he
    have hread : ∀ e ∈ args, ∀ rest, Ends rest → Reads rest e.canonical.toList e.kinds :=
      fun e hmem rest h => e.reads (hargs e hmem) h
    simp only [canonical, kinds, canonicalAll_eq_map, kindsAll_eq_map, String.toList_append, List.append_assoc]
    exact .append (.dotted hname.1 rfl) (.append .lparen (.append (.commaList hread rfl) .rparen))

/-- The canonical form of a value is read as its tokens. -/
theorem Value.reads (v : Value α) (hv : v.tree.Every Node.Legible) (h : Ends rest) :
    Reads rest v.canonical.toList v.kinds := by
  cases v with
  | literal l => exact l.reads hv h
  | expr e => exact e.reads hv h

/-! ## Brackets are balanced -/

theorem balanced_dottedKinds (name : String) : Balanced (dottedKinds name) := by
  refine .intercalate rfl fun ks hks => ?_
  obtain ⟨segment, -, rfl⟩ := List.mem_map.mp hks
  exact .single rfl

theorem balanced_commaKinds {ι : Type} {items : List ι} {kinds : ι → List TokenKind}
    (h : ∀ i ∈ items, Balanced (kinds i)) : Balanced (commaKinds (items.map kinds)) := by
  refine .intercalate rfl fun ks hks => ?_
  obtain ⟨i, hi, rfl⟩ := List.mem_map.mp hks
  exact h i hi

theorem TypeExpr.balanced (t : TypeExpr α) : Balanced t.kinds := by
  cases t with
  | builtin _ type => exact balanced_dottedKinds _
  | custom _ name => exact balanced_dottedKinds _
  | list _ element => exact (Balanced.brackets .nil).append element.balanced
  | map _ key value =>
    have h := (Balanced.brackets key.balanced).append value.balanced
    rwa [List.cons_append, List.append_assoc, List.singleton_append] at h
  | tuple _ elements =>
    rw [kinds, kindsAll_eq_map]
    exact .parens (balanced_commaKinds fun t _ => t.balanced)

theorem Literal.balanced : ∀ l : Literal α, Balanced l.kinds
  | .bool _ true | .bool _ false | .int .. | .float .. | .string .. => .single rfl
  | .list _ items => by
    rw [kinds, kindsAll_eq_map]
    exact .brackets (balanced_commaKinds fun l _ => l.balanced)
  | .tuple _ [] => .parens .nil
  | .tuple _ [item] => by
    have h := Balanced.parens (item.balanced.append (.single (k := .comma) rfl))
    rwa [List.append_assoc, List.singleton_append] at h
  | .tuple _ (first :: second :: items) => by
    rw [kinds, kindsAll_eq_map]
    · exact .parens (balanced_commaKinds fun l _ => l.balanced)
    · simp
  | .dict _ entries => by
    rw [kinds, kindsEntries_eq_map]
    refine .braces (balanced_commaKinds ?_)
    rintro ⟨key, value⟩ hmem
    exact key.balanced.append (.cons rfl value.balanced)
termination_by l => sizeOf l
decreasing_by
  all_goals first
    | decreasing_tactic
    | have := List.sizeOf_lt_of_mem hmem
      simp only [Prod.mk.sizeOf_spec, dict.sizeOf_spec] at *
      omega

theorem Expr.balanced (e : Expr α) : Balanced e.kinds := by
  cases e with
  | binary _ op left right =>
    have hleft := left.balanced
    have hright := right.balanced
    by_cases hfetch : op = .fetch
    · subst hfetch
      rw [kinds]
      refine .append ?_ (.brackets hright)
      split
      · exact .parens hleft
      · exact hleft
    · rw [kinds]
      · have h := Balanced.parens (hleft.append (.cons (k := .operator op) rfl hright))
        rwa [List.append_assoc, List.cons_append] at h
      · exact hfetch
  | unary _ op operand => exact .cons rfl operand.balanced
  | var _ name => exact balanced_dottedKinds name
  | literal _ l => exact l.balanced
  | call _ name args =>
    rw [kinds, kindsAll_eq_map]
    exact (balanced_dottedKinds name).append (.parens (balanced_commaKinds fun e _ => e.balanced))

theorem Value.balanced (v : Value α) : Balanced v.kinds := by
  cases v with
  | literal l => exact l.balanced
  | expr e => exact e.balanced

end QiIdl
