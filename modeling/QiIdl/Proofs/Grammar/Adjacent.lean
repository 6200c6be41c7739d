import QiIdl.Proofs.Grammar.ReadBack.Values

/-!
# Two expressions side by side

Where two expressions stand side by side, the reader of the first takes as much as it can. The canonical forms of
two expressions are told apart only if it takes the first and no more (`eq_of_derives_append`): it cannot take less,
since it takes the longest expression, and if it takes a part of the second, then nothing that is left of the second
is an expression of its own.

The last is a fact about canonical forms: one can be cut in two, outside all brackets, only behind a prefix operator,
before an index, or inside a name or a call (`Expr.goesOn_of_kinds_eq_append`). So brackets are counted here as they
are when lines are told apart; what a reader takes is balanced, and a part of something balanced never closes more
than it has opened.
-/

namespace QiIdl

variable {k : TokenKind} {ts : List Token}

/-! ## Counting brackets -/

namespace Balanced

variable {us vs : List TokenKind}

/-- One level deeper at the start is one level deeper at the end, or else more was closed than was open. -/
theorem foldl_succ (ks : List TokenKind) (depth : Nat) :
    ks.foldl Layout.depthAfter (depth + 1) = ks.foldl Layout.depthAfter depth + 1 ∨
      ks.foldl Layout.depthAfter (depth + 1) = ks.foldl Layout.depthAfter depth := by
  induction ks generalizing depth with
  | nil => exact .inl rfl
  | cons k ks ih =>
    rw [List.foldl_cons, List.foldl_cons]
    cases k with
    | lparen | lbracket | lbrace => exact ih (depth + 1)
    | rparen | rbracket | rbrace =>
      cases depth with
      | zero => exact .inr rfl
      | succ depth => exact ih depth
    | _ => exact ih depth

/-- The front of balanced tokens leads no less deep from a deeper start. -/
theorem foldl_front_succ (h : Balanced (us ++ vs)) (depth : Nat) :
    us.foldl Layout.depthAfter (depth + 1) = us.foldl Layout.depthAfter depth + 1 := by
  rcases foldl_succ us depth with heq | heq
  · exact heq
  · have hall := h (depth + 1)
    rw [List.foldl_append, heq, ← List.foldl_append, h depth] at hall
    omega

/-- The front of balanced tokens closes nothing that it has not opened. -/
theorem le_foldl_front (h : Balanced (us ++ vs)) (depth : Nat) : depth ≤ us.foldl Layout.depthAfter depth := by
  induction depth with
  | zero => exact Nat.zero_le _
  | succ depth ih =>
    rw [h.foldl_front_succ]
    exact Nat.succ_le_succ ih

/-- Balanced tokens in brackets are not cut in two outside of all brackets. -/
theorem foldl_ne_of_enclosed {ks : List TokenKind} {o c : TokenKind} (hk : Balanced ks)
    (ho : ∀ depth, Layout.depthAfter depth o = depth + 1) (h : o :: (ks ++ [c]) = us ++ vs) (hus : us ≠ [])
    (hvs : vs ≠ []) : us.foldl Layout.depthAfter 0 ≠ 0 := by
  obtain ⟨u, us, rfl⟩ := List.exists_cons_of_ne_nil hus
  obtain ⟨rfl, hinner⟩ := List.cons.inj h
  -- the closing sign is the last of what comes behind the cut
  obtain ⟨vs', last, rfl⟩ := List.eq_nil_or_concat vs |>.resolve_left hvs
  rw [List.concat_eq_append, List.append_eq, ← List.append_assoc] at hinner
  obtain ⟨rfl, -⟩ := List.append_inj' hinner rfl
  have hle := hk.le_foldl_front 1
  rw [List.foldl_cons, ho, Nat.zero_add]
  omega

end Balanced

/-! ## What the grammar allows -/

/-- A kind that neither opens nor closes brackets nor ends a line. -/
structure TokenKind.IsInner (k : TokenKind) : Prop where
  depth : Layout.depthAfter 1 k = 1
  newline : k ≠ .newline
  eof : k ≠ .eof

/-- Tokens with balanced brackets, all on one line. -/
structure Tidy (ts : List Token) : Prop where
  balanced : Balanced (ts.map Token.kind)
  inline : ∀ t ∈ ts, t.kind ≠ .newline ∧ t.kind ≠ .eof

namespace Tidy

variable {ts us : List Token} {t l r : Token}

theorem nil : Tidy [] := ⟨.nil, List.forall_mem_nil _⟩

theorem append (ht : Tidy ts) (hu : Tidy us) : Tidy (ts ++ us) := by
  constructor
  · rw [List.map_append]
    exact ht.balanced.append hu.balanced
  · exact List.forall_mem_append.mpr ⟨ht.inline, hu.inline⟩

theorem single (ht : t.kind = k) (hk : k.IsInner) : Tidy [t] := by
  subst ht
  exact ⟨.single hk.depth, List.forall_mem_singleton.mpr ⟨hk.newline, hk.eof⟩⟩

theorem cons (ht : t.kind = k) (hk : k.IsInner) (hu : Tidy us) : Tidy (t :: us) :=
  (single ht hk).append hu

theorem enclose (h : Tidy ts) (hkinds : l.kind = .lparen ∧ r.kind = .rparen ∨ l.kind = .lbracket ∧ r.kind = .rbracket ∨
    l.kind = .lbrace ∧ r.kind = .rbrace) : Tidy (l :: ts ++ [r]) := by
  rcases hkinds with ⟨hl, hr⟩ | ⟨hl, hr⟩ | ⟨hl, hr⟩
  all_goals
    constructor
    · rw [List.cons_append, List.map_cons, List.map_append, List.map_singleton, hl, hr]
      first | exact .parens h.balanced | exact .brackets h.balanced | exact .braces h.balanced
    · rw [List.cons_append, List.forall_mem_cons, List.forall_mem_append, List.forall_mem_singleton, hl, hr]
      exact ⟨⟨nofun, nofun⟩, h.inline, nofun, nofun⟩

theorem comma (h : Tidy ts) (ht : t.kind = .comma) (hu : Tidy us) : Tidy (ts ++ t :: us) :=
  h.append (.cons ht ⟨rfl, nofun, nofun⟩ hu)

end Tidy

theorem Joined.tidy {parts : List (List Token)} (h : Joined parts ts) (hparts : ∀ p ∈ parts, Tidy p) : Tidy ts := by
  induction h with
  | single ts => exact hparts ts (List.mem_singleton_self ts)
  | cons hcomma _ ih =>
    obtain ⟨hp, hparts⟩ := List.forall_mem_cons.mp hparts
    exact hp.comma hcomma (ih hparts)

theorem Listed.tidy {parts : List (List Token)} (h : Listed parts ts) (hparts : ∀ p ∈ parts, Tidy p) : Tidy ts := by
  induction h with
  | nil => exact .nil
  | single ts => exact hparts ts (List.mem_singleton_self ts)
  | cons hcomma _ ih =>
    obtain ⟨hp, hparts⟩ := List.forall_mem_cons.mp hparts
    exact hp.comma hcomma (ih hparts)

theorem Dotted.tidy {s : String} (h : Dotted ts s) : Tidy ts := by
  induction h with
  | single ht => exact .single ht ⟨rfl, nofun, nofun⟩
  | snoc _ hdot ht ih =>
    exact ih.append (.cons hdot ⟨rfl, nofun, nofun⟩ (.single ht ⟨rfl, nofun, nofun⟩))

theorem Literal.Derives.tidy {l : Literal Span} (h : Literal.Derives ts l) : Tidy ts := by
  induction h with
  | int hkind | float hkind | string hkind | true hkind | false hkind =>
    exact .single hkind ⟨rfl, nofun, nofun⟩
  | list parts hl _ hlisted hr ih =>
    exact .enclose (hlisted.tidy (List.forall_mem_map.mpr ih)) (.inr (.inl ⟨hl, hr⟩))
  | tuple parts hl _ hlisted hr ih =>
    exact .enclose (hlisted.tidy (List.forall_mem_map.mpr ih)) (.inl ⟨hl, hr⟩)
  | dict parts hl _ hcolons _ hlisted hr hkeys hvalues =>
    refine .enclose (hlisted.tidy (List.forall_mem_map.mpr fun p hp => ?_)) (.inr (.inr ⟨hl, hr⟩))
    exact (hkeys p hp).append (.cons (hcolons p hp) ⟨rfl, nofun, nofun⟩ (hvalues p hp))

/-- Whether an operand may end with a token of this kind. -/
def TokenKind.endsOperand : TokenKind → Bool
  | .keyword .trueKw | .keyword .falseKw | .ident _ | .int _ | .float _ | .string _ => true
  | .rparen | .rbracket | .rbrace => true
  | _ => false

theorem endsOperand_concat (ts : List Token) {r : Token} (hr : r.kind = k) (hk : k.endsOperand = true) :
    ∀ t ∈ (ts ++ [r]).getLast?, t.kind.endsOperand = true := by
  intro t ht
  rw [List.getLast?_concat] at ht
  cases ht
  rwa [hr]

theorem Dotted.endsOperand {s : String} (h : Dotted ts s) : ∀ t ∈ ts.getLast?, t.kind.endsOperand = true := by
  cases h with
  | single hkind => exact endsOperand_concat [] hkind rfl
  | @snoc ts dot t _ _ _ _ hkind =>
    rw [List.append_cons ts dot [t]]
    exact endsOperand_concat _ hkind rfl

theorem Literal.Derives.endsOperand {l : Literal Span} (h : Literal.Derives ts l) :
    ∀ t ∈ ts.getLast?, t.kind.endsOperand = Bool.true := by
  cases h with
  | int hkind | float hkind | string hkind | true hkind | false hkind => exact endsOperand_concat [] hkind rfl
  | list _ _ _ _ hr | tuple _ _ _ _ hr | dict _ _ _ _ _ _ hr => exact endsOperand_concat _ hr rfl

namespace Expr.Derives

variable {n : Nat} {ts : List Token} {e : Expr Span}

theorem tidy (h : Derives n ts e) : Tidy ts := by
  induction h with
  | tighter _ ih => exact ih
  | binary _ ho _ _ ihl ihr => exact ihl.append (.cons ho ⟨rfl, nofun, nofun⟩ ihr)
  | unary ho _ _ ih => exact .cons ho ⟨rfl, nofun, nofun⟩ ih
  | fetch _ hl _ hr ihl ihr => exact ihl.append (.enclose ihr (.inr (.inl ⟨hl, hr⟩)))
  | group hl _ hr ih => exact .enclose ih (.inl ⟨hl, hr⟩)
  | name hdotted => exact hdotted.tidy
  | call parts hdotted hl _ hjoined hr ih =>
    refine hdotted.tidy.append (.enclose ?_ (.inl ⟨hl, hr⟩))
    rcases hjoined with ⟨-, rfl⟩ | hjoined
    · exact .nil
    · exact hjoined.tidy (List.forall_mem_map.mpr ih)
  | literal hl _ => exact hl.tidy
  | unit hl hr => exact Tidy.nil.enclose (.inl ⟨hl, hr⟩)
  | tuple parts hl _ hcomma _ hlisted hr ihfirst ih =>
    exact .enclose (ihfirst.comma hcomma (hlisted.tidy (List.forall_mem_map.mpr ih))) (.inl ⟨hl, hr⟩)

/-- An expression ends as operands do. -/
theorem endsOperand (h : Derives n ts e) : ∀ t ∈ ts.getLast?, t.kind.endsOperand = true := by
  induction h with
  | tighter _ ih => exact ih
  | binary _ _ _ hright _ ih =>
    obtain ⟨u, us, rfl, -⟩ := hright.exists_cons
    rw [List.getLast?_append_of_ne_nil _ (List.cons_ne_nil _ _), List.getLast?_cons_cons]
    exact ih
  | unary _ _ he ih =>
    obtain ⟨u, us, rfl, -⟩ := he.exists_cons
    rw [List.getLast?_cons_cons]
    exact ih
  | fetch _ _ _ hr | call _ _ _ _ _ hr =>
    rw [← List.append_assoc]
    exact endsOperand_concat _ hr rfl
  | group _ _ hr | tuple _ _ _ _ _ _ hr => exact endsOperand_concat _ hr rfl
  | name hdotted => exact hdotted.endsOperand
  | literal hl _ => exact hl.endsOperand
  | @unit l r _ hr => exact endsOperand_concat [l] hr rfl

/-- An expression that goes on does not end where it goes on. -/
theorem not_ends_of_append {us : List Token} {e' : Expr Span} (h : Derives 0 ts e) (hus : us ≠ [])
    (hall : Derives 0 (ts ++ us) e') : ¬ Ends 0 ts (headKind (us.map Token.kind)) := by
  intro hends
  -- both are what the reader gives on the same tokens
  let c : Cursor Unit := ⟨ts ++ us, .point 0, [], ()⟩
  let c₁ : Cursor Unit := ⟨us, (ts.getLast?.map Token.span).getD (.point 0), [], ()⟩
  let c₂ : Cursor Unit := ⟨[], ((ts ++ us).getLast?.map Token.span).getD (.point 0), [], ()⟩
  have hreads₁ : c.Reads ts c₁ := ⟨⟨rfl, rfl⟩, rfl⟩
  have hreads₂ : c.Reads (ts ++ us) c₂ := ⟨⟨(List.append_nil _).symm, rfl⟩, rfl⟩
  have hpeek : c₁.peek.kind = headKind (us.map Token.kind) := by
    obtain ⟨u, us, rfl⟩ := List.exists_cons_of_ne_nil hus
    rfl
  have hok₁ := (recognizes_parse _ c (Nat.le_refl _) e c₁).mpr ⟨ts, hreads₁, h, hpeek ▸ hends⟩
  have hok₂ := (recognizes_parse _ c (Nat.le_refl _) e' c₂).mpr
    ⟨_, hreads₂, hall, .of_delimiter (.inr (.inr (.inr rfl)))⟩
  have hsame : c₁ = c₂ := (EStateM.Result.ok.inj (hok₁.symm.trans hok₂)).2
  exact hus (congrArg Cursor.rest hsame)

end Expr.Derives

/-! ## Cutting canonical forms -/

variable {α : Type} {us vs ws : List TokenKind}

/-- What ends at a cut is not over: it does not end as operands do, or what comes next goes on with it. -/
def GoesOn (us vs : List TokenKind) : Prop :=
  (∃ k ∈ us.getLast?, k.endsOperand = false) ∨ headKind vs = .lbracket ∨
    (∃ s, us.getLast? = some (.ident s)) ∧ (headKind vs = .lparen ∨ headKind vs = .dot)

theorem GoesOn.behind (h : GoesOn us vs) (hus : us ≠ []) (ws : List TokenKind) : GoesOn (ws ++ us) vs := by
  rw [GoesOn, List.getLast?_append_of_ne_nil _ hus]
  exact h

theorem GoesOn.before (h : GoesOn us vs) (hvs : vs ≠ []) (ws : List TokenKind) : GoesOn us (vs ++ ws) := by
  rw [GoesOn, headKind_append hvs]
  exact h

theorem goesOn_of_segments : ∀ {segments : List String} {us vs : List TokenKind},
    [TokenKind.dot].intercalate (segments.map fun s => [.ident s]) = us ++ vs → us ≠ [] → vs ≠ [] → GoesOn us vs
  | [], us, vs, h, hus, _ => by
    rw [List.map_nil, List.intercalate_nil] at h
    exact absurd (List.append_eq_nil_iff.mp h.symm).1 hus
  | [s], us, vs, h, hus, hvs => by
    obtain ⟨u, us, rfl⟩ := List.exists_cons_of_ne_nil hus
    rw [List.map_singleton, List.intercalate_singleton, List.cons_append] at h
    have hnil := List.append_eq_nil_iff.mp (List.cons.inj h).2.symm
    exact absurd hnil.2 hvs
  | s :: s' :: segments, us, vs, h, hus, hvs => by
    have hcons :
        .ident s :: .dot :: [TokenKind.dot].intercalate ((s' :: segments).map fun s => [.ident s]) = us ++ vs := by
      rw [← h, List.map_cons, List.map_cons, List.map_cons, List.intercalate_cons_cons]
      rfl
    match us, hus, hcons with
    | [u], _, hcons =>
      obtain ⟨hu, hvs⟩ := List.cons.inj hcons
      subst hu hvs
      exact .inr (.inr ⟨⟨s, rfl⟩, .inr rfl⟩)
    | [u, d], _, hcons =>
      obtain ⟨-, hcons⟩ := List.cons.inj hcons
      obtain ⟨hd, -⟩ := List.cons.inj hcons
      subst hd
      exact .inl ⟨.dot, rfl, rfl⟩
    | u :: d :: u' :: us, _, hcons =>
      obtain ⟨-, hcons⟩ := List.cons.inj hcons
      obtain ⟨-, hcons⟩ := List.cons.inj hcons
      exact (goesOn_of_segments hcons (List.cons_ne_nil _ _) hvs).behind (List.cons_ne_nil _ _) [u, d]

/-- A name is cut before or behind a dot. -/
theorem goesOn_of_dottedKinds {name : String} (h : dottedKinds name = us ++ vs) (hus : us ≠ []) (hvs : vs ≠ []) :
    GoesOn us vs := goesOn_of_segments h hus hvs

/-- The last token of a name is a segment. -/
theorem getLast?_dottedKinds (name : String) : ∃ s, (dottedKinds name).getLast? = some (.ident s) := by
  have hsegments : ∀ segments : List String, segments ≠ [] →
      ∃ s, ([TokenKind.dot].intercalate (segments.map fun s => [.ident s])).getLast? = some (.ident s) := by
    intro segments hne
    obtain ⟨front, last, rfl⟩ := List.eq_nil_or_concat segments |>.resolve_left hne
    refine ⟨last, ?_⟩
    rw [List.concat_eq_append, List.map_append, List.map_singleton]
    by_cases hfront : front.map (fun s => [TokenKind.ident s]) = []
    · rw [hfront]
      rfl
    · rw [Text.intercalate_concat hfront, List.getLast?_concat]
  exact hsegments _ (Text.segments_ne_nil name)

/-- A literal is one token, or stands in brackets. -/
theorem Literal.kinds_cases (l : Literal α) : (∃ k, l.kinds = [k]) ∨
    ∃ o ks c, l.kinds = o :: (ks ++ [c]) ∧ Balanced ks ∧ ∀ depth, Layout.depthAfter depth o = depth + 1 := by
  cases l with
  | bool | int | float | string => exact .inl ⟨_, rfl⟩
  | list _ items =>
    rw [kinds, kindsAll_eq_map]
    exact .inr ⟨_, _, _, rfl, balanced_commaKinds fun l _ => l.balanced, fun _ => rfl⟩
  | tuple tag items =>
    cases items with
    | nil => exact .inr ⟨_, [], _, rfl, .nil, fun _ => rfl⟩
    | cons item items =>
      rw [kinds_tuple_cons, List.append_cons, ← List.append_assoc]
      refine .inr ⟨_, _, _, rfl, .append (item.balanced.append (.single rfl)) ?_, fun _ => rfl⟩
      exact balanced_commaKinds fun l _ => l.balanced
  | dict _ entries =>
    rw [kinds, kindsEntries_eq_map]
    refine .inr ⟨_, _, _, rfl, balanced_commaKinds fun e _ => ?_, fun _ => rfl⟩
    exact e.1.balanced.append (.cons rfl e.2.balanced)

/-- Behind balanced tokens, brackets are not cut in two: the cut is in what stands before them, or right there. -/
theorem cut_of_enclosed {front inner : List TokenKind} {o c : TokenKind} (hfront : Balanced front)
    (hinner : Balanced inner) (ho : ∀ depth, Layout.depthAfter depth o = depth + 1)
    (h : front ++ o :: (inner ++ [c]) = us ++ vs) (hvs : vs ≠ []) (hdepth : us.foldl Layout.depthAfter 0 = 0) :
    (∃ ws, ws ≠ [] ∧ front = us ++ ws ∧ vs = ws ++ o :: (inner ++ [c])) ∨ us = front ∧ vs = o :: (inner ++ [c]) := by
  rcases List.append_eq_append_iff.mp h with ⟨ws, hus, hcut⟩ | ⟨ws, hfrontEq, hvsEq⟩
  · by_cases hws : ws = []
    · subst hws
      rw [List.append_nil] at hus
      exact .inr ⟨hus, hcut.symm⟩
    · subst hus
      rw [List.foldl_append, hfront] at hdepth
      exact absurd hdepth (hinner.foldl_ne_of_enclosed ho hcut hws hvs)
  · by_cases hws : ws = []
    · subst hws
      rw [List.append_nil] at hfrontEq
      exact .inr ⟨hfrontEq.symm, hvsEq⟩
    · exact .inl ⟨ws, hws, hfrontEq, hvsEq⟩

/-- Outside of all brackets, a canonical form is cut only where it goes on. -/
theorem Expr.goesOn_of_kinds_eq_append : ∀ (e : Expr α) {us vs : List TokenKind}, e.kinds = us ++ vs → us ≠ [] →
    vs ≠ [] → us.foldl Layout.depthAfter 0 = 0 → GoesOn us vs
  | .binary _ op left right, us, vs, h, hus, hvs, hdepth => by
    by_cases hfetch : op = .fetch
    · subst hfetch
      rw [kinds] at h
      by_cases hunary : left.isUnary = true
      · rw [if_pos hunary] at h
        rcases cut_of_enclosed (.parens left.balanced) right.balanced (fun _ => rfl) h hvs hdepth with
          ⟨ws, hws, hfront, -⟩ | ⟨-, rfl⟩
        · exact absurd hdepth (left.balanced.foldl_ne_of_enclosed (fun _ => rfl) hfront hus hws)
        · exact .inr (.inl rfl)
      · rw [if_neg hunary] at h
        rcases cut_of_enclosed left.balanced right.balanced (fun _ => rfl) h hvs hdepth with
          ⟨ws, hws, hfront, rfl⟩ | ⟨-, rfl⟩
        · exact (left.goesOn_of_kinds_eq_append hfront hus hws hdepth).before hws _
        · exact .inr (.inl rfl)
    · have hinner : Balanced (left.kinds ++ .operator op :: right.kinds) :=
        left.balanced.append (.cons rfl right.balanced)
      have hcut : .lparen :: (left.kinds ++ .operator op :: right.kinds ++ [.rparen]) = us ++ vs := by
        rw [← h, kinds, List.append_assoc]
        · rfl
        · exact hfetch
      exact absurd hdepth (hinner.foldl_ne_of_enclosed (fun _ => rfl) hcut hus hvs)
  | .unary _ op operand, us, vs, h, hus, hvs, hdepth => by
    obtain ⟨u, us, rfl⟩ := List.exists_cons_of_ne_nil hus
    obtain ⟨rfl, hoperand⟩ := List.cons.inj h
    by_cases hnil : us = []
    · subst hnil
      exact .inl ⟨_, rfl, rfl⟩
    · exact (operand.goesOn_of_kinds_eq_append hoperand hnil hvs hdepth).behind hnil [_]
  | .var _ name, us, vs, h, hus, hvs, _ => goesOn_of_dottedKinds h hus hvs
  | .literal _ l, us, vs, h, hus, hvs, hdepth => by
    rcases l.kinds_cases with ⟨k, hk⟩ | ⟨o, ks, c, hk, hbalanced, ho⟩
    · obtain ⟨u, us, rfl⟩ := List.exists_cons_of_ne_nil hus
      rw [kinds, hk] at h
      exact absurd (List.append_eq_nil_iff.mp (List.cons.inj h).2.symm).2 hvs
    · rw [kinds, hk] at h
      exact absurd hdepth (hbalanced.foldl_ne_of_enclosed ho h hus hvs)
  | .call _ name args, us, vs, h, hus, hvs, hdepth => by
    have hargs : Balanced (commaKinds (args.map kinds)) := balanced_commaKinds fun e _ => e.balanced
    rw [kinds, kindsAll_eq_map] at h
    rcases cut_of_enclosed (balanced_dottedKinds name) hargs (fun _ => rfl) h hvs hdepth with
      ⟨ws, hws, hfront, rfl⟩ | ⟨rfl, rfl⟩
    · exact (goesOn_of_dottedKinds hfront hus hws).before hws _
    · exact .inr (.inr ⟨getLast?_dottedKinds name, .inl rfl⟩)

theorem Value.goesOn_of_kinds_eq_append (v : Value α) (h : v.kinds = us ++ vs) (hus : us ≠ []) (hvs : vs ≠ [])
    (hdepth : us.foldl Layout.depthAfter 0 = 0) : GoesOn us vs := by
  cases v with
  | literal l => exact Expr.goesOn_of_kinds_eq_append (.literal l.tag l) h hus hvs hdepth
  | expr e => exact e.goesOn_of_kinds_eq_append h hus hvs hdepth

/-! ## Side by side -/

/-- The tokens of the canonical form of a value are an expression. -/
theorem Value.exists_derives {v : Value α} (hv : v.tree.Every Node.Sound) (hkinds : ts.map Token.kind = v.kinds) :
    ∃ e, Expr.Derives 0 ts e := by
  have hexpr {e : Expr α} (he : e.tree.Every Node.Sound) (hkinds : ts.map Token.kind = e.kinds) :
      ∃ e', Expr.Derives 0 ts e' := by
    obtain ⟨e', h⟩ := e.exists_derives he hkinds
    exact ⟨e', h.derives.loosen (Nat.zero_le _)⟩
  cases v with
  | literal l => exact hexpr (e := .literal l.tag l) (Expr.every_literal.mpr ⟨trivial, hv⟩) hkinds
  | expr e => exact hexpr hv hkinds

/-- If the canonical forms of two values stand side by side and are read as two expressions, the first of which ends
where the second begins, then each expression is read from the tokens of one value. -/
theorem eq_of_derives_append {sender receiver : Value α} (hsender : sender.tree.Every Node.Sound)
    {ss rs ts us : List Token} (hss : ss.map Token.kind = sender.kinds) (hrs : rs.map Token.kind = receiver.kinds)
    (h : ts ++ us = ss ++ rs) {e e' : Expr Span} (hts : Expr.Derives 0 ts e) (hus : Expr.Derives 0 us e')
    (hends : Expr.Ends 0 ts (headKind (us.map Token.kind))) : ts = ss ∧ us = rs := by
  obtain ⟨s, hs⟩ := Value.exists_derives hsender hss
  have hne : us ≠ [] := by
    obtain ⟨t, us', rfl, -⟩ := hus.exists_cons
    exact List.cons_ne_nil _ _
  rcases List.append_eq_append_iff.mp h with ⟨ws, hssEq, husEq⟩ | ⟨ws, htsEq, hrsEq⟩
  · by_cases hws : ws = []
    · subst hws
      exact ⟨by rw [hssEq, List.append_nil], husEq⟩
    · -- less than the first is not the longest expression
      subst hssEq husEq
      rw [List.map_append, headKind_append (by simpa using hws)] at hends
      exact absurd hends (hts.not_ends_of_append hws hs)
  · by_cases hws : ws = []
    · subst hws
      exact ⟨by rw [htsEq, List.append_nil], by rw [hrsEq, List.nil_append]⟩
    · -- a part of the second that goes on has been read, so what is next goes on with it
      exfalso
      subst htsEq hrsEq
      have hdepth : (ws.map Token.kind).foldl Layout.depthAfter 0 = 0 := by
        have hall := hts.tidy.balanced
        rw [List.map_append] at hall
        exact (Balanced.append_iff hs.tidy.balanced).mp hall 0
      have hlast {k : TokenKind} (hk : (ws.map Token.kind).getLast? = some k) :
          ∃ t ∈ (ss ++ ws).getLast?, t.kind = k := by
        rw [List.getLast?_map, Option.map_eq_some_iff] at hk
        obtain ⟨t, ht, hk⟩ := hk
        exact ⟨t, by rwa [List.getLast?_append_of_ne_nil _ hws], hk⟩
      rw [List.map_append] at hrs
      rcases receiver.goesOn_of_kinds_eq_append hrs.symm (by simpa using hws) (by simpa using hne) hdepth with
        ⟨k, hk, hnot⟩ | hbracket | ⟨⟨s, hk⟩, hnext⟩
      · obtain ⟨t, ht, rfl⟩ := hlast hk
        rw [hts.endsOperand t ht] at hnot
        cases hnot
      · exact hends.bracket hbracket
      · obtain ⟨t, ht, hkind⟩ := hlast hk
        obtain ⟨hparen, hdot⟩ := hends.name t ht s hkind
        exact hnext.elim hparen hdot

end QiIdl
