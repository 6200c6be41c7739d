import QiIdl.Proofs.Ast.Forest

/-!
# Spans of a file

The spans in the arena of a file that was read fit together (`Ast.Spanned`): they start and end with tokens, they are
nested as the nodes are, what stands side by side is in the order of the source, and a token that is not layout
belongs to exactly one node at the top.

All of this comes from where the trees lie. Tokens stand one behind the other, so a tree that lies on some of them
has their bounds (`Span.Bounds`), and trees on disjoint stretches have disjoint spans. The arena also holds expressions
that a literal was read as and that nothing leads to. They lie where the literal does.
-/

namespace QiIdl

/-! ## Bounds of tokens -/

namespace Span

/-- A span is inside another. -/
def Within (a b : Span) : Prop := b.start ≤ a.start ∧ a.stop ≤ b.stop

instance (a b : Span) : Decidable (a.Within b) := inferInstanceAs (Decidable (_ ∧ _))

/-- A span ends before another starts. -/
def Before (a b : Span) : Prop := a.stop ≤ b.start

instance (a b : Span) : Decidable (a.Before b) := inferInstanceAs (Decidable (_ ≤ _))

/-- A span is as long as some tokens are: it starts with one of them, ends with one of them, and has all of them
inside. It is not empty. -/
structure Bounds (s : Span) (toks : List Token) : Prop where
  start : ∃ t ∈ toks, s.start = t.span.start
  stop : ∃ t ∈ toks, s.stop = t.span.stop
  within : ∀ t ∈ toks, t.span.Within s
  filled : s.start < s.stop

variable {a b s : Span} {t : Token} {toks more : List Token}

theorem Bounds.within_of_subset (ha : a.Bounds toks) (hb : b.Bounds more) (hsub : toks ⊆ more) : a.Within b := by
  obtain ⟨t, ht, hstart⟩ := ha.start
  obtain ⟨u, hu, hstop⟩ := ha.stop
  rw [Within, hstart, hstop]
  exact ⟨(hb.within t (hsub ht)).1, (hb.within u (hsub hu)).2⟩

theorem Bounds.before (ha : a.Bounds toks) (hb : b.Bounds more)
    (h : ∀ t ∈ toks, ∀ u ∈ more, t.span.stop ≤ u.span.start) : a.Before b := by
  obtain ⟨t, ht, hstop⟩ := ha.stop
  obtain ⟨u, hu, hstart⟩ := hb.start
  rw [Before, hstop, hstart]
  exact h t ht u hu

end Span

namespace Ordered

variable {s : Span} {toks seg : List Token} {t : Token}

theorem sublist (h : Ordered toks) (hseg : List.Sublist seg toks) : Ordered seg where
  apart := h.apart.sublist hseg
  forward := fun t ht => h.forward t (hseg.subset ht)
  filled := fun t ht => h.filled t (hseg.subset ht)
  ending := h.ending.sublist hseg

theorem filled_of_not_isLayout (h : Ordered toks) (ht : t ∈ toks) (hkind : t.kind.isLayout = false) :
    t.span.start < t.span.stop := by
  apply h.filled t ht
  · intro heq
    rw [heq] at hkind
    cases hkind
  · exact TokenKind.ne_eof_of_not_isLayout hkind

/-- No token starts before the first. -/
theorem start_le (h : Ordered (t :: toks)) : ∀ u ∈ t :: toks, t.span.start ≤ u.span.start := by
  intro u hu
  rcases List.mem_cons.mp hu with rfl | hu
  · exact Nat.le_refl _
  · have hforward := h.forward t List.mem_cons_self
    exact Nat.le_trans hforward (List.rel_of_pairwise_cons h.apart hu)

/-- No token ends behind the last. -/
theorem stop_le (h : Ordered (toks ++ [t])) : ∀ u ∈ toks ++ [t], u.span.stop ≤ t.span.stop := by
  intro u hu
  rcases List.mem_append.mp hu with hu | hu
  · have hforward := h.forward t (List.mem_append_right _ (List.mem_singleton_self t))
    have happart := (List.pairwise_append.mp h.apart).2.2 u hu t (List.mem_singleton_self t)
    exact Nat.le_trans happart hforward
  · rw [List.mem_singleton.mp hu]

/-- A span that reaches from the first of some tokens to the last has their bounds. -/
theorem bounds (h : Ordered toks) (hs : s.Covers toks) : s.Bounds toks := by
  obtain ⟨start, hopens, last, hlast, rfl⟩ := hs
  obtain ⟨first, hfirst, rfl⟩ := Option.map_eq_some_iff.mp hopens.first
  obtain ⟨init, rfl⟩ := List.getLast?_eq_some_iff.mp hlast
  obtain ⟨tail, htail⟩ := List.head?_eq_some_iff.mp hfirst
  have hfirst := List.mem_of_mem_head? hfirst
  have hlast := List.mem_of_mem_getLast? hlast
  have hstart : ∀ u ∈ init ++ [last], first.span.start ≤ u.span.start := by
    rw [htail] at h ⊢
    exact h.start_le
  have hstop := h.stop_le
  have hmerge : first.span.merge last.span = ⟨first.span.start, last.span.stop⟩ := by
    rw [Span.merge, Nat.min_eq_left (hstart last hlast), Nat.max_eq_right (hstop first hfirst)]
  rw [hmerge]
  refine ⟨⟨first, hfirst, rfl⟩, ⟨last, hlast, rfl⟩, fun u hu => ⟨hstart u hu, hstop u hu⟩, ?_⟩
  obtain ⟨u, hu, hkind⟩ := hopens.solid
  calc first.span.start ≤ u.span.start := hstart u hu
    _ < u.span.stop := h.filled_of_not_isLayout hu hkind
    _ ≤ last.span.stop := hstop u hu

end Ordered

/-! ## Trees on tokens in order -/

namespace Tree

variable {β : Type} {span : β → Span} {t : Tree β} {ts : List (Tree β)} {toks seg : List Token}

theorem Lies.children (h : t.Lies span toks) : LiesAll span t.children toks := by
  obtain ⟨b, ts⟩ := t
  exact h.2

theorem Lies.bounds (h : t.Lies span seg) (hseg : List.Sublist seg toks) (hordered : Ordered toks) :
    (span t.label).Bounds seg :=
  (hordered.sublist hseg).bounds h.covers

/-- Whatever is below the trees lies somewhere on their tokens. -/
theorem LiesAll.exists_lies_subtrees (h : LiesAll span ts toks) :
    ∀ t ∈ subtreesAll ts, ∃ seg, List.Sublist seg toks ∧ t.Lies span seg := by
  refine forall_subtreesAll ?_ ts h.exists_lies
  rintro t ⟨seg, hseg, ht⟩ u hu
  obtain ⟨seg', hseg', hu⟩ := ht.children.exists_lies u hu
  exact ⟨seg', hseg'.trans hseg, hu⟩

/-- Trees that lie one behind the other have their spans in order. -/
theorem LiesAll.pairwise (h : LiesAll span ts toks) (hordered : Ordered toks) :
    ts.Pairwise fun t u => (span t.label).Before (span u.label) := by
  induction ts generalizing toks with
  | nil => exact .nil
  | cons t ts ih =>
    obtain ⟨gap, seg, rest, rfl, ht, hts⟩ := h
    have hafter := hordered.sublist (List.sublist_append_right gap _)
    have hrest := hafter.sublist (List.sublist_append_right seg rest)
    refine .cons ?_ (ih hts hrest)
    intro u hu
    obtain ⟨seg', hseg', hu⟩ := hts.exists_lies u hu
    apply (ht.bounds (List.sublist_append_left seg rest) hafter).before (hu.bounds hseg' hrest)
    intro a ha b hb
    exact (List.pairwise_append.mp hafter.apart).2.2 a ha b (hseg'.subset hb)

theorem Filed.liesAll (h : Filed span ts toks) : LiesAll span ts toks := by
  induction ts generalizing toks with
  | nil => exact liesAll_nil
  | cons t ts ih =>
    obtain ⟨gap, seg, rest, rfl, -, ht, hts⟩ := h
    exact ⟨gap, seg, rest, rfl, ht, ih hts⟩

/-- A token that is not layout is inside exactly one of the trees of a file. -/
theorem Filed.countP_within (h : Filed span ts toks) (hordered : Ordered toks) {tok : Token} (htok : tok ∈ toks)
    (hkind : tok.kind.isLayout = false) : ts.countP (fun t => tok.span.Within (span t.label)) = 1 := by
  have hfilled := hordered.filled_of_not_isLayout htok hkind
  induction ts generalizing toks with
  | nil =>
    have hlayout := h tok htok
    rw [hkind] at hlayout
    cases hlayout
  | cons t ts ih =>
    obtain ⟨gap, seg, rest, rfl, hgap, ht, hts⟩ := h
    have hafter := hordered.sublist (List.sublist_append_right gap _)
    have hrest := hafter.sublist (List.sublist_append_right seg rest)
    have hapart := (List.pairwise_append.mp hafter.apart).2.2
    have hbounds := ht.bounds (List.sublist_append_left seg rest) hafter
    rw [List.countP_cons]
    rcases List.mem_append.mp htok with htok | htok
    · -- what stands between the trees is layout
      have hlayout := hgap tok htok
      rw [hkind] at hlayout
      cases hlayout
    · rcases List.mem_append.mp htok with htok | htok
      · have hothers : ts.countP (fun t => tok.span.Within (span t.label)) = 0 := by
          rw [List.countP_eq_zero]
          intro u hu
          obtain ⟨seg', hseg', hu⟩ := hts.liesAll.exists_lies u hu
          obtain ⟨v, hv, hstart⟩ := (hu.bounds hseg' hrest).start
          have hbefore := hapart tok htok v (hseg'.subset hv)
          rw [decide_eq_true_iff, Span.Within, hstart]
          omega
        rw [hothers, if_pos (decide_eq_true (hbounds.within tok htok))]
      · have hnot : ¬ tok.span.Within (span t.label) := by
          obtain ⟨v, hv, hstop⟩ := hbounds.stop
          have hbefore := hapart v hv tok htok
          rw [Span.Within, hstop]
          omega
        rw [ih hts hrest htok, if_neg (by simpa using hnot)]

end Tree

/-! ## Arenas -/

namespace Ast

/-- The spans of an arena fit some tokens. -/
structure Spanned (toks : List Token) (ast : Ast) : Prop where
  start : ∀ n ∈ ast.nodes, ∃ t ∈ toks, n.tag.span.start = t.span.start
  stop : ∀ n ∈ ast.nodes, ∃ t ∈ toks, n.tag.span.stop = t.span.stop
  filled : ∀ n ∈ ast.nodes, n.tag.span.start < n.tag.span.stop
  nested : ∀ n ∈ ast.nodes, ∀ child ∈ n.children, child.tag.span.Within n.tag.span
  siblings : ∀ n ∈ ast.nodes, n.children.Pairwise fun a b => a.tag.span.Before b.tag.span
  roots : ast.roots.Pairwise fun a b => a.tag.span.Before b.tag.span
  whole : ∀ t ∈ toks, t.kind.isLayout = false → ast.roots.countP (fun n => t.span.Within n.tag.span) = 1

variable {ast : Ast} {toks : List Token} {n : Node Mark}

/-- The tree of each node of an arena lies somewhere on the tokens. -/
theorem exists_lies_of_mem (hlaid : Laid ast.nodes ast.trees) (h : Tree.LiesAll (·.tag.span) ast.trees toks)
    (hn : n ∈ ast.nodes) : ∃ seg, List.Sublist seg toks ∧ n.tree.Lies (·.tag.span) seg := by
  rcases hlaid.known n hn with hlabel | ⟨m, l, rfl, hl⟩
  · exact h.exists_lies_subtrees _ (tree_mem_subtreesAll (reaches_iff.mpr hlabel))
  · obtain ⟨seg, hseg, hlies⟩ := h.exists_lies_subtrees _ (tree_mem_subtreesAll (reaches_iff.mpr hl))
    have hcovers := hlies.covers
    rw [Node.label_tree] at hcovers
    refine ⟨seg, hseg, ?_, hlies.all⟩
    show Span.Covers m.span seg
    rw [hlaid.wrapped m l hn]
    exact hcovers

theorem spanned_of_filed (hlaid : Laid ast.nodes ast.trees) (h : Tree.Filed (·.tag.span) ast.trees toks)
    (hordered : Ordered toks) : ast.Spanned toks := by
  have hlies {n : Node Mark} (hn : n ∈ ast.nodes) := exists_lies_of_mem hlaid h.liesAll hn
  have hbounds {n : Node Mark} (hn : n ∈ ast.nodes) :
      ∃ seg, List.Sublist seg toks ∧ n.tag.span.Bounds seg ∧ Tree.LiesAll (·.tag.span) n.tree.children seg := by
    obtain ⟨seg, hseg, ht⟩ := hlies hn
    have hb := ht.bounds hseg hordered
    rw [Node.label_tree] at hb
    exact ⟨seg, hseg, hb, ht.children⟩
  constructor
  case start =>
    intro n hn
    obtain ⟨seg, hseg, hb, -⟩ := hbounds hn
    obtain ⟨t, ht, hstart⟩ := hb.start
    exact ⟨t, hseg.subset ht, hstart⟩
  case stop =>
    intro n hn
    obtain ⟨seg, hseg, hb, -⟩ := hbounds hn
    obtain ⟨t, ht, hstop⟩ := hb.stop
    exact ⟨t, hseg.subset ht, hstop⟩
  case filled =>
    intro n hn
    obtain ⟨seg, -, hb, -⟩ := hbounds hn
    exact hb.filled
  case nested =>
    intro n hn
    obtain ⟨seg, hseg, hb, hchildren⟩ := hbounds hn
    refine List.forall_mem_map.mpr fun t ht => ?_
    obtain ⟨part, hpart, hlies⟩ := hchildren.exists_lies t ht
    exact (hlies.bounds hpart (hordered.sublist hseg)).within_of_subset hb hpart.subset
  case siblings =>
    intro n hn
    obtain ⟨seg, hseg, -, hchildren⟩ := hbounds hn
    exact List.pairwise_map.mpr (hchildren.pairwise (hordered.sublist hseg))
  case roots =>
    rw [← map_label_trees]
    exact List.pairwise_map.mpr (h.liesAll.pairwise hordered)
  case whole =>
    intro t ht hkind
    rw [← map_label_trees, List.countP_map]
    exact h.countP_within hordered ht hkind

end Ast

/-- In a file that was read, spans start and end with tokens and are nested as the nodes are, and no token is lost. -/
theorem spanned_of_parseSource {source file : String} {ast : Ast} (h : parseSource source file = .ok ast) :
    ∃ toks, lex source = .ok toks ∧ ast.Spanned toks := by
  obtain ⟨toks, hlex, hread, -, -⟩ := parseSource_eq_ok h
  have hordered := ordered_of_lex hlex
  obtain ⟨hfiled, hlaid⟩ := parseTokens_filed hordered hread
  exact ⟨toks, hlex, Ast.spanned_of_filed hlaid hfiled hordered⟩

/-- A comment, operators around grouping brackets, documentation, and an object up to its `end`. -/
theorem spanned_of_parseSource_shed :
    let source := "# sizes\nconst area = -(w[0] + 2) * f(h)\n\n"
      ++ "## a shed\nobject Shed \"s\"\n prop door ((1, 2))\n at door hall\nend\n"
    ∃ ast, parseSource source "shed.qi" = .ok ast ∧ ast.roots.map (·.tag.span) = [⟨0, 7⟩, ⟨8, 39⟩, ⟨51, 104⟩] ∧
      ∃ toks, lex source = .ok toks ∧ ast.Spanned toks := by
  intro source
  have hcheck : (parseSource source "shed.qi").toOption.any
      (fun ast => ast.roots.map (·.tag.span) == [⟨0, 7⟩, ⟨8, 39⟩, ⟨51, 104⟩]) = true := by
    decide +kernel
  obtain ⟨ast, hread, hspans⟩ := exists_ok_of_any hcheck
  exact ⟨ast, hread, beq_iff_eq.mp hspans, spanned_of_parseSource hread⟩

end QiIdl
