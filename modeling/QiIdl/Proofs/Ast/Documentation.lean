import QiIdl.Proofs.Ast.Spanned
import QiIdl.Proofs.Grammar.Documented

/-!
# Documentation of a file

A declaration has the documentation that stands in the stretch of source in front of it, and no other. `Ast.sites` lists
the declarations of a file with these stretches, in the order of the source: at the top a stretch reaches back to the
end of the item before, over comments, and inside of an interface it reaches back to the member before or to
the start of the interface, where documentation can only stand below the heading. Stretches never overlap, so no line of
documentation is attached twice, and none reaches over another item or out of a block (`Ast.Documented`).

Tokens and spans are brought together by places in the source that divide the tokens (`Divides`).
-/

namespace QiIdl

/-! ## Lines -/

/-- Lines one below the other, if there are any. -/
def joinedLines : List String → Option String
  | [] => none
  | line :: lines => some ("\n".intercalate (line :: lines))

theorem foldl_joinDoc (lines : List String) : lines.foldl joinDoc none = joinedLines lines := by
  have hgo (lines : List String) (acc : String) :
      lines.foldl joinDoc (some acc) = some ("\n".intercalate (acc :: lines)) := by
    induction lines generalizing acc with
    | nil => simp
    | cons line lines ih =>
      rw [List.foldl_cons, ← Text.intercalate_join]
      exact ih _
  cases lines with
  | nil => rfl
  | cons line lines => exact hgo lines line

/-- The lines of documentation in a stretch of the source. -/
def docsWithin (toks : List Token) (s : Span) : List String := docTexts (toks.filter fun t => t.span.Within s)

/-! ## Places between tokens -/

/-- A place in the source stands between some tokens and others. -/
structure Divides (place : Nat) (before after : List Token) : Prop where
  left : ∀ t ∈ before, t.span.stop ≤ place
  right : ∀ t ∈ after, place ≤ t.span.start

section

variable {start stop : Nat} {s : Span} {before gap seg after toks : List Token} {t : Token}

theorem Ordered.filled_of_docText? (h : Ordered toks) (ht : t ∈ toks) (hdoc : t.kind.docText?.isSome = true) :
    t.span.start < t.span.stop := by
  apply h.filled t ht
  · intro hkind
    simp [hkind, TokenKind.docText?] at hdoc
  · intro hkind
    simp [hkind, TokenKind.docText?] at hdoc

/-- Between two places there is the documentation of the tokens between them. -/
theorem docsWithin_of_divides (hordered : Ordered (before ++ (gap ++ after))) (hstart : Divides start before (gap ++ after))
    (hstop : Divides stop (before ++ gap) after) :
    docsWithin (before ++ (gap ++ after)) ⟨start, stop⟩ = docTexts gap := by
  -- documentation on either side is not inside, for it is not empty
  have hnone (part : List Token) (hpart : part ⊆ before ++ (gap ++ after))
      (hside : ∀ t ∈ part, t.span.Within ⟨start, stop⟩ → t.span.stop ≤ t.span.start) :
      docTexts (part.filter fun t => t.span.Within ⟨start, stop⟩) = [] := by
    rw [docTexts, List.filterMap_eq_nil_iff]
    intro t ht
    obtain ⟨ht, hwithin⟩ := List.mem_filter.mp ht
    have hempty := hside t ht (of_decide_eq_true hwithin)
    cases hdoc : t.kind.docText? with
    | none => rfl
    | some text =>
      have hfilled := hordered.filled_of_docText? (hpart ht) (by rw [hdoc]; rfl)
      omega
  have hgap : gap.filter (fun t => t.span.Within ⟨start, stop⟩) = gap := by
    rw [List.filter_eq_self]
    intro t ht
    exact decide_eq_true ⟨hstart.right t (List.mem_append_left _ ht), hstop.left t (List.mem_append_right _ ht)⟩
  have hbefore := hnone before (by simp) fun t ht hwithin =>
    Nat.le_trans (hstart.left t ht) hwithin.1
  have hafter := hnone after (by simp) fun t ht hwithin =>
    Nat.le_trans hwithin.2 (hstop.right t ht)
  rw [docsWithin, List.filter_append, List.filter_append, docTexts_append, docTexts_append, hgap, hbefore, hafter,
    List.nil_append, List.append_nil]

/-- The ends of a span that covers some tokens stand between these and the others. -/
theorem Span.Covers.divides (hs : s.Covers seg) (hordered : Ordered (before ++ (seg ++ after))) :
    Divides s.start before (seg ++ after) ∧ Divides s.stop (before ++ seg) after := by
  obtain ⟨hfront, hback, hacross⟩ := List.pairwise_append.mp hordered.apart
  obtain ⟨-, -, hbehind⟩ := List.pairwise_append.mp hback
  have hsub : List.Sublist seg (before ++ (seg ++ after)) :=
    (List.sublist_append_left seg after).trans (List.sublist_append_right before _)
  have hbounds := (hordered.sublist hsub).bounds hs
  obtain ⟨t, ht, hstart⟩ := hbounds.start
  obtain ⟨u, hu, hstop⟩ := hbounds.stop
  have hforward := hbounds.filled
  constructor
  · constructor
    · intro v hv
      rw [hstart]
      exact hacross v hv t (List.mem_append_left _ ht)
    · intro v hv
      rcases List.mem_append.mp hv with hv | hv
      · exact (hbounds.within v hv).1
      · have := hbehind u hu v hv
        omega
  · constructor
    · intro v hv
      rcases List.mem_append.mp hv with hv | hv
      · have := hacross v hv t (List.mem_append_left _ ht)
        omega
      · exact (hbounds.within v hv).2
    · intro v hv
      rw [hstop]
      exact hbehind u hu v hv

/-- Documentation below a heading is on a later line. -/
theorem DocumentedIn.below_heading {ds : List Documentable} (h : DocumentedIn s ds toks) (hordered : Ordered toks)
    (hds : ds ≠ []) (ht : t ∈ toks) (hdoc : t.kind.docText?.isSome = true) (hwithin : t.span.Within s) :
    ∃ u ∈ toks, u.kind = .newline ∧ u.span.Within s ∧ u.span.Before t.span := by
  obtain ⟨before, seg, after, rfl, hcovers, -, hheading⟩ := h
  obtain ⟨hstart, -⟩ := hcovers.divides hordered
  obtain ⟨heading, body, hparts, hplain, u, hu, hkind⟩ := hheading hds
  rw [hparts] at hordered hstart ht ⊢
  obtain ⟨-, hinside, -⟩ := List.pairwise_append.mp hordered.apart
  have hfilled := hordered.filled_of_docText? ht hdoc
  rcases List.mem_append.mp ht with ht | ht
  · have := hstart.left t ht
    have := hwithin.1
    omega
  rcases List.mem_append.mp ht with ht | ht
  · rw [List.filterMap_eq_nil_iff.mp hplain t ht] at hdoc
    cases hdoc
  · have hu' : u ∈ heading ++ body := List.mem_append_left _ hu
    have hbefore : u.span.Before t.span := (List.pairwise_append.mp hinside).2.2 u hu t ht
    have hstop : u.span.stop ≤ s.stop := Nat.le_trans hbefore (Nat.le_trans (Nat.le_of_lt hfilled) hwithin.2)
    exact ⟨u, List.mem_append_right _ hu', hkind, ⟨hstart.right u hu', hstop⟩, hbefore⟩

end

/-! ## Declarations with the stretches in front of them -/

/-- A declaration, and the stretch of source where its documentation can stand. -/
structure Site where
  gap : Span
  node : Node Mark

/-- Declarations in a row, each with the stretch back to the one before, and the first with the stretch back to
`start`. -/
def row (start : Nat) : List (Node Mark) → List Site
  | [] => []
  | n :: ns => ⟨⟨start, n.tag.span.start⟩, n⟩ :: row n.tag.span.stop ns

/-- Items in a row, as in `row`, and behind each one its members, with the stretches inside of it. -/
def sitesFrom (start : Nat) : List (Node Mark) → List Site
  | [] => []
  | n :: ns => ⟨⟨start, n.tag.span.start⟩, n⟩ :: (row n.tag.span.start n.memberNodes ++ sitesFrom n.tag.span.stop ns)

/-- The declarations of a file, in the order of the source. -/
def Ast.sites (ast : Ast) : List Site := sitesFrom 0 (ast.roots.filter Node.isSolid)

/-- Documentation and declarations of a file belong together. All items but comments are there, with the members of
interfaces. Where documentation is kept it is what stands in the stretch in front of the declaration, and no line stands
in front of two. A stretch does not reach over another item or into it, unless the declaration is a member there and the
stretch stays inside, where documentation starts below the heading. -/
structure Ast.Documented (toks : List Token) (ast : Ast) : Prop where
  all : ast.sites.map Site.node = (ast.roots.filter Node.isSolid).flatMap fun n => n :: n.memberNodes
  docs : ∀ s ∈ ast.sites, s.node.sort.takesDoc = true → s.node.doc? = joinedLines (docsWithin toks s.gap)
  once : ∀ t ∈ toks, t.kind.docText?.isSome = true → ast.sites.countP (fun s => t.span.Within s.gap) ≤ 1
  clear : ∀ s ∈ ast.sites, ∀ n ∈ ast.roots, n.isSolid = true →
    n.tag.span.Before s.gap ∨ s.gap.Before n.tag.span ∨ (s.node ∈ n.memberNodes ∧ s.gap.Within n.tag.span)
  below : ∀ n ∈ ast.roots, n.memberNodes ≠ [] →
    ∀ t ∈ toks, t.kind.docText?.isSome = true → t.span.Within n.tag.span →
      ∃ u ∈ toks, u.kind = .newline ∧ u.span.Within n.tag.span ∧ u.span.Before t.span

section

variable {start stop : Nat} {ns : List (Node Mark)} {s : Site}

theorem map_node_row (start : Nat) (ns : List (Node Mark)) : (row start ns).map Site.node = ns := by
  induction ns generalizing start with
  | nil => rfl
  | cons n ns ih => rw [row, List.map_cons, ih]

theorem map_node_sitesFrom (start : Nat) (ns : List (Node Mark)) :
    (sitesFrom start ns).map Site.node = ns.flatMap fun n => n :: n.memberNodes := by
  induction ns generalizing start with
  | nil => rfl
  | cons n ns ih => rw [sitesFrom, List.map_cons, List.map_append, map_node_row, ih, List.flatMap_cons, List.cons_append]

theorem mem_of_mem_sitesFrom (h : s ∈ sitesFrom start ns) :
    s ∈ row start ns ∨ ∃ n ∈ ns, s ∈ row n.tag.span.start n.memberNodes := by
  induction ns generalizing start with
  | nil => cases h
  | cons n ns ih =>
    rw [sitesFrom] at h
    rcases List.mem_cons.mp h with rfl | h
    · exact .inl List.mem_cons_self
    rcases List.mem_append.mp h with h | h
    · exact .inr ⟨n, List.mem_cons_self, h⟩
    rcases ih h with h | ⟨m, hm, h⟩
    · exact .inl (List.mem_cons_of_mem _ h)
    · exact .inr ⟨m, List.mem_cons_of_mem _ hm, h⟩

/-- Declarations in a row that are documented by tokens have the documentation in the stretches in front of them. -/
theorem doc?_of_mem_row {toks before after : List Token} (hordered : Ordered toks) (htoks : toks = before ++ after)
    (hstart : Divides start before after) (h : DocumentedBy (ns.map Node.documentable) after)
    (hs : s ∈ row start ns) (htakes : s.node.sort.takesDoc = true) :
    s.node.doc? = joinedLines (docsWithin toks s.gap) := by
  induction ns generalizing start before after with
  | nil => cases hs
  | cons n ns ih =>
    obtain ⟨gap, seg, rest, rfl, hcovers, hdoc, hns⟩ := h
    have hparts : toks = (before ++ gap) ++ (seg ++ rest) := by rw [htoks, List.append_assoc]
    obtain ⟨hnode, hbehind⟩ := hcovers.divides (hparts ▸ hordered)
    rcases List.mem_cons.mp hs with rfl | hs
    · rw [htoks] at hordered ⊢
      have hgap : docsWithin (before ++ (gap ++ (seg ++ rest))) ⟨start, n.tag.span.start⟩ = docTexts gap :=
        docsWithin_of_divides hordered hstart hnode
      rw [hgap, ← foldl_joinDoc]
      exact hdoc htakes
    · have hrest : toks = (before ++ gap ++ seg) ++ rest := by rw [hparts, ← List.append_assoc]
      exact ih hrest hbehind hns hs

end

/-! ## Stretches do not overlap -/

/-- Nodes stand inside of a span, one behind the other, and none is turned round. -/
structure InRow (within : Span) (ns : List (Node Mark)) : Prop where
  apart : ns.Pairwise fun a b => a.tag.span.Before b.tag.span
  forward : ∀ n ∈ ns, n.tag.span.start ≤ n.tag.span.stop
  within : ∀ n ∈ ns, n.tag.span.Within within

/-- A node is not turned round, and its members stand inside of it in a row. -/
structure Node.Tidy (n : Node Mark) : Prop where
  forward : n.tag.span.start ≤ n.tag.span.stop
  members : InRow n.tag.span n.memberNodes

section

variable {start stop : Nat} {n : Node Mark} {ns : List (Node Mark)} {s : Site}

theorem InRow.tail (h : InRow ⟨start, stop⟩ (n :: ns)) : InRow ⟨n.tag.span.stop, stop⟩ ns := by
  obtain ⟨hn, hns⟩ := List.pairwise_cons.mp h.apart
  refine ⟨hns, (List.forall_mem_cons.mp h.forward).2, fun m hm => ⟨hn m hm, ?_⟩⟩
  exact (h.within m (List.mem_cons_of_mem n hm)).2

theorem InRow.gap (h : InRow ⟨start, stop⟩ ns) (hs : s ∈ row start ns) :
    s.node ∈ ns ∧ s.gap.Within ⟨start, stop⟩ := by
  induction ns generalizing start with
  | nil => cases hs
  | cons n ns ih =>
    have hforward := h.forward n List.mem_cons_self
    obtain ⟨hge, hle⟩ := h.within n List.mem_cons_self
    rcases List.mem_cons.mp hs with rfl | hs
    · exact ⟨List.mem_cons_self, Nat.le_refl _, Nat.le_trans hforward hle⟩
    · obtain ⟨hmem, hgap⟩ := ih h.tail hs
      exact ⟨List.mem_cons_of_mem _ hmem, Nat.le_trans hge (Nat.le_trans hforward hgap.1), hgap.2⟩

theorem InRow.pairwise (h : InRow ⟨start, stop⟩ ns) : (row start ns).Pairwise fun a b => a.gap.Before b.gap := by
  induction ns generalizing start with
  | nil => exact .nil
  | cons n ns ih =>
    refine .cons (fun s hs => ?_) (ih h.tail)
    exact Nat.le_trans (h.forward n List.mem_cons_self) (h.tail.gap hs).2.1

theorem start_le_gap (htidy : ∀ n ∈ ns, n.Tidy) (hns : ns.Pairwise fun a b => a.tag.span.Before b.tag.span)
    (hstart : ∀ n ∈ ns, start ≤ n.tag.span.start) (hs : s ∈ sitesFrom start ns) : start ≤ s.gap.start := by
  induction ns generalizing start with
  | nil => cases hs
  | cons n ns ih =>
    obtain ⟨hn, hns⟩ := List.pairwise_cons.mp hns
    obtain ⟨hntidy, htidy⟩ := List.forall_mem_cons.mp htidy
    have hnstart := hstart n List.mem_cons_self
    rcases List.mem_cons.mp hs with rfl | hs
    · exact Nat.le_refl _
    rcases List.mem_append.mp hs with hs | hs
    · exact Nat.le_trans hnstart (hntidy.members.gap hs).2.1
    · exact Nat.le_trans (Nat.le_trans hnstart hntidy.forward) (ih htidy hns hn hs)

theorem pairwise_sitesFrom (htidy : ∀ n ∈ ns, n.Tidy) (hns : ns.Pairwise fun a b => a.tag.span.Before b.tag.span)
    (start : Nat) : (sitesFrom start ns).Pairwise fun a b => a.gap.Before b.gap := by
  induction ns generalizing start with
  | nil => exact .nil
  | cons n ns ih =>
    obtain ⟨hn, hns⟩ := List.pairwise_cons.mp hns
    obtain ⟨hntidy, htidy⟩ := List.forall_mem_cons.mp htidy
    have hlater {s : Site} (hs : s ∈ sitesFrom n.tag.span.stop ns) : n.tag.span.stop ≤ s.gap.start :=
      start_le_gap htidy hns hn hs
    refine .cons (fun s hs => ?_) (List.pairwise_append.mpr ⟨hntidy.members.pairwise, ih htidy hns _, fun a ha b hb => ?_⟩)
    · rcases List.mem_append.mp hs with hs | hs
      · exact (hntidy.members.gap hs).2.1
      · exact Nat.le_trans hntidy.forward (hlater hs)
    · exact Nat.le_trans (hntidy.members.gap ha).2.2 (hlater hb)

/-- A stretch in front of a declaration is clear of every item, unless it is inside of the item with the declaration. -/
theorem clear_of_mem_sitesFrom (htidy : ∀ n ∈ ns, n.Tidy) (hns : ns.Pairwise fun a b => a.tag.span.Before b.tag.span)
    (hs : s ∈ sitesFrom start ns) : ∀ n ∈ ns,
      n.tag.span.Before s.gap ∨ s.gap.Before n.tag.span ∨ (s.node ∈ n.memberNodes ∧ s.gap.Within n.tag.span) := by
  induction ns generalizing start with
  | nil => exact List.forall_mem_nil _
  | cons n ns ih =>
    obtain ⟨hn, hns⟩ := List.pairwise_cons.mp hns
    obtain ⟨hntidy, htidy⟩ := List.forall_mem_cons.mp htidy
    rcases List.mem_cons.mp hs with rfl | hs
    · refine List.forall_mem_cons.mpr ⟨.inr (.inl (Nat.le_refl _)), fun m hm => .inr (.inl ?_)⟩
      exact Nat.le_trans hntidy.forward (hn m hm)
    rcases List.mem_append.mp hs with hs | hs
    · have hgap := hntidy.members.gap hs
      refine List.forall_mem_cons.mpr ⟨.inr (.inr hgap), fun m hm => .inr (.inl ?_)⟩
      exact Nat.le_trans hgap.2.2 (hn m hm)
    · exact List.forall_mem_cons.mpr ⟨.inl (start_le_gap htidy hns hn hs), ih htidy hns hs⟩

/-- What is not empty is inside of at most one of the stretches. -/
theorem countP_within_gap {sites : List Site} {t : Span} (h : sites.Pairwise fun a b => a.gap.Before b.gap)
    (ht : t.start < t.stop) : sites.countP (fun s => t.Within s.gap) ≤ 1 := by
  induction sites with
  | nil => exact Nat.zero_le _
  | cons s sites ih =>
    obtain ⟨hs, hsites⟩ := List.pairwise_cons.mp h
    rw [List.countP_cons]
    split
    · next hwithin =>
      have hwithin := of_decide_eq_true hwithin
      have hothers : sites.countP (fun s => t.Within s.gap) = 0 := by
        rw [List.countP_eq_zero]
        intro other hother
        have hbefore : s.gap.stop ≤ other.gap.start := hs other hother
        rw [decide_eq_true_iff, Span.Within]
        have := hwithin.2
        omega
      rw [hothers]
    · exact ih hsites

end

/-! ## Files -/

namespace Ast

variable {ast : Ast} {toks : List Token}

/-- Where spans fit together, what is in the arena is tidy. -/
theorem Spanned.tidy (h : ast.Spanned toks) (hlaid : Laid ast.nodes ast.trees) {n : Node Mark} (hn : n ∈ ast.nodes) :
    n.Tidy := by
  have hmembers : List.Sublist n.memberNodes n.children := by
    rw [n.children_eq]
    cases n with
    | interface d => exact List.Sublist.refl _
    | _ => exact List.nil_sublist _
  have hforward {m : Node Mark} (hm : m ∈ ast.nodes) : m.tag.span.start ≤ m.tag.span.stop := Nat.le_of_lt (h.filled m hm)
  exact ⟨hforward hn, (h.siblings n hn).sublist hmembers,
    fun m hm => hforward (hlaid.below n hn m (hmembers.subset hm)).1, fun m hm => h.nested n hn m (hmembers.subset hm)⟩

theorem documented_of_documentedBy (hordered : Ordered toks) (hspanned : ast.Spanned toks)
    (hlaid : Laid ast.nodes ast.trees)
    (hby : DocumentedBy ((ast.roots.filter Node.isSolid).map Node.documentable) toks)
    (hin : ∀ n ∈ ast.roots.filter Node.isSolid,
      DocumentedIn n.tag.span (n.memberNodes.map Node.documentable) toks) : ast.Documented toks := by
  have htidy : ∀ n ∈ ast.roots.filter Node.isSolid, n.Tidy := fun n hn =>
    hspanned.tidy hlaid (mem_nodes_of_mem_roots hlaid (List.mem_filter.mp hn).1)
  have hrow : (ast.roots.filter Node.isSolid).Pairwise fun a b => a.tag.span.Before b.tag.span :=
    hspanned.roots.filter _
  constructor
  case all => exact map_node_sitesFrom 0 _
  case docs =>
    intro s hs htakes
    rcases mem_of_mem_sitesFrom hs with hs | ⟨n, hn, hs⟩
    · have hstart : Divides 0 [] toks := ⟨List.forall_mem_nil _, fun _ _ => Nat.zero_le _⟩
      exact doc?_of_mem_row hordered rfl hstart hby hs htakes
    · obtain ⟨before, seg, rest, rfl, hcovers, hmembers, -⟩ := hin n hn
      exact doc?_of_mem_row hordered rfl (hcovers.divides hordered).1 hmembers hs htakes
  case once =>
    intro t ht hdoc
    exact countP_within_gap (pairwise_sitesFrom htidy hrow 0) (hordered.filled_of_docText? ht hdoc)
  case clear =>
    intro s hs n hn hsolid
    exact clear_of_mem_sitesFrom htidy hrow hs n (List.mem_filter.mpr ⟨hn, hsolid⟩)
  case below =>
    intro n hn hne t ht hdoc hwithin
    have hsolid : n.isSolid = true := by
      cases n with
      | interface d => rfl
      | _ => exact absurd rfl hne
    have hds : n.memberNodes.map Node.documentable ≠ [] := by rwa [Ne, List.map_eq_nil_iff]
    exact (hin n (List.mem_filter.mpr ⟨hn, hsolid⟩)).below_heading hordered hds ht hdoc hwithin

end Ast

/-- In a file that was read, a declaration has the documentation that stands in front of it: at the top since the item
before, over comments, and inside of an interface since the member before or the heading. No line of documentation
belongs to two declarations, and none goes over another item or out of a block. -/
theorem documented_of_parseSource {source file : String} {ast : Ast} (h : parseSource source file = .ok ast) :
    ∃ toks, lex source = .ok toks ∧ ast.Documented toks := by
  obtain ⟨toks, hlex, hread, -, -⟩ := parseSource_eq_ok h
  have hordered := ordered_of_lex hlex
  obtain ⟨hfiled, hlaid⟩ := parseTokens_filed hordered hread
  have hspanned := Ast.spanned_of_filed hlaid hfiled hordered
  obtain ⟨hby, hin⟩ := parseTokens_documented hread
  exact ⟨toks, hlex, Ast.documented_of_documentedBy hordered hspanned hlaid hby hin⟩

/-- Documentation before and behind a comment, of a member, before an `end`, and before a constant. -/
theorem documented_of_parseSource_lamp :
    let source := "## A lamp.\n# really\n## Or two.\ninterface Lamp\n ## Turns it on.\n fn on()\n ## lost\nend\n"
      ++ "## lost too\nconst c = 1\nfn off()\n"
    ∃ ast toks, parseSource source "lamp.qi" = .ok ast ∧ lex source = .ok toks ∧ docTexts toks =
        ["A lamp.", "Or two.", "Turns it on.", "lost", "lost too"] ∧
      ast.sites.map (·.node.doc?) = [some "A lamp.\nOr two.", some "Turns it on.", none, none] ∧
      ast.Documented toks := by
  intro source
  have hread : (parseSource source "lamp.qi").toOption.any (fun ast => ast.sites.map (·.node.doc?) ==
      [some "A lamp.\nOr two.", some "Turns it on.", none, none]) = true := by
    decide +kernel
  have hlex : (lex source).toOption.any (fun toks => docTexts toks ==
      ["A lamp.", "Or two.", "Turns it on.", "lost", "lost too"]) = true := by
    decide +kernel
  obtain ⟨ast, hread, hdocs⟩ := exists_ok_of_any hread
  obtain ⟨toks, hlex, htexts⟩ := exists_ok_of_any hlex
  obtain ⟨toks', hlex', hdocumented⟩ := documented_of_parseSource hread
  cases hlex.symm.trans hlex'
  exact ⟨ast, toks, hread, hlex, beq_iff_eq.mp htexts, beq_iff_eq.mp hdocs, hdocumented⟩

end QiIdl
