import QiIdl.Proofs.Ast.Erase
import QiIdl.Token.Basic

/-!
# Trees on tokens

A tree *lies* on a stretch of tokens if its span reaches from the first of them to the last, if these are not only
layout, and if the trees below it lie on parts of that stretch, one behind the other. Between the parts there may be
tokens that belong to the node itself: keywords, brackets, commas. Trees that lie on a stretch one behind the other
are put together with others by `LiesAll.append`.

The trees of a file are *filed* on its tokens if they lie there one behind the other and nothing but ends of lines and
documentation stands between them.
-/

namespace QiIdl

/-- Whether a token of this kind may stand outside of everything. -/
def TokenKind.isLayout : TokenKind → Bool
  | newline | docComment _ | eof => true
  | _ => false

theorem TokenKind.ne_eof_of_not_isLayout {k : TokenKind} (h : k.isLayout = false) : k ≠ .eof := by
  rintro rfl
  cases h

/-- The first of some tokens is at a span, and not all of them are layout. -/
structure Span.Opens (start : Span) (toks : List Token) : Prop where
  first : toks.head?.map Token.span = some start
  solid : ∃ t ∈ toks, t.kind.isLayout = false

theorem Span.Opens.append {start : Span} {toks : List Token} (h : start.Opens toks) (more : List Token) :
    start.Opens (toks ++ more) := by
  constructor
  · cases toks with
    | nil => cases h.first
    | cons t toks => exact h.first
  · obtain ⟨t, ht, hkind⟩ := h.solid
    exact ⟨t, List.mem_append_left _ ht, hkind⟩

theorem Span.opens_singleton {t : Token} (h : t.kind.isLayout = false) : t.span.Opens [t] :=
  ⟨rfl, t, List.mem_singleton_self t, h⟩

/-- A span reaches from the first of some tokens to the last. -/
def Span.Covers (s : Span) (toks : List Token) : Prop :=
  ∃ start : Span, start.Opens toks ∧ ∃ last, toks.getLast? = some last ∧ s = start.merge last.span

theorem Span.covers_singleton {t : Token} (h : t.kind.isLayout = false) : t.span.Covers [t] :=
  ⟨t.span, Span.opens_singleton h, t, rfl, by rw [Span.merge, Nat.min_self, Nat.max_self]⟩

namespace Tree

variable {β γ : Type} {span : β → Span} {t : Tree β} {ts us : List (Tree β)} {toks more : List Token}

mutual

/-- A tree lies on some tokens. -/
def Lies (span : β → Span) : Tree β → List Token → Prop
  | node b ts, toks => (span b).Covers toks ∧ LiesAll span ts toks

/-- Some trees lie on some tokens, one behind the other. -/
def LiesAll (span : β → Span) : List (Tree β) → List Token → Prop
  | [], _ => True
  | t :: ts, toks => ∃ gap seg rest, toks = gap ++ (seg ++ rest) ∧ t.Lies span seg ∧ LiesAll span ts rest

end

/-- Some trees lie on some tokens, one behind the other, with nothing but layout between them. -/
def Filed (span : β → Span) : List (Tree β) → List Token → Prop
  | [], toks => ∀ t ∈ toks, t.kind.isLayout = true
  | t :: ts, toks => ∃ gap seg rest, toks = gap ++ (seg ++ rest) ∧ (∀ g ∈ gap, g.kind.isLayout = true) ∧
    t.Lies span seg ∧ Filed span ts rest

theorem Lies.covers (h : t.Lies span toks) : (span t.label).Covers toks := by
  obtain ⟨b, ts⟩ := t
  exact h.1

theorem Lies.solid (h : t.Lies span toks) : ∃ u ∈ toks, u.kind.isLayout = false := by
  obtain ⟨start, hopens, -⟩ := h.covers
  exact hopens.solid

/-! ## Stretches put together -/

theorem liesAll_nil : LiesAll span [] toks := trivial

theorem LiesAll.behind (h : LiesAll span ts toks) (gap : List Token) : LiesAll span ts (gap ++ toks) := by
  cases ts with
  | nil => exact liesAll_nil
  | cons t ts =>
    obtain ⟨gap', seg, rest, rfl, ht, hts⟩ := h
    exact ⟨gap ++ gap', seg, rest, (List.append_assoc ..).symm, ht, hts⟩

theorem LiesAll.append (h : LiesAll span ts toks) (hmore : LiesAll span us more) :
    LiesAll span (ts ++ us) (toks ++ more) := by
  induction ts generalizing toks with
  | nil => exact hmore.behind toks
  | cons t ts ih =>
    obtain ⟨gap, seg, rest, rfl, ht, hts⟩ := h
    exact ⟨gap, seg, rest ++ more, by simp only [List.append_assoc], ht, ih hts⟩

theorem LiesAll.before (h : LiesAll span ts toks) (more : List Token) : LiesAll span ts (toks ++ more) := by
  have hmore : LiesAll span [] more := liesAll_nil
  have happend := h.append hmore
  rwa [List.append_nil] at happend

theorem Lies.all (h : t.Lies span toks) : LiesAll span [t] toks :=
  ⟨[], toks, [], (List.append_nil toks).symm, h, liesAll_nil⟩

/-- What is below a tree lies where the tree does. -/
theorem LiesAll.below {b : β} (h : LiesAll span [node b ts] toks) : LiesAll span ts toks := by
  obtain ⟨gap, seg, rest, rfl, ht, -⟩ := h
  exact (ht.2.before rest).behind gap

theorem LiesAll.solid (h : LiesAll span ts toks) (hts : ts ≠ []) : ∃ u ∈ toks, u.kind.isLayout = false := by
  cases ts with
  | nil => exact absurd rfl hts
  | cons t ts =>
    obtain ⟨gap, seg, rest, rfl, ht, -⟩ := h
    obtain ⟨u, hu, hkind⟩ := ht.solid
    exact ⟨u, List.mem_append_right _ (List.mem_append_left _ hu), hkind⟩

theorem LiesAll.exists_lies (h : LiesAll span ts toks) : ∀ t ∈ ts, ∃ seg, List.Sublist seg toks ∧ t.Lies span seg := by
  induction ts generalizing toks with
  | nil => exact List.forall_mem_nil _
  | cons t ts ih =>
    obtain ⟨gap, seg, rest, rfl, ht, hts⟩ := h
    intro u hu
    rcases List.mem_cons.mp hu with rfl | hu
    · exact ⟨seg, (List.sublist_append_left seg rest).trans (List.sublist_append_right gap _), ht⟩
    · obtain ⟨seg', hseg', hu⟩ := ih hts u hu
      exact ⟨seg', hseg'.trans ((List.sublist_append_right seg rest).trans (List.sublist_append_right gap _)), hu⟩

theorem Filed.behind (h : Filed span ts toks) {gap : List Token} (hgap : ∀ g ∈ gap, g.kind.isLayout = true) :
    Filed span ts (gap ++ toks) := by
  cases ts with
  | nil => exact List.forall_mem_append.mpr ⟨hgap, h⟩
  | cons t ts =>
    obtain ⟨gap', seg, rest, rfl, hgap', ht, hts⟩ := h
    exact ⟨gap ++ gap', seg, rest, (List.append_assoc ..).symm, List.forall_mem_append.mpr ⟨hgap, hgap'⟩, ht, hts⟩

theorem Filed.append (h : Filed span ts toks) (hmore : Filed span us more) : Filed span (ts ++ us) (toks ++ more) := by
  induction ts generalizing toks with
  | nil => exact hmore.behind h
  | cons t ts ih =>
    obtain ⟨gap, seg, rest, rfl, hgap, ht, hts⟩ := h
    exact ⟨gap, seg, rest ++ more, by simp only [List.append_assoc], hgap, ht, ih hts⟩

theorem Lies.filed (h : t.Lies span toks) (hmore : ∀ u ∈ more, u.kind.isLayout = true) :
    Filed span [t] (toks ++ more) :=
  ⟨[], toks, more, rfl, List.forall_mem_nil _, h, hmore⟩

end Tree

end QiIdl
