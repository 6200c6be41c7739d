import QiIdl.Proofs.Grammar.Carries
import QiIdl.Proofs.Grammar.Strata

/-!
# Readers that recognize a grammar

`Recognizes n p P E` says that `p` reads exactly what a grammar allows: it succeeds with a result if and only if the
tokens it moves over are the result by the relation `P`, and the kind that comes next is one that they end before by
`E`. Readers bound their loops by a count, so this is said of cursors with at most `n` tokens left.

Every reader here is taken apart by equations: the small ones say at once where the cursor is and what is next. Lists
are recognized once for all items, whatever sign closes them, and a literal is then a reader of lists of literals.
-/

namespace QiIdl

/-! ## Moving on without a fault -/

namespace Cursor

/-- The cursor has been moved over some tokens, and nothing was recovered from. -/
structure Reads (c : Cursor Unit) (ts : List Token) (c' : Cursor Unit) : Prop extends c.Moves ts c' where
  faults : c'.faults = c.faults

variable {c c₁ c' : Cursor Unit} {t : Token} {ts us : List Token}

namespace Reads

theorem refl (c : Cursor Unit) : c.Reads [] c := ⟨.refl c, rfl⟩

theorem trans (h : c.Reads ts c₁) (h' : c₁.Reads us c') : c.Reads (ts ++ us) c' :=
  ⟨h.toMoves.trans h'.toMoves, h'.faults.trans h.faults⟩

theorem snoc (h : c.Reads ts c₁) (h' : c₁.Reads [t] c') : c.Reads (ts ++ [t]) c' := h.trans h'

theorem cons (h : c.Reads [t] c₁) (h' : c₁.Reads ts c') : c.Reads (t :: ts) c' := h.trans h'

/-- The tokens say where the cursor is moved to. -/
theorem unique (h : c.Reads ts c₁) (h' : c.Reads ts c') : c₁ = c' := by
  have hrest : c₁.rest = c'.rest := List.append_cancel_left (h.rest.symm.trans h'.rest)
  have hlast : c₁.last = c'.last := h.last.trans h'.last.symm
  have hfaults : c₁.faults = c'.faults := h.faults.trans h'.faults.symm
  cases c₁
  cases c'
  simp_all

theorem eq_of_nil (h : c.Reads [] c') : c' = c := h.unique (.refl c)

/-- Where the cursor is moved over two runs of tokens, it is between them on the way. -/
theorem split (h : c.Reads (ts ++ us) c') : ∃ c₁, c.Reads ts c₁ ∧ c₁.Reads us c' := by
  refine ⟨⟨us ++ c'.rest, (ts.getLast?.map Token.span).getD c.last, c.faults, ()⟩, ⟨⟨?_, rfl⟩, rfl⟩,
    ⟨⟨rfl, ?_⟩, h.faults⟩⟩
  · rw [h.rest, List.append_assoc]
  · rw [h.last, List.getLast?_append]
    cases us.getLast? <;> rfl

theorem uncons (h : c.Reads (t :: ts) c') : ∃ c₁, c.Reads [t] c₁ ∧ c₁.Reads ts c' := split h

theorem peek (h : c.Reads (t :: ts) c') : c.peek = t := by
  rw [Cursor.peek, h.rest]
  rfl

theorem length (h : c.Reads ts c') : c.rest.length = ts.length + c'.rest.length := by
  rw [h.rest, List.length_append]

theorem length_single (h : c.Reads [t] c') : c.rest.length = c'.rest.length + 1 := by
  rw [h.rest]
  rfl

/-- A node takes its span from the token it starts with and the last token read. -/
theorem extent (h : c.Reads (t :: ts) c') : c.peek.span.merge c'.last = Token.extent (t :: ts) := by
  rw [h.peek, h.last, List.getLast?_cons]
  rfl

theorem eq_advance (h : c.Reads [t] c') (ht : t.kind ≠ .eof) : c' = c.advance := by
  refine h.unique ?_
  have hpeek := h.peek
  subst hpeek
  exact ⟨moves_advance ht, faults_advance c⟩

end Reads

theorem reads_advance (h : c.peek.kind ≠ .eof) : c.Reads [c.peek] c.advance := ⟨moves_advance h, faults_advance c⟩

/-- Where no token is left the end of the file is next. -/
theorem kind_peek_of_length (h : c.rest.length ≤ 0) : c.peek.kind = .eof := by
  rw [Cursor.peek, List.eq_nil_of_length_eq_zero (Nat.le_zero.mp h)]
  rfl

end Cursor

/-! ## Tokens -/

namespace Parse

section Kept

variable {σ β γ : Type} {c c' : Cursor σ} {k : TokenKind} {what : String}

theorem look_bind (f : Token → Reading σ γ) : (look >>= f) c = f c.peek c := rfl

theorem kind_bind (f : TokenKind → Reading σ γ) : (kind >>= f) c = f c.peek.kind c := rfl

theorem left_bind (f : Nat → Reading σ γ) : (left >>= f) c = f c.rest.length c := rfl

theorem advance_bind (f : Token → Reading σ γ) : (advance >>= f) c = f c.peek c.advance := rfl

theorem spanFrom_bind (start : Span) (f : Span → Reading σ γ) :
    (spanFrom start >>= f) c = f (start.merge c.last) c := rfl

/-- What is done depends on whether a token of a kind is next. -/
theorem accept_ite (p q : Reading σ γ) :
    (do if (← accept k) then p else q) c = if c.peek.kind = k then p c.advance else q c := by
  by_cases h : c.peek.kind = k
  · have hok : accept k c = .ok true c.advance := by
      rw [accept, kind_bind, if_pos h]
      rfl
    rw [bind_of_ok hok, if_pos h]
    rfl
  · have hok : accept k c = .ok false c := by
      rw [accept, kind_bind, if_neg h]
      rfl
    rw [bind_of_ok hok, if_neg h]
    rfl

theorem expected_ne_ok {b : β} : expected what c ≠ .ok b c' := nofun

end Kept

variable {β γ : Type} {c c' : Cursor Unit} {k : TokenKind} {t : Token} {what : String}

theorem close_eq (start : Span) (build : Span → β) (node : β → Node Span) :
    (close start build node : Parse β) c = .ok (build (start.merge c.last)) c := rfl

theorem close_bind (start : Span) (build : Span → β) (node : β → Node Span) (f : β → Parse γ) :
    (close start build node >>= f) c = f (build (start.merge c.last)) c := rfl

theorem expect_eq_ok (hk : k ≠ .eof) : expect k what c = .ok t c' ↔ t.kind = k ∧ c.Reads [t] c' := by
  rw [expect, kind_bind]
  by_cases h : c.peek.kind = k
  · rw [if_pos h]
    have hreads := Cursor.reads_advance (h ▸ hk : c.peek.kind ≠ .eof)
    constructor
    · intro hok
      cases hok
      exact ⟨h, hreads⟩
    · rintro ⟨-, ht⟩
      obtain rfl := ht.peek
      rw [ht.unique hreads]
      rfl
  · rw [if_neg h]
    constructor
    · exact fun hok => absurd hok expected_ne_ok
    · rintro ⟨hkind, ht⟩
      exact absurd (ht.peek ▸ hkind) h

theorem expect_bind_eq_ok (hk : k ≠ .eof) {f : Token → Parse γ} {g : γ} :
    (expect k what >>= f) c = .ok g c' ↔ ∃ t c₁, t.kind = k ∧ c.Reads [t] c₁ ∧ f t c₁ = .ok g c' := by
  simp only [bind_eq_ok, expect_eq_ok hk, and_assoc]

theorem name_eq_ok {s : String} : name what c = .ok s c' ↔ ∃ t, t.kind = .ident s ∧ c.Reads [t] c' := by
  rw [name, kind_bind]
  cases hkind : c.peek.kind with
  | ident text =>
    have hreads := Cursor.reads_advance (hkind ▸ nofun : c.peek.kind ≠ .eof)
    constructor
    · intro hok
      cases hok
      exact ⟨c.peek, hkind, hreads⟩
    · rintro ⟨t, ht, hread⟩
      obtain rfl := hread.peek
      rw [hkind] at ht
      cases ht
      rw [hread.unique hreads]
      rfl
  | _ =>
    constructor
    · exact fun hok => absurd hok expected_ne_ok
    · rintro ⟨t, ht, hread⟩
      rw [← hread.peek, hkind] at ht
      cases ht

end Parse

/-! ## Recognizing -/

/-- With at most so many tokens left, a reader succeeds exactly on what a grammar allows: `P` relates the tokens read
to the result, and `E` to the kind that comes next. -/
def Recognizes {β : Type} (n : Nat) (p : Parse β) (P : List Token → β → Prop) (E : List Token → TokenKind → Prop) :
    Prop :=
  ∀ c : Cursor Unit, c.rest.length ≤ n → ∀ b c', p c = .ok b c' ↔ ∃ ts, c.Reads ts c' ∧ P ts b ∧ E ts c'.peek.kind

/-- With no token left there is nothing to read, and nothing that takes a token is allowed. -/
theorem recognizes_zero {β : Type} {P : List Token → β → Prop} {E : List Token → TokenKind → Prop} {what : String}
    (h : ∀ ts b, P ts b → ts ≠ []) : Recognizes 0 (Parse.expected what) P E := by
  intro c hc b c'
  constructor
  · exact fun hok => absurd hok Parse.expected_ne_ok
  · rintro ⟨ts, hts, hb, -⟩
    have hlength := hts.length
    have hpos := List.length_pos_iff.mpr (h ts b hb)
    omega

/-! ## Names -/

namespace Parse

variable {c c₁ c' : Cursor Unit} {what s text : String} {ts : List Token}

theorem dottedRest_of_ne {count : Nat} (h : c.peek.kind ≠ .dot) : dottedRest count text c = .ok text c := by
  cases count with
  | zero => rfl
  | succ count =>
    rw [dottedRest, accept_ite, if_neg h]
    rfl

/-- Segments are added to those there are as long as a dot is next. -/
theorem exists_of_dottedRest {count : Nat} (hcount : c.rest.length ≤ count) (hdotted : Dotted ts text)
    (h : dottedRest count text c = .ok s c') :
    ∃ us, c.Reads us c' ∧ Dotted (ts ++ us) s ∧ c'.peek.kind ≠ .dot := by
  induction count generalizing c ts text with
  | zero =>
    cases h
    refine ⟨[], .refl _, ?_, ?_⟩
    · rwa [List.append_nil]
    · rw [Cursor.kind_peek_of_length hcount]
      exact nofun
  | succ count ih =>
    by_cases hdot : c.peek.kind = .dot
    · rw [dottedRest, accept_ite, if_pos hdot] at h
      obtain ⟨segment, c₁, hname, h⟩ := bind_eq_ok.mp h
      obtain ⟨t, ht, hread⟩ := name_eq_ok.mp hname
      have hreads := (Cursor.reads_advance (hdot ▸ nofun)).cons hread
      have hlength := hreads.length
      simp only [List.length_cons, List.length_nil] at hlength
      obtain ⟨us, hus, hdotted', hne⟩ := ih (by omega) (hdotted.snoc hdot ht) h
      refine ⟨[c.peek, t] ++ us, hreads.trans hus, ?_, hne⟩
      rwa [← List.append_assoc]
    · rw [dottedRest_of_ne hdot] at h
      cases h
      refine ⟨[], .refl _, ?_, hdot⟩
      rwa [List.append_nil]

/-- On the tokens of a dotted name the reader gets as far as they go. -/
theorem dottedName_of_dotted (hdotted : Dotted ts s) (h : c.Reads ts c') :
    ∃ count, c'.rest.length ≤ count ∧ dottedName what c = dottedRest count s c' := by
  induction hdotted generalizing c' with
  | @single t s hkind =>
    refine ⟨c'.rest.length, Nat.le_refl _, ?_⟩
    exact bind_of_ok (name_eq_ok.mpr ⟨t, hkind, h⟩)
  | @snoc ts dot t front s _ hdot hkind ih =>
    obtain ⟨c₁, hfront, h⟩ := h.split
    obtain ⟨c₂, hd, hread⟩ := h.uncons
    obtain ⟨count, hcount, heq⟩ := ih hfront
    have hlength := h.length
    simp only [List.length_cons, List.length_nil] at hlength
    obtain ⟨count, rfl⟩ : ∃ k, count = k + 1 := ⟨count - 1, by omega⟩
    refine ⟨count, by omega, ?_⟩
    have hpeek : c₁.peek.kind = .dot := hd.peek ▸ hdot
    rw [heq, dottedRest, accept_ite, if_pos hpeek, ← hd.eq_advance (hdot ▸ nofun)]
    exact bind_of_ok (name_eq_ok.mpr ⟨t, hkind, hread⟩)

theorem recognizes_dottedName (n : Nat) (what : String) :
    Recognizes n (dottedName what) Dotted fun _ next => next ≠ .dot := by
  intro c _ s c'
  constructor
  · intro h
    obtain ⟨first, c₁, hname, h⟩ := bind_eq_ok.mp h
    obtain ⟨t, ht, hread⟩ := name_eq_ok.mp hname
    rw [left_bind] at h
    obtain ⟨us, hus, hdotted, hne⟩ := exists_of_dottedRest (Nat.le_refl _) (.single ht) h
    exact ⟨[t] ++ us, hread.trans hus, hdotted, hne⟩
  · rintro ⟨ts, hreads, hdotted, hne⟩
    obtain ⟨count, -, heq⟩ := dottedName_of_dotted hdotted hreads
    rw [heq, dottedRest_of_ne hne]

end Parse

/-! ## Lists -/

namespace Parse

section Lists

variable {β : Type} {n count : Nat} {item : Parse β} {P : List Token → β → Prop} {E : List Token → TokenKind → Prop}
  {close : TokenKind} {c c' : Cursor Unit} {bs : List β} {ts : List Token} {parts : List (List Token × β)}

/-- Between commas and before a closing sign, every item has ended. -/
structure Delimits (P : List Token → β → Prop) (E : List Token → TokenKind → Prop) (close : TokenKind) : Prop where
  eof : close ≠ .eof
  comma : close ≠ .comma
  head : ∀ ts b, P ts b → ∃ t ts', ts = t :: ts' ∧ t.kind ≠ close
  ends_comma : ∀ ts b, P ts b → E ts .comma
  ends_close : ∀ ts b, P ts b → E ts close

theorem Delimits.peek_ne (hclose : Delimits P E close) {us : List Token} {b : β} (hb : P ts b)
    (h : c.Reads (ts ++ us) c') : c.peek.kind ≠ close := by
  obtain ⟨t, ts', rfl, ht⟩ := hclose.head _ _ hb
  rwa [h.peek]

/-- Some items by their tokens, which stand together by a relation. -/
def Items (P : List Token → β → Prop) (J : List (List Token) → List Token → Prop) (ts : List Token) (bs : List β) :
    Prop :=
  ∃ parts : List (List Token × β), (∀ p ∈ parts, P p.1 p.2) ∧ J (parts.map Prod.fst) ts ∧ bs = parts.map Prod.snd

/-- No items have no tokens, and behind an item there is nothing, or a comma and what stands together again. -/
structure Chained (J : List (List Token) → List Token → Prop) : Prop where
  nil : ∀ all, J [] all → all = []
  cons : ∀ ts parts all, J (ts :: parts) all ↔
    parts = [] ∧ all = ts ∨ ∃ comma rest, comma.kind = .comma ∧ J parts rest ∧ all = ts ++ comma :: rest

theorem chained_joined : Chained Joined := by
  refine ⟨nofun, fun ts parts all => ⟨?_, ?_⟩⟩
  · rintro (_ | ⟨hcomma, hrest⟩)
    · exact .inl ⟨rfl, rfl⟩
    · exact .inr ⟨_, _, hcomma, hrest, rfl⟩
  · rintro (⟨rfl, rfl⟩ | ⟨comma, rest, hcomma, hrest, rfl⟩)
    · exact .single all
    · exact .cons hcomma hrest

theorem chained_listed : Chained Listed := by
  refine ⟨fun _ h => by cases h; rfl, fun ts parts all => ⟨?_, ?_⟩⟩
  · rintro (_ | _ | ⟨hcomma, hrest⟩)
    · exact .inl ⟨rfl, rfl⟩
    · exact .inr ⟨_, _, hcomma, hrest, rfl⟩
  · rintro (⟨rfl, rfl⟩ | ⟨comma, rest, hcomma, hrest, rfl⟩)
    · exact .single all
    · exact .cons hcomma hrest

variable {J : List (List Token) → List Token → Prop}

/-- An item is read, and what is read behind a comma are the items that stand there. -/
theorem items_eq_ok (hJ : Chained J) (hitem : Recognizes n item P E)
    (hclose : Delimits P E close) (hn : c.rest.length ≤ n) (hnext : c'.peek.kind = close) {more : Parse (List β)}
    (hmore : ∀ c₁ bs, c₁.rest.length < c.rest.length → (more c₁ = .ok bs c' ↔ ∃ ts, c₁.Reads ts c' ∧ Items P J ts bs)) :
    (do
      let b ← item
      if (← accept .comma) then
        let bs ← more
        pure (b :: bs)
      else pure [b] : Parse (List β)) c = .ok bs c' ↔ ∃ ts, c.Reads ts c' ∧ Items P J ts bs ∧ bs ≠ [] := by
  constructor
  · intro h
    obtain ⟨b, c₁, hb, h⟩ := bind_eq_ok.mp h
    obtain ⟨ts, hts, hP, -⟩ := (hitem c hn b c₁).mp hb
    have hlength := hts.length
    rw [accept_ite] at h
    by_cases hcomma : c₁.peek.kind = .comma
    · rw [if_pos hcomma] at h
      obtain ⟨bs', c₂, hbs, h⟩ := bind_eq_ok.mp h
      cases h
      have hread := Cursor.reads_advance (hcomma ▸ nofun : c₁.peek.kind ≠ .eof)
      have hlength' := hread.length_single
      obtain ⟨us, hus, parts, hparts, hall, rfl⟩ := (hmore _ _ (by omega)).mp hbs
      refine ⟨ts ++ c₁.peek :: us, hts.trans (hread.cons hus), ⟨(ts, b) :: parts, ?_, ?_, rfl⟩, List.cons_ne_nil _ _⟩
      · exact List.forall_mem_cons.mpr ⟨hP, hparts⟩
      · exact (hJ.cons _ _ _).mpr (.inr ⟨_, us, hcomma, hall, rfl⟩)
    · rw [if_neg hcomma] at h
      cases h
      refine ⟨ts, hts, ⟨[(ts, b)], List.forall_mem_singleton.mpr hP, ?_, rfl⟩, List.cons_ne_nil _ _⟩
      exact (hJ.cons _ _ _).mpr (.inl ⟨rfl, rfl⟩)
  · rintro ⟨ts, h, ⟨_ | ⟨p, parts⟩, hparts, hall, rfl⟩, hne⟩
    · exact absurd rfl hne
    obtain ⟨hp, hparts⟩ := List.forall_mem_cons.mp hparts
    obtain ⟨hnil, rfl⟩ | ⟨comma, rest, hcomma, hrest, rfl⟩ := (hJ.cons _ _ _).mp hall
    · obtain rfl := List.map_eq_nil_iff.mp hnil
      have hok := (hitem c hn p.2 c').mpr ⟨p.1, h, hp, hnext ▸ hclose.ends_close _ _ hp⟩
      rw [bind_of_ok hok, accept_ite, if_neg (hnext ▸ hclose.comma)]
      rfl
    · obtain ⟨c₁, hts, h⟩ := h.split
      obtain ⟨c₂, hread, h⟩ := h.uncons
      have hlength := hts.length
      have hlength' := hread.length_single
      have hpeek : c₁.peek.kind = .comma := hread.peek ▸ hcomma
      have hok := (hitem c hn p.2 c₁).mpr ⟨p.1, hts, hp, hpeek ▸ hclose.ends_comma _ _ hp⟩
      have hbs := (hmore c₂ _ (by omega)).mpr ⟨rest, h, parts, hparts, hrest, rfl⟩
      rw [bind_of_ok hok, accept_ite, if_pos hpeek, ← hread.eq_advance (hcomma ▸ nofun), bind_of_ok hbs]
      rfl

/-- There are no items just if the closing sign is next. -/
theorem Delimits.none_or_some (hJ : Chained J) (hclose : Delimits P E close) (hnext : c'.peek.kind = close)
    (h : c.Reads ts c') (hitems : Items P J ts bs) :
    (c.peek.kind = close ∧ bs = [] ∧ c' = c) ∨ (c.peek.kind ≠ close ∧ bs ≠ []) := by
  obtain ⟨_ | ⟨p, parts⟩, hparts, hall, rfl⟩ := hitems
  · obtain rfl := hJ.nil _ hall
    obtain rfl := h.eq_of_nil
    exact .inl ⟨hnext, rfl, rfl⟩
  · obtain ⟨us, rfl⟩ : ∃ us, ts = p.1 ++ us := by
      obtain ⟨-, rfl⟩ | ⟨comma, rest, -, -, rfl⟩ := (hJ.cons _ _ _).mp hall
      · exact ⟨[], (List.append_nil _).symm⟩
      · exact ⟨_, rfl⟩
    exact .inr ⟨hclose.peek_ne (hparts p List.mem_cons_self) h, List.cons_ne_nil _ _⟩

theorem Items.ne_nil (h : Items P Joined ts bs) : bs ≠ [] := by
  obtain ⟨_ | ⟨p, parts⟩, -, hjoined, rfl⟩ := h
  · cases hjoined
  · exact List.cons_ne_nil _ _

theorem separated_eq_ok (hitem : Recognizes n item P E) (hclose : Delimits P E close) (hcount : c.rest.length < count)
    (hn : c.rest.length ≤ n) (hnext : c'.peek.kind = close) :
    separated item count c = .ok bs c' ↔ ∃ ts, c.Reads ts c' ∧ Items P Joined ts bs := by
  induction count generalizing c bs with
  | zero => omega
  | succ count ih =>
    rw [separated, items_eq_ok chained_joined hitem hclose hn hnext fun c₁ bs hc₁ => ih (by omega) (by omega)]
    exact exists_congr fun ts => and_congr_right fun _ => and_iff_left_of_imp Items.ne_nil

/-- What stands between brackets is a list, or nothing. -/
theorem separatedUnless_eq_ok (hitem : Recognizes n item P E) (hclose : Delimits P E close)
    (hcount : c.rest.length < count) (hn : c.rest.length ≤ n) (hnext : c'.peek.kind = close) :
    separatedUnless item close count c = .ok bs c' ↔
      ∃ ts, ∃ parts : List (List Token × β), c.Reads ts c' ∧ (∀ p ∈ parts, P p.1 p.2) ∧
        (parts = [] ∧ ts = [] ∨ Joined (parts.map Prod.fst) ts) ∧ bs = parts.map Prod.snd := by
  rw [separatedUnless, kind_bind]
  constructor
  · intro h
    split at h
    · cases h
      exact ⟨[], [], .refl _, List.forall_mem_nil _, .inl ⟨rfl, rfl⟩, rfl⟩
    · obtain ⟨ts, hts, parts, hparts, hjoined, hbs⟩ := (separated_eq_ok hitem hclose hcount hn hnext).mp h
      exact ⟨ts, parts, hts, hparts, .inr hjoined, hbs⟩
  · rintro ⟨ts, parts, hts, hparts, ⟨rfl, rfl⟩ | hjoined, rfl⟩
    · obtain rfl := hts.eq_of_nil
      rw [if_pos hnext]
      rfl
    · have hitems : Items P Joined ts (parts.map Prod.snd) := ⟨parts, hparts, hjoined, rfl⟩
      obtain ⟨-, hnone, -⟩ | ⟨hkind, -⟩ := hclose.none_or_some chained_joined hnext hts hitems
      · exact absurd hnone hitems.ne_nil
      · rw [if_neg hkind]
        exact (separated_eq_ok hitem hclose hcount hn hnext).mpr ⟨ts, hts, hitems⟩

/-- What stands up to a closing sign is a list, perhaps with a comma behind the last item. -/
theorem enclosed_eq_ok (hitem : Recognizes n item P E) (hclose : Delimits P E close) (hcount : c.rest.length ≤ count)
    (hn : c.rest.length ≤ n) (hnext : c'.peek.kind = close) :
    enclosed item close count c = .ok bs c' ↔ ∃ ts, c.Reads ts c' ∧ Items P Listed ts bs := by
  induction count generalizing c bs with
  | zero =>
    -- the closing sign is still to be read, so the count does not run out
    have hsign : c'.peek.kind ≠ .eof := hnext ▸ hclose.eof
    constructor
    · intro h
      cases h
      exact absurd (Cursor.kind_peek_of_length hcount) hsign
    · rintro ⟨ts, hts, -⟩
      have hlength := hts.length
      rw [Cursor.rest_eq_of_kind_peek hsign, List.length_cons] at hlength
      omega
  | succ count ih =>
    have hcases {ts : List Token} (hts : c.Reads ts c') (hitems : Items P Listed ts bs) :=
      hclose.none_or_some chained_listed hnext hts hitems
    rw [enclosed, kind_bind]
    split
    · next hkind =>
      constructor
      · intro h
        cases h
        exact ⟨[], .refl _, [], List.forall_mem_nil _, .nil, rfl⟩
      · rintro ⟨ts, hts, hitems⟩
        obtain ⟨-, rfl, rfl⟩ | ⟨hne, -⟩ := hcases hts hitems
        · rfl
        · exact absurd hkind hne
    · next hkind =>
      rw [items_eq_ok chained_listed hitem hclose hn hnext fun c₁ bs hc₁ => ih (by omega) (by omega)]
      refine exists_congr fun ts => and_congr_right fun hts => and_iff_left_of_imp fun hitems => ?_
      exact (hcases hts hitems).elim (fun h => absurd h.1 hkind) And.right

/-- A list, its closing sign, and what is made of the two. -/
theorem closed_eq_ok {γ : Type} {p : Parse (List β)} {what : String} {start : Span} {make : Span → List β → γ} {g : γ}
    (hk : close ≠ .eof) :
    (do
      let bs ← p
      let _ ← expect close what
      pure (make (← spanFrom start) bs) : Parse γ) c = .ok g c' ↔
      ∃ bs c₁ r, p c = .ok bs c₁ ∧ r.kind = close ∧ c₁.Reads [r] c' ∧ g = make (start.merge c'.last) bs := by
  constructor
  · intro h
    obtain ⟨bs, c₁, hbs, h⟩ := bind_eq_ok.mp h
    obtain ⟨r, c₂, hr, hread, h⟩ := (expect_bind_eq_ok hk).mp h
    cases h
    exact ⟨bs, c₁, r, hbs, hr, hread, rfl⟩
  · rintro ⟨bs, c₁, r, hbs, hr, hread, rfl⟩
    rw [bind_of_ok hbs]
    exact (expect_bind_eq_ok hk).mpr ⟨r, c', hr, hread, rfl⟩

/-- A list up to its closing sign. -/
theorem enclosed_closed_eq_ok {γ : Type} {what : String} {start : Span} {make : Span → List β → γ} {g : γ}
    (hitem : Recognizes n item P E) (hclose : Delimits P E close) (hcount : c.rest.length ≤ count)
    (hn : c.rest.length ≤ n) :
    (do
      let bs ← enclosed item close count
      let _ ← expect close what
      pure (make (← spanFrom start) bs) : Parse γ) c = .ok g c' ↔
      ∃ inner r, ∃ parts : List (List Token × β), c.Reads (inner ++ [r]) c' ∧ (∀ p ∈ parts, P p.1 p.2) ∧
        Listed (parts.map Prod.fst) inner ∧ r.kind = close ∧ g = make (start.merge c'.last) (parts.map Prod.snd) := by
  rw [closed_eq_ok hclose.eof]
  constructor
  · rintro ⟨bs, c₁, r, hbs, hr, hread, rfl⟩
    have hnext : c₁.peek.kind = close := hread.peek ▸ hr
    obtain ⟨inner, hinner, parts, hparts, hlisted, rfl⟩ := (enclosed_eq_ok hitem hclose hcount hn hnext).mp hbs
    exact ⟨inner, r, parts, hinner.snoc hread, hparts, hlisted, hr, rfl⟩
  · rintro ⟨inner, r, parts, h, hparts, hlisted, hr, rfl⟩
    obtain ⟨c₁, hinner, hread⟩ := h.split
    have hnext : c₁.peek.kind = close := hread.peek ▸ hr
    have hbs := (enclosed_eq_ok hitem hclose hcount hn hnext).mpr ⟨inner, hinner, parts, hparts, hlisted, rfl⟩
    exact ⟨_, c₁, r, hbs, hr, hread, rfl⟩

end Lists

end Parse

/-! ## Literals -/

namespace Literal

open Parse

variable {n : Nat} {c c' : Cursor Unit} {l : Literal Span}

theorem delimits {close : TokenKind} (h : close = .rbracket ∨ close = .rparen) :
    Delimits Literal.Derives (fun _ _ => True) close := by
  constructor
  · rcases h with rfl | rfl <;> exact nofun
  · rcases h with rfl | rfl <;> exact nofun
  · intro ts l hl
    obtain ⟨t, ts', rfl, hstart, -⟩ := hl.exists_cons
    refine ⟨t, ts', rfl, ?_⟩
    rintro rfl
    rcases h with heq | heq <;> rw [heq] at hstart <;> cases hstart
  · exact fun _ _ _ => trivial
  · exact fun _ _ _ => trivial

/-- The runs of tokens that are entries of a dictionary. -/
def DerivesEntry (ts : List Token) (b : Literal Span × Literal Span) : Prop :=
  ∃ p : EntryTokens, p.tokens = ts ∧ p.entry = b ∧ Derives p.key b.1 ∧ p.colon.kind = .colon ∧ Derives p.value b.2

theorem delimits_entry : Delimits DerivesEntry (fun _ _ => True) .rbrace := by
  constructor
  · exact nofun
  · exact nofun
  · rintro ts b ⟨p, rfl, -, hkey, -⟩
    obtain ⟨t, ts', hts, hstart, -⟩ := hkey.exists_cons
    refine ⟨t, ts' ++ p.colon :: p.value, by rw [EntryTokens.tokens, hts]; rfl, ?_⟩
    intro heq
    rw [heq] at hstart
    cases hstart
  · exact fun _ _ _ => trivial
  · exact fun _ _ _ => trivial

theorem recognizes_parseEntry {item : Parse (Literal Span)} (hitem : Recognizes n item Derives fun _ _ => True) :
    Recognizes n (parseEntry item) DerivesEntry fun _ _ => True := by
  rintro c hc ⟨key, value⟩ c'
  constructor
  · intro h
    obtain ⟨k, c₁, hkey, h⟩ := bind_eq_ok.mp h
    obtain ⟨colon, c₂, hcolon, hread, h⟩ := (expect_bind_eq_ok (by nofun)).mp h
    obtain ⟨v, c₃, hvalue, h⟩ := bind_eq_ok.mp h
    cases h
    obtain ⟨ks, hks, hk, -⟩ := (hitem c hc key c₁).mp hkey
    have hlength := (hks.snoc hread).length
    obtain ⟨vs, hvs, hv, -⟩ := (hitem c₂ (by omega) value c').mp hvalue
    exact ⟨ks ++ colon :: vs, hks.trans (hread.cons hvs), ⟨⟨ks, colon, vs, (key, value)⟩, rfl, rfl, hk, hcolon, hv⟩,
      trivial⟩
  · rintro ⟨ts, hts, ⟨p, rfl, -, hk, hcolon, hv⟩, -⟩
    obtain ⟨c₁, hks, h⟩ := hts.split
    obtain ⟨c₂, hread, hvs⟩ := h.uncons
    have hlength := (hks.snoc hread).length
    have hkey := (hitem c hc key c₁).mpr ⟨p.key, hks, hk, trivial⟩
    have hvalue := (hitem c₂ (by omega) value c').mpr ⟨p.value, hvs, hv, trivial⟩
    rw [parseEntry, bind_of_ok hkey]
    refine (expect_bind_eq_ok (by nofun)).mpr ⟨p.colon, c₂, hcolon, hread, ?_⟩
    rw [bind_of_ok hvalue]
    rfl

/-- Entries one by one are entries by the tokens of their parts. -/
theorem exists_entryTokens {parts : List (List Token × Literal Span × Literal Span)}
    (h : ∀ p ∈ parts, DerivesEntry p.1 p.2) : ∃ es : List EntryTokens, es.map EntryTokens.tokens = parts.map Prod.fst ∧
      es.map EntryTokens.entry = parts.map Prod.snd ∧ (∀ e ∈ es, Derives e.key e.entry.1) ∧
      (∀ e ∈ es, e.colon.kind = .colon) ∧ ∀ e ∈ es, Derives e.value e.entry.2 := by
  induction parts with
  | nil => exact ⟨[], rfl, rfl, List.forall_mem_nil _, List.forall_mem_nil _, List.forall_mem_nil _⟩
  | cons p parts ih =>
    obtain ⟨hp, hparts⟩ := List.forall_mem_cons.mp h
    obtain ⟨e, htokens, hentry, hkey, hcolon, hvalue⟩ := hp
    obtain ⟨es, htokens', hentries, hkeys, hcolons, hvalues⟩ := ih hparts
    rw [← hentry] at hkey hvalue
    refine ⟨e :: es, ?_, ?_, List.forall_mem_cons.mpr ⟨hkey, hkeys⟩, List.forall_mem_cons.mpr ⟨hcolon, hcolons⟩,
      List.forall_mem_cons.mpr ⟨hvalue, hvalues⟩⟩
    · rw [List.map_cons, List.map_cons, htokens, htokens']
    · rw [List.map_cons, List.map_cons, hentry, hentries]

/-- A literal of one token. -/
theorem single_eq_ok {make : Span → Literal Span} (hc : c.peek.kind ≠ .eof) :
    (do
      let _ ← advance
      pure (make (← spanFrom c.peek.span)) : Parse (Literal Span)) c = .ok l c' ↔
      c.Reads [c.peek] c' ∧ l = make (Token.extent [c.peek]) := by
  have hread := Cursor.reads_advance hc
  rw [advance_bind, spanFrom_bind, hread.extent]
  constructor
  · intro h
    cases h
    exact ⟨hread, rfl⟩
  · rintro ⟨h, rfl⟩
    rw [h.unique hread]
    rfl

/-- A literal that is a list in brackets. -/
theorem bracketed_eq_ok {β : Type} {item : Parse β} {P : List Token → β → Prop} {E : List Token → TokenKind → Prop}
    {close : TokenKind} {what : String} {make : Span → List β → Literal Span} (hitem : Recognizes n item P E)
    (hclose : Delimits P E close) (hc : c.peek.kind ≠ .eof) (hn : c.rest.length ≤ n + 1) :
    (do
      let _ ← advance
      let bs ← enclosed item close n
      let _ ← expect close what
      pure (make (← spanFrom c.peek.span) bs) : Parse (Literal Span)) c = .ok l c' ↔
      ∃ inner r, ∃ parts : List (List Token × β), c.Reads (c.peek :: inner ++ [r]) c' ∧ (∀ p ∈ parts, P p.1 p.2) ∧
        Listed (parts.map Prod.fst) inner ∧ r.kind = close ∧
        l = make (Token.extent (c.peek :: inner ++ [r])) (parts.map Prod.snd) := by
  have hread := Cursor.reads_advance hc
  have hlength := hread.length_single
  rw [advance_bind, enclosed_closed_eq_ok hitem hclose (by omega) (by omega)]
  constructor
  · rintro ⟨inner, r, parts, h, hparts, hlisted, hr, rfl⟩
    have hall := hread.cons h
    rw [hall.extent]
    exact ⟨inner, r, parts, hall, hparts, hlisted, hr, rfl⟩
  · rintro ⟨inner, r, parts, h, hparts, hlisted, hr, rfl⟩
    obtain ⟨c₁, hfirst, hinner⟩ := h.uncons
    rw [hfirst.unique hread] at hinner
    exact ⟨inner, r, parts, hinner, hparts, hlisted, hr, congrArg (make · _) h.extent.symm⟩

/-- Literals are read as the grammar says, whatever comes behind them. -/
theorem recognizes_parseWithin (n : Nat) : Recognizes n (parseWithin n) Literal.Derives fun _ _ => True := by
  induction n with
  | zero =>
    refine recognizes_zero fun ts l hl => ?_
    obtain ⟨t, ts', rfl, -⟩ := hl.exists_cons
    exact List.cons_ne_nil t ts'
  | succ n ih =>
    intro c hc l c'
    rw [parseWithin, look_bind, kind_bind]
    constructor
    · intro h
      cases hkind : c.peek.kind with
      | int | float | string =>
        rw [hkind] at h
        obtain ⟨hread, rfl⟩ := (single_eq_ok (hkind ▸ nofun)).mp h
        exact ⟨_, hread, by constructor; exact hkind, trivial⟩
      | keyword word =>
        rw [hkind] at h
        cases word with
        | trueKw | falseKw =>
          obtain ⟨hread, rfl⟩ := (single_eq_ok (hkind ▸ nofun)).mp h
          exact ⟨_, hread, by constructor; exact hkind, trivial⟩
        | _ => exact absurd h expected_ne_ok
      | lbracket =>
        rw [hkind] at h
        obtain ⟨inner, r, parts, hread, hparts, hlisted, hr, rfl⟩ :=
          (bracketed_eq_ok ih (delimits (.inl rfl)) (hkind ▸ nofun) hc).mp h
        exact ⟨_, hread, .list parts hkind hparts hlisted hr, trivial⟩
      | lparen =>
        rw [hkind] at h
        obtain ⟨inner, r, parts, hread, hparts, hlisted, hr, rfl⟩ :=
          (bracketed_eq_ok ih (delimits (.inr rfl)) (hkind ▸ nofun) hc).mp h
        exact ⟨_, hread, .tuple parts hkind hparts hlisted hr, trivial⟩
      | lbrace =>
        rw [hkind] at h
        obtain ⟨inner, r, parts, hread, hparts, hlisted, hr, rfl⟩ :=
          (bracketed_eq_ok (recognizes_parseEntry ih) delimits_entry (hkind ▸ nofun) hc).mp h
        obtain ⟨es, htokens, hentries, hkeys, hcolons, hvalues⟩ := exists_entryTokens hparts
        rw [← htokens] at hlisted
        rw [← hentries]
        exact ⟨_, hread, .dict es hkind hkeys hcolons hvalues hlisted hr, trivial⟩
      | _ =>
        rw [hkind] at h
        exact absurd h expected_ne_ok
    · rintro ⟨ts, hts, hl, -⟩
      cases hl with
      | int hkind | float hkind | string hkind | true hkind | false hkind =>
        have hpeek := hts.peek
        subst hpeek
        rw [hkind]
        exact (single_eq_ok (hkind ▸ nofun)).mpr ⟨hts, rfl⟩
      | list parts hkind hparts hlisted hr =>
        have hpeek := hts.peek
        subst hpeek
        rw [hkind]
        exact (bracketed_eq_ok ih (delimits (.inl rfl)) (hkind ▸ nofun) hc).mpr
          ⟨_, _, parts, hts, hparts, hlisted, hr, rfl⟩
      | tuple parts hkind hparts hlisted hr =>
        have hpeek := hts.peek
        subst hpeek
        rw [hkind]
        exact (bracketed_eq_ok ih (delimits (.inr rfl)) (hkind ▸ nofun) hc).mpr
          ⟨_, _, parts, hts, hparts, hlisted, hr, rfl⟩
      | dict es hkind hkeys hcolons hvalues hlisted hr =>
        have hpeek := hts.peek
        subst hpeek
        rw [hkind]
        refine (bracketed_eq_ok (recognizes_parseEntry ih) delimits_entry (hkind ▸ nofun) hc).mpr
          ⟨_, _, es.map fun e => (e.tokens, e.entry), hts, ?_, ?_, hr, ?_⟩
        · intro p hp
          obtain ⟨e, he, rfl⟩ := List.mem_map.mp hp
          exact ⟨e, rfl, rfl, hkeys e he, hcolons e he, hvalues e he⟩
        · rwa [List.map_map]
        · rw [List.map_map]
          rfl

theorem recognizes_parse (n : Nat) : Recognizes n parse Literal.Derives fun _ _ => True := by
  intro c _ l c'
  rw [parse, left_bind]
  exact recognizes_parseWithin _ c (Nat.le_succ _) l c'

end Literal

end QiIdl
