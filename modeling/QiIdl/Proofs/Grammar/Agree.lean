import QiIdl.Proofs.Ast.Every
import QiIdl.Proofs.Grammar.Standing

/-!
# Two runs compared

A reader takes what it gives from the kinds of the tokens, and tokens carry only what their classes allow. So two readers
are run on clean tokens of the same kinds, with arenas of the same outlines. They `Agree` up to a relation when both
succeed with related results, or both fail, and what they leave is again alike. The relation says how much of a result
is the same in both runs: of a span nothing, of a name everything, of a tree all but its spans. It also says what is
known of the result, such as that a name is spelled as names are.

On the way the first reader keeps to its `Ground`: it stays on a row, or anywhere on the rows of a file, and if it fails it
blames something on the row where it stands then.

Readers that agree are agreed on by what is built from them, rule by rule below. A reader is compared with itself as a
rule; two come in behind a bind, where a reader carries on with a span or a tree that differs between the runs.
-/

namespace QiIdl

/-- The tokens to be read are clean and of the same kinds, equally many faults were recovered from, and the nodes made
differ in their spans alone. -/
structure Cursor.Like (c c' : Cursor Arena) : Prop where
  kinds : c.rest.map Token.kind = c'.rest.map Token.kind
  clean : ∀ t ∈ c.rest, t.kind.Clean
  faults : c.faults.length = c'.faults.length
  kept : c.kept.map Node.outline = c'.kept.map Node.outline

/-- What readers keep while they succeed, and what holds when they fail. On the row where it stands a reader can move
freely, and it can blame anything there. -/
structure Ground where
  Holds : Cursor Arena → Prop
  Fails : Fault → Cursor Arena → Prop
  exists_spot : ∀ c, Holds c → ∃ (rows : FileRows) (spot : Spot rows), spot.Stands c ∧
    ∀ d, spot.Stands d → Holds d ∧ ∀ f : Fault, f.span.On spot.row → Fails f d

/-- Readers stay on one row. -/
def Spot.ground {rows : FileRows} (spot : Spot rows) : Ground where
  Holds := spot.Stands
  Fails f c := spot.Stands c ∧ f.span.On spot.row
  exists_spot _ hc := ⟨rows, spot, hc, fun _ hd => ⟨hd, fun _ hf => ⟨hd, hf⟩⟩⟩

/-- Readers stay on the rows of a file. -/
def FileRows.ground (rows : FileRows) : Ground where
  Holds := Reached rows
  Fails := Failed rows
  exists_spot := by
    rintro c ⟨spot, hc⟩
    exact ⟨rows, spot, hc, fun d hd => ⟨⟨spot, hd⟩, fun f hf => ⟨spot, hd, hf⟩⟩⟩

/-- Where the same is to be read, and `A` holds of the next token, two readers succeed alike or fail alike, and the first
one keeps to its ground. -/
def Agree {β : Type} (G : Ground) (R : β → β → Prop) (p p' : Reading Arena β)
    (A : Token → Prop := fun _ => True) : Prop :=
  ∀ c c' : Cursor Arena, c.Like c' → G.Holds c → A c.peek → match p c, p' c' with
    | .ok b d, .ok b' d' => R b b' ∧ d.Like d' ∧ G.Holds d
    | .error f d, .error _ d' => d.Like d' ∧ G.Fails f d
    | _, _ => False

/-- A reader agrees with itself. -/
abbrev Agrees {β : Type} (G : Ground) (R : β → β → Prop) (p : Reading Arena β)
    (A : Token → Prop := fun _ => True) : Prop :=
  Agree G R p p A

/-- Both runs have the same, and it has a property. -/
def Both {β : Type} (P : β → Prop) (b b' : β) : Prop := b = b' ∧ P b

theorem Both.rfl {β : Type} {P : β → Prop} {b : β} (h : P b) : Both P b b := ⟨Eq.refl b, h⟩

namespace Cursor.Like

variable {c c' : Cursor Arena}

theorem kind_headD (ts : List Token) (t : Token) : (ts.headD t).kind = (ts.map Token.kind).headD t.kind := by
  cases ts <;> rfl

theorem kind_peek (h : c.Like c') : c.peek.kind = c'.peek.kind := by
  rw [peek, peek, kind_headD, kind_headD, h.kinds]

theorem kind_peekSecond (h : c.Like c') : c.peekSecond.kind = c'.peekSecond.kind := by
  rw [peekSecond, peekSecond, kind_headD, kind_headD, List.map_drop, List.map_drop, h.kinds, h.kind_peek]

theorem clean_peek (h : c.Like c') : c.peek.kind.Clean := by
  unfold Cursor.peek
  cases hc : c.rest with
  | nil => trivial
  | cons t rest => exact h.clean t (by simp [hc])

theorem length_rest (h : c.Like c') : c.rest.length = c'.rest.length := by
  simpa using congrArg List.length h.kinds

theorem advance (h : c.Like c') : c.advance.Like c'.advance := by
  obtain ⟨hkinds, hclean, hfaults, hkept⟩ := h
  unfold Cursor.advance
  cases hc : c.rest with
  | nil =>
    rw [hc] at hkinds
    cases hc' : c'.rest with
    | nil => exact ⟨by simp [hc, hc'], hclean, hfaults, hkept⟩
    | cons t' rest' => simp [hc'] at hkinds
  | cons t rest =>
    cases hc' : c'.rest with
    | nil => simp [hc, hc'] at hkinds
    | cons t' rest' =>
      rw [hc, hc', List.map_cons, List.map_cons, List.cons.injEq] at hkinds
      by_cases heof : t.kind = .eof
      · simp only [heof, hkinds.1 ▸ heof, if_true]
        exact ⟨by simp [hc, hc', hkinds], hclean, hfaults, hkept⟩
      · simp only [heof, hkinds.1 ▸ heof, if_false]
        exact ⟨hkinds.2, fun u hu => hclean u (by simp [hc, hu]), hfaults, hkept⟩

theorem nextLine (h : c.Like c') : c.nextLine.Like c'.nextLine := by
  have hgo : ∀ (toks toks' : List Token) (last last' : Span), toks.map Token.kind = toks'.map Token.kind →
      (∀ t ∈ toks, t.kind.Clean) → (Cursor.nextLine.go c last toks).Like (Cursor.nextLine.go c' last' toks') := by
    intro toks
    induction toks with
    | nil =>
      intro toks' last last' hkinds hclean
      rw [List.map_nil, eq_comm, List.map_eq_nil_iff] at hkinds
      subst hkinds
      exact ⟨rfl, hclean, h.faults, h.kept⟩
    | cons t rest ih =>
      intro toks' last last' hkinds hclean
      obtain ⟨t', rest', rfl, ht, hrest⟩ := List.map_eq_cons_iff.mp hkinds.symm
      have hclean' := (List.forall_mem_cons.mp hclean).2
      rw [Cursor.nextLine.go, Cursor.nextLine.go, ht]
      split
      · exact ⟨hkinds, hclean, h.faults, h.kept⟩
      · split
        · exact ⟨hrest.symm, hclean', h.faults, h.kept⟩
        · exact ih rest' _ _ hrest.symm hclean'
  exact hgo c.rest c'.rest c.last c'.last h.kinds h.clean

end Cursor.Like

namespace Ground

variable {G : Ground} {c : Cursor Arena}

theorem advance (hc : G.Holds c) (hpeek : c.peek.kind.endsRow = false) : G.Holds c.advance := by
  obtain ⟨rows, spot, hstands, hspot⟩ := G.exists_spot c hc
  exact (hspot _ (hstands.advance hpeek)).1

/-- What is kept does not matter. -/
theorem keep (hc : G.Holds c) (kept : Arena) : G.Holds { c with kept := kept } := by
  obtain ⟨rows, spot, hstands, hspot⟩ := G.exists_spot c hc
  exact (hspot { c with kept := kept } ⟨hstands.rest, hstands.faults⟩).1

/-- The next token can be blamed. -/
theorem fails_peek {f : Fault} (hc : G.Holds c) (hf : f.span = c.peek.span) : G.Fails f c := by
  obtain ⟨rows, spot, hstands, hspot⟩ := G.exists_spot c hc
  exact (hspot c hstands).2 f (hf ▸ Span.on_of_mem hstands.peek_mem)

end Ground

namespace Agree

variable {β γ : Type} {G : Ground} {rows : FileRows} {spot : Spot rows} {R : β → β → Prop} {S : γ → γ → Prop}
  {P : β → Prop} {A : Token → Prop} {p p' : Reading Arena β} {f f' : β → Reading Arena γ} {k : TokenKind}

theorem pure {b b' : β} (h : R b b') : Agree G R (Pure.pure b) (Pure.pure b') A := fun _ _ hc hG _ => ⟨h, hc, hG⟩

theorem bind (hp : Agree G R p p' A) (hf : ∀ b b', R b b' → Agree G S (f b) (f' b')) :
    Agree G S (p >>= f) (p' >>= f') A := by
  intro c c' hc hG hA
  have hruns := hp c c' hc hG hA
  cases h : p c with
  | ok b d =>
    cases h' : p' c' with
    | ok b' d' =>
      rw [h, h'] at hruns
      simp only [Bind.bind, EStateM.bind, h, h']
      exact hf b b' hruns.1 d d' hruns.2.1 hruns.2.2 trivial
    | error e' d' =>
      rw [h, h'] at hruns
      exact hruns.elim
  | error e d =>
    cases h' : p' c' with
    | ok b' d' =>
      rw [h, h'] at hruns
      exact hruns.elim
    | error e' d' =>
      rw [h, h'] at hruns
      simp only [Bind.bind, EStateM.bind, h, h']
      exact hruns

/-- Behind a reader that gives the same in both runs. -/
theorem seq (hp : Agree G (Both P) p p' A) (hf : ∀ b, P b → Agree G S (f b) (f' b)) :
    Agree G S (p >>= f) (p' >>= f') A := by
  refine hp.bind fun b b' hb => ?_
  obtain ⟨rfl, h⟩ := hb
  exact hf b h

theorem mono {T : β → β → Prop} (hp : Agree G R p p' A) (h : ∀ b b', R b b' → T b b') : Agree G T p p' A := by
  intro c c' hc hG hA
  have hruns := hp c c' hc hG hA
  cases hr : p c <;> cases hr' : p' c' <;> rw [hr, hr'] at hruns
  · exact ⟨h _ _ hruns.1, hruns.2⟩
  · exact hruns
  · exact hruns
  · exact hruns

/-- What is known of the next token need not be used. -/
theorem any (hp : Agree G R p p') : Agree G R p p' A := fun c c' hc hG _ => hp c c' hc hG trivial

/-- What stays on each row that it is started on stays on any ground. -/
theorem lift (hp : ∀ {rows : FileRows} {spot : Spot rows}, Agree spot.ground R p p') : Agree G R p p' := by
  intro c c' hc hG _
  obtain ⟨rows, spot, hstands, hspot⟩ := G.exists_spot c hG
  have hruns := @hp rows spot c c' hc hstands trivial
  cases hr : p c <;> cases hr' : p' c' <;> rw [hr, hr'] at hruns
  · exact ⟨hruns.1, hruns.2.1, (hspot _ hruns.2.2).1⟩
  · exact hruns
  · exact hruns
  · exact ⟨hruns.1, (hspot _ hruns.2.1).2 _ hruns.2.2⟩

/-! ## Tokens -/

/-- A fault on the row. -/
theorem failAt {error error' : SyntaxError} {span span' : Span} (h : span.On spot.row) :
    Agree spot.ground R (Parse.failAt error span) (Parse.failAt error' span') A := fun _ _ hc hG _ => ⟨hc, hG, h⟩

/-- A fault at the token that is looked at. -/
theorem failLooked {t : Token} {error error' : SyntaxError} {span' : Span} :
    Agree G R (Parse.failAt error t.span) (Parse.failAt error' span') (· = t) :=
  fun _ _ hc hG hpeek => ⟨hc, G.fails_peek hG (congrArg Token.span hpeek.symm)⟩

theorem expected (what : String) : Agrees G R (Parse.expected what) A :=
  fun _ _ hc hG _ => ⟨hc, G.fails_peek hG rfl⟩

theorem look : Agrees G (fun _ _ => True) Parse.look := fun _ _ hc hG _ => ⟨trivial, hc, hG⟩

theorem kind : Agrees G (Both TokenKind.Clean) Parse.kind :=
  fun _ _ hc hG _ => ⟨⟨hc.kind_peek, hc.clean_peek⟩, hc, hG⟩

theorem left : Agrees G (Both fun _ => True) Parse.left :=
  fun _ _ hc hG _ => ⟨⟨hc.length_rest, trivial⟩, hc, hG⟩

/-- Spans differ between the runs. -/
theorem span {start start' : Span} {f f' : Span → Reading Arena γ} (h : ∀ s s', Agree G S (f s) (f' s')) :
    Agree G S (Parse.spanFrom start >>= f) (Parse.spanFrom start' >>= f') := fun _ _ hc hG _ => h _ _ _ _ hc hG trivial

/-- Nodes that differ in their spans alone get the same number. -/
theorem enter {span span' : Span} {build build' : Mark → β} {node : β → Node Mark}
    (h : ∀ m m', m.id = m'.id → R (build m) (build' m'))
    (hnode : ∀ m m', m.id = m'.id → (node (build m)).outline = (node (build' m')).outline) :
    Agree G R (Parse.enter span build node) (Parse.enter span' build' node) := by
  intro c c' hc hG _
  have hsize : c.kept.size = c'.kept.size := by simpa using congrArg Array.size hc.kept
  have hnew := hnode ⟨c.kept.size, span⟩ ⟨c'.kept.size, span'⟩ hsize
  refine ⟨h _ _ hsize, ⟨hc.kinds, hc.clean, hc.faults, ?_⟩, G.keep hG _⟩
  show (c.kept.push _).map Node.outline = (c'.kept.push _).map Node.outline
  rw [Array.map_push, Array.map_push, hc.kept, hnew]

/-- What follows on the next token. -/
theorem onToken {f f' : Token → Reading Arena γ} (h : ∀ t t', t.kind = t'.kind → Agree G S (f t) (f' t') (· = t)) :
    Agree G S (Parse.look >>= f) (Parse.look >>= f') :=
  fun c c' hc hG _ => h c.peek c'.peek hc.kind_peek c c' hc hG rfl

theorem onKind {f f' : TokenKind → Reading Arena γ} (h : ∀ k, k.Clean → Agree G S (f k) (f' k) (·.kind = k)) :
    Agree G S (Parse.kind >>= f) (Parse.kind >>= f') := by
  intro c c' hc hG _
  have hruns := h c.peek.kind hc.clean_peek c c' hc hG rfl
  have hsame : (Parse.kind >>= f') c' = f' c.peek.kind c' := congrArg (f' · c') hc.kind_peek.symm
  rw [hsame]
  exact hruns

/-- What a reader that looks two tokens ahead goes by. -/
theorem onCursor {f f' : Cursor Arena → Reading Arena γ}
    (h : ∀ c c', c.Like c' → Agree G S (f c) (f' c') (·.kind = c.peek.kind)) :
    Agree G S (MonadState.get >>= f) (MonadState.get >>= f') := fun c c' hc hG _ => h c c' hc c c' hc hG rfl

theorem modifyAdvance (hk : k.endsRow = false) :
    Agree G (fun _ _ => True) (modify Cursor.advance) (modify Cursor.advance) (·.kind = k) :=
  fun _ _ hc hG hpeek => ⟨trivial, hc.advance, G.advance hG (hpeek ▸ hk)⟩

theorem advance (hk : k.endsRow = false) : Agrees G (fun _ _ => True) Parse.advance (·.kind = k) :=
  fun _ _ hc hG hpeek => ⟨trivial, hc.advance, G.advance hG (hpeek ▸ hk)⟩

/-- A token that has been looked at is read. -/
theorem step {f f' : Token → Reading Arena γ} (hk : k.endsRow = false) (hf : ∀ t t', Agree G S (f t) (f' t')) :
    Agree G S (Parse.advance >>= f) (Parse.advance >>= f') (·.kind = k) :=
  .bind (advance hk) fun t t' _ => hf t t'

theorem accept (hk : k.endsRow = false) : Agrees G (Both fun _ => True) (Parse.accept k) := by
  refine onKind fun _ _ => ?_
  split
  · rename_i heq
    exact .bind (modifyAdvance (heq.symm ▸ hk)) fun _ _ _ => .pure (.rfl trivial)
  · exact .pure (.rfl trivial)

theorem expect (hk : k.endsRow = false) (what : String) :
    Agrees G (fun _ _ => True) (Parse.expect k what) := by
  refine onKind fun _ _ => ?_
  split
  · rename_i heq
    exact advance (heq.symm ▸ hk)
  · exact expected what

/-! ## Lines -/

theorem lineEnd : Agrees rows.ground (fun _ _ => True) Parse.lineEnd := by
  have hadvance : Agree rows.ground (fun _ _ => True) (modify Cursor.advance) (modify Cursor.advance) :=
    fun _ _ hc hG _ => ⟨trivial, hc.advance, Reached.advance hG⟩
  have haccept : Agrees rows.ground (Both fun _ => True) (Parse.accept .newline) := by
    refine .seq kind fun _ _ => ?_
    split
    · exact .bind hadvance fun _ _ _ => .pure (.rfl trivial)
    · exact .pure (.rfl trivial)
  refine .seq haccept fun _ _ => ?_
  split
  · exact .pure trivial
  · refine .seq kind fun _ _ => ?_
    split
    · exact .pure trivial
    · exact expected _

theorem recover (hp : Agree rows.ground R p p' A) :
    Agree rows.ground (Option.Rel R) (Parse.recover p) (Parse.recover p') A := by
  intro c c' hc hG hA
  have hruns := hp c c' hc hG hA
  unfold Parse.recover
  -- a fault in one run is a fault in the other, and both go on at the next line
  cases h : p c <;> cases h' : p' c' <;> rw [h, h'] at hruns
  · exact ⟨.some hruns.1, hruns.2⟩
  · exact hruns.elim
  · exact hruns.elim
  · obtain ⟨hlike, hfailed⟩ := hruns
    exact ⟨.none, Cursor.Like.nextLine ⟨hlike.kinds, hlike.clean, by simp [hlike.faults], hlike.kept⟩,
      Failed.nextLine hfailed⟩

theorem isDoc_join {doc : Option String} {line : String} (hdoc : IsDoc doc)
    (hline : Lexeme.IsRemark line.toList) : IsDoc (joinDoc doc line) := by
  intro text htext
  have hpieces : Text.pieces '\n' line.toList = [line.toList] := Text.pieces_of_not_mem hline.feed
  cases doc with
  | none =>
    cases htext
    intro piece hpiece
    rw [hpieces, List.mem_singleton] at hpiece
    rwa [hpiece]
  | some lines =>
    cases htext
    intro piece hpiece
    have hlist : (s!"{lines}\n{line}").toList = lines.toList ++ '\n' :: line.toList := by
      simp [String.toList_append, toString]
    rw [hlist, Text.pieces_append_cons, hpieces, List.mem_append, List.mem_singleton] at hpiece
    rcases hpiece with hpiece | rfl
    · exact hdoc lines rfl piece hpiece
    · exact hline

theorem layout (comments : Bool) {doc : Option String} (hdoc : IsDoc doc) :
    Agrees rows.ground (Both IsDoc) (Parse.layout comments doc) := by
  intro c c' hc hG _
  have hgo : ∀ (toks toks' : List Token) (doc : Option String) (last last' : Span), IsDoc doc →
      toks.map Token.kind = toks'.map Token.kind → (∀ t ∈ toks, t.kind.Clean) →
      Reached rows { c with rest := toks, last := last } →
      Both IsDoc (Parse.layout.go comments c doc last toks).1 (Parse.layout.go comments c' doc last' toks').1 ∧
        (Parse.layout.go comments c doc last toks).2.Like (Parse.layout.go comments c' doc last' toks').2 ∧
        Reached rows (Parse.layout.go comments c doc last toks).2 := by
    intro toks
    induction toks with
    | nil =>
      intro toks' doc last last' hdoc hkinds hclean hreached
      rw [List.map_nil, eq_comm, List.map_eq_nil_iff] at hkinds
      subst hkinds
      exact ⟨.rfl hdoc, ⟨rfl, hclean, hc.faults, hc.kept⟩, hreached⟩
    | cons t rest ih =>
      intro toks' doc last last' hdoc hkinds hclean hreached
      obtain ⟨t', rest', rfl, ht, hrest⟩ := List.map_eq_cons_iff.mp hkinds.symm
      obtain ⟨htoken, hclean'⟩ := List.forall_mem_cons.mp hclean
      have hnext (hkind : t.kind ≠ .eof) : Reached rows { c with rest := rest, last := t.span } :=
        Cursor.advance_cons hkind ▸ hreached.advance
      rw [Parse.layout.go, Parse.layout.go, ht]
      split
      · rename_i hkind
        exact ih rest' _ _ _ hdoc hrest.symm hclean' (hnext (by simp [hkind]))
      · rename_i text hkind
        rw [hkind] at htoken
        exact ih rest' _ _ _ (isDoc_join hdoc htoken) hrest.symm hclean' (hnext (by simp [hkind]))
      · rename_i text hkind
        split
        · exact ih rest' _ _ _ hdoc hrest.symm hclean' (hnext (by simp [hkind]))
        · exact ⟨.rfl hdoc, ⟨hkinds, hclean, hc.faults, hc.kept⟩, hreached⟩
      · exact ⟨.rfl hdoc, ⟨hkinds, hclean, hc.faults, hc.kept⟩, hreached⟩
  exact hgo c.rest c'.rest doc c.last c'.last hdoc hc.kinds hc.clean hG

/-! ## Names and lists -/

theorem name (what : String) : Agrees G (Both IsName) (Parse.name what) := by
  refine onKind fun k hk => ?_
  split
  · exact .bind (modifyAdvance rfl) fun _ _ _ => .pure (.rfl hk)
  · exact expected what

theorem dottedRest : ∀ (count : Nat) {text : String}, IsDotted text →
    Agrees G (Both IsDotted) (Parse.dottedRest count text)
  | 0, _, h => .pure (.rfl h)
  | count + 1, text, h => by
    refine .seq (accept rfl) fun _ _ => ?_
    split
    · refine .seq (name _) fun segment hs => ?_
      have hsnoc : s!"{text}.{segment}" = text ++ "." ++ segment := by simp [toString]
      rw [hsnoc]
      exact dottedRest count (h.snoc hs)
    · exact .pure (.rfl h)

theorem dottedName (what : String) : Agrees G (Both IsDotted) (Parse.dottedName what) :=
  .seq (name what) fun _ h => .seq left fun _ _ => dottedRest _ h.isDotted

theorem separated (hp : Agree G R p p') : ∀ count,
    Agree G (List.Forall₂ R) (Parse.separated p count) (Parse.separated p' count)
  | 0 => .pure .nil
  | count + 1 => by
    refine .bind hp fun b b' hb => .seq (accept rfl) fun _ _ => ?_
    split
    · exact .bind (separated hp count) fun bs bs' hbs => .pure (.cons hb hbs)
    · exact .pure (.cons hb .nil)

theorem enclosed (hp : Agree G R p p') (close : TokenKind) : ∀ count,
    Agree G (List.Forall₂ R) (Parse.enclosed p close count) (Parse.enclosed p' close count)
  | 0 => .pure .nil
  | count + 1 => by
    refine .seq kind fun _ _ => ?_
    split
    · exact .pure .nil
    · refine .bind hp fun b b' hb => .seq (accept rfl) fun _ _ => ?_
      split
      · exact .bind (enclosed hp close count) fun bs bs' hbs => .pure (.cons hb hbs)
      · exact .pure (.cons hb .nil)

theorem separatedUnless (hp : Agree G R p p') (close : TokenKind) (count : Nat) :
    Agree G (List.Forall₂ R) (Parse.separatedUnless p close count) (Parse.separatedUnless p' close count) := by
  refine .seq kind fun _ _ => ?_
  split
  · exact .pure .nil
  · exact separated hp count

/-- Trees that are read from a row have their spans on it. -/
theorem lays {V : β → List (Tree (Node Mark))} (hp : Agree spot.ground R p p') (hlays : Lays p V) :
    Agree spot.ground (fun b b' => R b b' ∧ ∀ t ∈ V b, t.label.tag.span.On spot.row) p p' := by
  intro c c' hc hstands _
  have hruns := hp c c' hc hstands trivial
  cases hr : p c <;> cases hr' : p' c' <;> rw [hr, hr'] at hruns
  case ok.ok b d b' d' =>
    obtain ⟨hb, hlike, hstands'⟩ := hruns
    refine ⟨⟨hb, ?_⟩, hlike, hstands'⟩
    have hfaults : d.faults.length = c.faults.length := by rw [hstands.faults, hstands'.faults]
    obtain ⟨seg, hmoves, hall, -⟩ := (hlays c.kept).run hr hfaults (.nil c) ⟨rfl, rfl⟩
    -- what was read is what is no longer left of the row
    obtain ⟨left, hleft, -, hrest⟩ := hstands.rest
    obtain ⟨left', -, -, hrest'⟩ := hstands'.rest
    have hseg : left = seg ++ left' := by
      have heq := hmoves.rest
      rw [hrest, hrest', ← List.append_assoc] at heq
      exact List.append_cancel_right heq
    intro t ht
    obtain ⟨part, hpart, hlies⟩ := hall.exists_lies t ht
    obtain ⟨start, hopens, last, hlast, heq⟩ := hlies.covers
    have hmem {u : Token} (hu : u ∈ part) : u ∈ spot.row :=
      hleft.subset (hseg ▸ List.mem_append_left _ (hpart.subset hu))
    obtain ⟨first, hfirst, rfl⟩ := Option.map_eq_some_iff.mp hopens.first
    exact ⟨first, hmem (List.mem_of_mem_head? hfirst), last, hmem (List.mem_of_getLast? hlast), heq⟩
  all_goals exact hruns

end Agree

end QiIdl
