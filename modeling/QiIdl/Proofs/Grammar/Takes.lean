import QiIdl.Grammar.File
import QiIdl.Proofs.Format.Printed

/-!
# What readers take

A reader decides by the kinds of tokens alone; their spans only end up in tags. `Takes p ks next Q` says that on
tokens of the kinds `ks`, followed by tokens of the kinds `next`, the reader `p` succeeds, stops right before
`next`, keeps the faults there were, and gives something that satisfies `Q`. Nor does it matter what is kept on the
way, so a reader of any kind of tags may be meant.

What is read in sequence is written as a list of kinds in sequence. There are three ways to take the first reader
off: it looks only (`peek`), it takes one token (`step`), or it takes a part of the kinds (`bind`).
-/

namespace QiIdl

/-- On tokens of the kinds `ks` before `next`, a reader takes exactly these and gives what satisfies `Q`. -/
def Takes {σ β : Type} (p : Reading σ β) (ks next : List TokenKind) (Q : β → Prop) : Prop :=
  ∀ (toks rest : List Token) (last : Span) (faults : List Fault) (kept : σ),
    toks.map Token.kind = ks → rest.map Token.kind = next →
    ∃ b last' kept', p ⟨toks ++ rest, last, faults, kept⟩ = .ok b ⟨rest, last', faults, kept'⟩ ∧ Q b

/-- The kind of the first of some tokens. Behind the last token the end of the file goes on. -/
def headKind (ks : List TokenKind) : TokenKind := ks.headD .eof

theorem headKind_append {ks : List TokenKind} (h : ks ≠ []) (next : List TokenKind) :
    headKind (ks ++ next) = headKind ks := by
  obtain ⟨k, ks, rfl⟩ := List.exists_cons_of_ne_nil h
  rfl

namespace Takes

variable {σ α β γ : Type} [Keeping σ α] {p : Reading σ β} {f : β → Reading σ γ} {ks js next : List TokenKind}
  {k : TokenKind} {P Q : β → Prop} {R : γ → Prop}

theorem pure {b : β} (h : Q b) : Takes (Pure.pure b : Reading σ β) [] next Q := by
  intro toks rest last faults kept htoks _
  rw [List.map_eq_nil_iff] at htoks
  subst htoks
  exact ⟨b, last, kept, rfl, h⟩

theorem bind (hp : Takes p ks (js ++ next) P) (hf : ∀ b, P b → Takes (f b) js next R) :
    Takes (p >>= f) (ks ++ js) next R := by
  intro toks rest last faults kept htoks hrest
  obtain ⟨toks, more, rfl, hks, hjs⟩ := List.map_eq_append_iff.mp htoks
  obtain ⟨b, last', kept', hok, hb⟩ := hp toks (more ++ rest) last faults kept hks (by simp [hjs, hrest])
  obtain ⟨c, last'', kept'', hok', hc⟩ := hf b hb more rest last' faults kept' hjs hrest
  refine ⟨c, last'', kept'', ?_, hc⟩
  rw [List.append_assoc]
  simp only [Bind.bind, EStateM.bind, hok, hok']

theorem peek (hp : Takes p [] (ks ++ next) P) (hf : ∀ b, P b → Takes (f b) ks next R) :
    Takes (p >>= f) ks next R := bind hp hf

theorem step (hp : Takes p [k] (ks ++ next) P) (hf : ∀ b, P b → Takes (f b) ks next R) :
    Takes (p >>= f) (k :: ks) next R := bind hp hf

/-- The first reader takes all there is. -/
theorem last (hp : Takes p ks next P) (hf : ∀ b, P b → Takes (f b) [] next R) : Takes (p >>= f) ks next R := by
  rw [← List.append_nil ks]
  exact bind hp hf

theorem mono (hp : Takes p ks next P) (h : ∀ b, P b → Q b) : Takes p ks next Q := by
  intro toks rest last faults kept htoks hrest
  obtain ⟨b, last', kept', hok, hb⟩ := hp toks rest last faults kept htoks hrest
  exact ⟨b, last', kept', hok, h b hb⟩

/-! ## Looking -/

theorem kind_peek {rest : List Token} {last : Span} {faults : List Fault} {kept : σ} (h : rest.map Token.kind = next) :
    (Cursor.mk rest last faults kept).peek.kind = headKind next := by
  subst h
  cases rest <;> rfl

theorem look : Takes (Parse.look : Reading σ Token) [] next fun t => t.kind = headKind next := by
  intro toks rest last faults kept htoks hrest
  rw [List.map_eq_nil_iff] at htoks
  subst htoks
  exact ⟨_, last, kept, rfl, kind_peek hrest⟩

theorem kind : Takes (Parse.kind : Reading σ TokenKind) [] next fun k => k = headKind next := by
  intro toks rest last faults kept htoks hrest
  rw [List.map_eq_nil_iff] at htoks
  subst htoks
  exact ⟨_, last, kept, rfl, kind_peek hrest⟩

/-- The next two tokens. -/
theorem get : Takes (MonadState.get : Reading σ (Cursor σ)) [] next fun c =>
    c.peek.kind = headKind next ∧ (1 < next.length → c.peekSecond.kind = headKind (next.drop 1)) := by
  intro toks rest last faults kept htoks hrest
  rw [List.map_eq_nil_iff] at htoks
  subst htoks
  refine ⟨_, last, kept, rfl, kind_peek hrest, ?_⟩
  subst hrest
  intro hlen
  match rest, hlen with
  | _ :: _ :: _, _ => rfl

theorem left : Takes (Parse.left : Reading σ Nat) [] next fun n => n = next.length := by
  intro toks rest last faults kept htoks hrest
  rw [List.map_eq_nil_iff] at htoks
  subst htoks
  exact ⟨_, last, kept, rfl, by simp [← hrest]⟩

theorem span {start : Span} {f : Span → Reading σ γ} (hf : ∀ s, Takes (f s) ks next R) :
    Takes (Parse.spanFrom start >>= f) ks next R := by
  refine .peek (P := fun _ => True) ?_ fun s _ => hf s
  intro toks rest last faults kept htoks _
  rw [List.map_eq_nil_iff] at htoks
  subst htoks
  exact ⟨_, last, kept, rfl, trivial⟩

theorem enter {span : Span} {build : α → β} {node : β → Node α} (h : ∀ t, Q (build t)) :
    Takes (Parse.enter span build node : Reading σ β) [] next Q := by
  intro toks rest last faults kept htoks _
  rw [List.map_eq_nil_iff] at htoks
  subst htoks
  exact ⟨_, last, _, rfl, h _⟩

/-- What follows on the kind of the next token. -/
theorem onKind {f : TokenKind → Reading σ γ} (hk : headKind (ks ++ next) = k) (hf : Takes (f k) ks next R) :
    Takes (Parse.kind >>= f) ks next R :=
  .peek kind fun k' hk' => by rwa [hk', hk]

/-! ## Taking a token -/

theorem modifyAdvance (hk : k ≠ .eof) : Takes (modify Cursor.advance : Reading σ Unit) [k] next fun _ => True := by
  intro toks rest last faults kept htoks _
  obtain ⟨t, rfl, rfl⟩ := List.map_eq_singleton_iff.mp htoks
  refine ⟨(), t.span, kept, ?_, trivial⟩
  show EStateM.Result.ok () (Cursor.advance ⟨t :: rest, last, faults, kept⟩) = _
  rw [Cursor.advance]
  simp only [if_neg hk]

theorem advance (hk : k ≠ .eof) : Takes (Parse.advance : Reading σ Token) [k] next fun t => t.kind = k :=
  .peek look fun _ ht => .step (modifyAdvance hk) fun _ _ => .pure ht

/-- A token of a kind is next, and is taken. -/
theorem accepted {f : Bool → Reading σ γ} (hk : k ≠ .eof) (hf : Takes (f true) ks next R) :
    Takes (Parse.accept k >>= f) (k :: ks) next R := by
  refine .step (P := fun b => b = true) (.onKind (k := k) rfl ?_) fun b hb => hb ▸ hf
  rw [if_pos rfl]
  exact .step (modifyAdvance hk) fun _ _ => .pure rfl

/-- A token of another kind is next, and is left there. -/
theorem declined {f : Bool → Reading σ γ} (h : headKind (ks ++ next) ≠ k) (hf : Takes (f false) ks next R) :
    Takes (Parse.accept k >>= f) ks next R := by
  refine .peek (P := fun b => b = false) (.onKind (k := headKind (ks ++ next)) rfl ?_) fun b hb => hb ▸ hf
  rw [if_neg h]
  exact .pure rfl

theorem expect (hk : k ≠ .eof) (what : String) :
    Takes (Parse.expect k what : Reading σ Token) [k] next fun t => t.kind = k := by
  refine .onKind (k := k) rfl ?_
  rw [if_pos rfl]
  exact advance hk

theorem name (what n : String) : Takes (Parse.name what : Reading σ String) [.ident n] next fun b => b = n :=
  .onKind rfl (.step (modifyAdvance (by simp)) fun _ _ => .pure rfl)

theorem lineEnd : Takes (Parse.lineEnd : Reading σ Unit) [.newline] next fun _ => True :=
  .accepted (by simp) (.pure trivial)

theorem close {start : Span} {build : α → β} {node : β → Node α} (h : ∀ t, Q (build t)) :
    Takes (Parse.close start build node : Reading σ β) [] next Q :=
  .span fun _ => enter h

/-- A declaration that ends with its line. -/
theorem closeLine {start : Span} {build : α → β} {node : β → Node α} (h : ∀ t, Q (build t)) :
    Takes (Parse.closeLine start build node : Reading σ β) [.newline] next Q :=
  .span fun _ => .step lineEnd fun _ _ => enter h

/-- What succeeds is not recovered from. -/
theorem recover (hp : Takes p ks next P) : Takes (Parse.recover p) ks next fun o => ∃ b, o = some b ∧ P b := by
  intro toks rest last faults kept htoks hrest
  obtain ⟨b, last', kept', hok, hb⟩ := hp toks rest last faults kept htoks hrest
  exact ⟨some b, last', kept', by simp only [Parse.recover, hok], b, rfl, hb⟩

/-! ## Dotted names -/

theorem dottedRest (hnext : headKind next ≠ .dot) : ∀ (segments : List String) (count : Nat) (text : String),
    segments.length ≤ count →
    Takes (Parse.dottedRest count text : Reading σ String) (segments.flatMap fun s => [.dot, .ident s]) next
      fun b => b = ".".intercalate (text :: segments)
  | [], 0, text, _ => .pure (by simp)
  | [], count + 1, text, _ => .declined hnext (.pure (by simp))
  | segment :: segments, count + 1, text, hle => by
    refine .accepted (by simp) (.step (name _ segment) fun s hs => ?_)
    have hsnoc : s!"{text}.{s}" = text ++ "." ++ segment := by simp [toString, hs]
    rw [hsnoc]
    refine (dottedRest hnext segments count _ (Nat.le_of_succ_le_succ hle)).mono fun b hb => ?_
    rw [hb, Text.intercalate_join]

theorem dottedKinds_eq {name segment : String} {segments : List String} (h : Text.segments name = segment :: segments) :
    dottedKinds name = .ident segment :: segments.flatMap fun s => [.dot, .ident s] := by
  rw [dottedKinds, h]
  clear h
  induction segments generalizing segment with
  | nil => rfl
  | cons next segments ih =>
    have hnext := @ih next
    rw [List.map_cons] at hnext
    rw [List.map_cons, List.map_cons, List.intercalate_cons_cons, hnext]
    rfl

theorem dottedName (what n : String) (hnext : headKind next ≠ .dot) :
    Takes (Parse.dottedName what : Reading σ String) (dottedKinds n) next fun b => b = n := by
  obtain ⟨segment, segments, hs⟩ := List.exists_cons_of_ne_nil (Text.segments_ne_nil n)
  rw [dottedKinds_eq hs]
  refine .step (name what segment) fun s hs' => .peek left fun count hcount => ?_
  subst hs'
  refine (dottedRest hnext segments count s ?_).mono fun b hb => ?_
  · rw [hcount, List.length_append, List.length_flatMap]
    simp only [List.length_cons, List.length_nil, List.map_const', List.sum_replicate_nat]
    omega
  · rw [hb, ← hs, Text.intercalate_segments]

/-! ## Lists

The items of a list are given as things of some type `ι` with their kinds. `F` is what an item asks of what
follows it; a comma always will do. What is read agrees with the items under two views of both. -/

section Lists

variable {ι δ : Type} {F : List TokenKind → Prop} {kinds : ι → List TokenKind} {seen : β → δ} {meant : ι → δ}
  {items : List ι} {c : TokenKind}

theorem commaKinds_cons_cons (ks js : List TokenKind) (kss : List (List TokenKind)) :
    commaKinds (ks :: js :: kss) = ks ++ .comma :: commaKinds (js :: kss) := by
  rw [commaKinds, List.intercalate_cons_cons, List.append_assoc]
  rfl

theorem commaKinds_singleton (ks : List TokenKind) : commaKinds [ks] = ks := List.intercalate_singleton

theorem length_le_commaKinds {kss : List (List TokenKind)} (h : ks ∈ kss) :
    ks.length ≤ (commaKinds kss).length := by
  induction kss with
  | nil => cases h
  | cons js kss ih =>
    cases kss with
    | nil =>
      rw [commaKinds_singleton, List.mem_singleton.mp h]
    | cons js' kss =>
      rw [commaKinds_cons_cons, List.length_append, List.length_cons]
      rcases List.mem_cons.mp h with rfl | h
      · omega
      · have := ih h
        omega

theorem headKind_commaKinds {i : ι} (h : kinds i ≠ []) (items : List ι) (next : List TokenKind) :
    headKind (commaKinds ((i :: items).map kinds) ++ next) = headKind (kinds i) := by
  cases items with
  | nil => rw [List.map_singleton, commaKinds_singleton, headKind_append h]
  | cons j items => rw [List.map_cons, List.map_cons, commaKinds_cons_cons, List.append_assoc, headKind_append h]

theorem count_le_commaKinds (h : ∀ i ∈ items, kinds i ≠ []) : items.length ≤ (commaKinds (items.map kinds)).length := by
  induction items with
  | nil => exact Nat.zero_le _
  | cons i items ih =>
    have hks := List.length_pos_iff.mpr (h i (by simp))
    cases items with
    | nil =>
      rw [List.map_singleton, commaKinds_singleton]
      exact hks
    | cons j items =>
      have := ih fun i hi => h i (by simp_all)
      rw [List.map_cons, List.map_cons, commaKinds_cons_cons, ← List.map_cons]
      simp only [List.length_append, List.length_cons] at *
      omega

theorem separated (hF : ∀ l, F (.comma :: l)) (hnext : F next) (hcomma : headKind next ≠ .comma) :
    ∀ (items : List ι) (count : Nat), items ≠ [] → items.length ≤ count →
    (∀ i ∈ items, ∀ l, F l → Takes p (kinds i) l fun b => seen b = meant i) →
    Takes (Parse.separated p count) (commaKinds (items.map kinds)) next fun bs => bs.map seen = items.map meant
  | [], _, hne, _, _ => absurd rfl hne
  | [i], count + 1, _, _, hitem => by
    rw [List.map_singleton, commaKinds_singleton]
    exact .last (hitem i (by simp) _ hnext) fun b hb => .declined hcomma (.pure (by simp [hb]))
  | i :: j :: items, count + 1, _, hle, hitem => by
    rw [List.map_cons, List.map_cons, commaKinds_cons_cons, ← List.map_cons]
    have ih := separated hF hnext hcomma (j :: items) count (by simp) (Nat.le_of_succ_le_succ hle)
      fun i hi => hitem i (by simp_all)
    exact .bind (hitem i (by simp) _ (hF _)) fun b hb => .accepted (by simp) (.last ih fun bs hbs => .pure (by simp_all))

theorem separatedUnless (hF : ∀ l, F (.comma :: l)) (hnext : F (c :: next)) (hc : c ≠ .comma) (count : Nat)
    (hle : items.length ≤ count) (hne : ∀ i ∈ items, kinds i ≠ []) (hhead : ∀ i ∈ items, headKind (kinds i) ≠ c)
    (hitem : ∀ i ∈ items, ∀ l, F l → Takes p (kinds i) l fun b => seen b = meant i) :
    Takes (Parse.separatedUnless p c count) (commaKinds (items.map kinds)) (c :: next)
      fun bs => bs.map seen = items.map meant := by
  refine .peek kind fun k hk => ?_
  cases items with
  | nil =>
    obtain rfl : k = c := hk
    rw [if_pos rfl]
    exact .pure rfl
  | cons i items =>
    rw [headKind_commaKinds (hne i (by simp))] at hk
    rw [if_neg (by rw [hk]; exact hhead i (by simp))]
    exact separated hF hnext hc _ count (by simp) hle hitem

end Lists

end Takes

end QiIdl
