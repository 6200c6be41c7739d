import QiIdl.Proofs.Ast.Forest
import QiIdl.Proofs.Format.RoundTrip
import QiIdl.Proofs.Grammar.Adjacent

/-!
# Connections on a line

The canonical form of a connection is one line, with nothing but a blank between the two values. Put back into the
body of an object it is read as the same connection if the values are separable, and otherwise it is not read at all
(`connection_reads_back_iff_separable`).

That it is not read follows from what a reader can do with such tokens: the two values have to be read from their own
tokens, and then the first ends before the second. The fault this makes is recovered from at the end of the line, so
the rest of the object is still read; but a fault that was kept is never taken back (`Breaks`).
-/

namespace QiIdl

open Takes

variable {α : Type} {next : List TokenKind}

/-! ## What a text starts with -/

/-- The signs that start a value and go on with one are written with characters of their own. -/
theorem Lexeme.Reads.opening_of_head? {rest cs : List Char} {k : TokenKind} {ks : List TokenKind}
    (h : Reads rest cs (k :: ks)) (hk : k.startsOperand = true) {c : Char} (hc : c = '[' ∨ c = '(' ∨ c = '-')
    (hhead : cs.head? = some c) : k.opening = some c := by
  have hsign : (shortSign? c).isSome = true := by rcases hc with rfl | rfl | rfl <;> rfl
  cases h with
  | gap hgap _ =>
    cases hhead
    rcases hc with rfl | rfl | rfl <;> cases hgap
  | token _ hfirst _ =>
    cases hhead
    rw [first_eq_sign hsign] at hfirst
    rcases content_sign (congrArg (·.1.content) hfirst) with ⟨d, hlong⟩ | hshort
    · -- the one long sign among these is the arrow, and no value starts with it
      unfold longSign? at hlong
      split at hlong <;> cases hlong <;> cases hk
    · rcases hc with rfl | rfl | rfl <;> cases hshort <;> rfl

/-- The text of a value shows whether it starts with a sign that goes on with another. -/
theorem Value.opening_of_head? {v : Value α} (hv : v.tree.Every Node.Legible) {c : Char}
    (hc : c = '[' ∨ c = '(' ∨ c = '-') (hhead : v.canonical.toList.head? = some c) :
    (headKind v.kinds).opening = some c := by
  have hreads : Lexeme.Reads [] v.canonical.toList v.kinds := v.reads hv rfl
  obtain ⟨hne, hstart⟩ := v.startsOperand_kinds (hv.mono fun _ h => h.1)
  obtain ⟨k, ks, hks⟩ := List.exists_cons_of_ne_nil hne
  rw [hks] at hreads hstart ⊢
  exact hreads.opening_of_head? hstart hc hhead

theorem TokenKind.eq_of_opening {k k' : TokenKind} {c : Char} (h : k.opening = some c) (h' : k'.opening = some c) :
    k = k' := by
  unfold opening at h h'
  split at h <;> cases h <;> split at h' <;> cases h' <;> rfl

theorem Expr.getLast?_kinds : ∀ {e : Expr α}, e.endsInName = true → ∃ s, e.kinds.getLast? = some (.ident s)
  | .var _ name, _ => getLast?_dottedKinds name
  | .unary _ op operand, h => by
    obtain ⟨s, hs⟩ := Expr.getLast?_kinds (e := operand) h
    refine ⟨s, ?_⟩
    rw [kinds, List.getLast?_cons, hs]
    rfl
  | .binary .., h => nomatch h
  | .literal .., h => nomatch h
  | .call .., h => nomatch h

/-- If a value ends where another begins, the two are separable. -/
theorem separable_of_ends {sender receiver : Value α} (hreceiver : receiver.tree.Every Node.Legible) {ss : List Token}
    (hss : ss.map Token.kind = sender.kinds) (hends : Expr.Ends 0 ss (headKind receiver.kinds)) :
    Separable sender receiver := by
  constructor
  · intro hhead
    have hkind : headKind receiver.kinds = .lbracket :=
      TokenKind.eq_of_opening (Value.opening_of_head? hreceiver (.inl rfl) hhead) rfl
    exact hends.bracket hkind
  · intro hhead
    have hkind : headKind receiver.kinds = .operator .minus :=
      TokenKind.eq_of_opening (Value.opening_of_head? hreceiver (.inr (.inr rfl)) hhead) rfl
    exact hends.operator 7 .minus (Nat.zero_le _) (by decide) hkind
  · intro hhead
    have hkind : headKind receiver.kinds = .lparen :=
      TokenKind.eq_of_opening (Value.opening_of_head? hreceiver (.inr (.inl rfl)) hhead) rfl
    by_contra hname
    rw [Bool.not_eq_false] at hname
    obtain ⟨s, hlast⟩ : ∃ s, sender.kinds.getLast? = some (.ident s) := by
      cases sender with
      | literal l => cases hname
      | expr e => exact Expr.getLast?_kinds hname
    rw [← hss, List.getLast?_map, Option.map_eq_some_iff] at hlast
    obtain ⟨t, ht, hident⟩ := hlast
    exact (hends.name t ht s hident).1 hkind

/-! ## Reading a connection -/

theorem Parse.lineEnd_eq_ok {c c' : Cursor Arena} (h : lineEnd c = .ok () c') :
    c.peek.kind = .newline ∨ c.peek.kind = .eof := by
  by_cases hnewline : c.peek.kind = .newline
  · exact .inl hnewline
  · rw [lineEnd, accept_ite, if_neg hnewline, kind_bind] at h
    by_cases heof : c.peek.kind = .eof
    · exact .inr heof
    · rw [if_neg heof] at h
      exact absurd h expected_ne_ok

/-- A value is read from the tokens of an expression. -/
theorem Value.exists_of_parse {c c' : Cursor Arena} {v : Value Mark} (h : Value.parse c = .ok v c') :
    ∃ ts e, c.bare.Reads ts c'.bare ∧ Expr.Derives 0 ts e ∧ Expr.Ends 0 ts c'.bare.peek.kind := by
  obtain ⟨e, c₁, he, h⟩ := bind_eq_ok.mp h
  cases h
  obtain ⟨e, he, -⟩ := Expr.mirrors_parse.exists_ok_bare he
  obtain ⟨ts, hts, hderives, hends⟩ := (Expr.recognizes_parse _ _ (Nat.le_refl _) e _).mp he
  exact ⟨ts, e, hts, hderives, hends⟩

/-- Only the canonical form of a connection of separable values is read as a connection. -/
theorem separable_of_parseConnect {tag : α} {sender receiver : Value α} (hsender : sender.tree.Every Node.Legible)
    (hreceiver : receiver.tree.Every Node.Legible) {toks rest : List Token} {last : Span} {faults : List Fault}
    {kept : Arena} (htoks : toks.map Token.kind = (ObjectItem.connect tag sender receiver).kinds)
    {o : ObjectItem Mark} {c' : Cursor Arena}
    (h : ObjectItem.parseConnect ⟨toks ++ rest, last, faults, kept⟩ = .ok o c') : Separable sender receiver := by
  have hsound {v : Value α} (hv : v.tree.Every Node.Legible) : v.tree.Every Node.Sound := hv.mono fun _ h => h.1
  obtain ⟨line, ends, rfl, hline, hnewline⟩ := List.map_eq_append_iff.mp htoks
  obtain ⟨first, values, rfl, -, hvalues⟩ := List.map_eq_cons_iff.mp hline
  obtain ⟨ss, rs, rfl, hss, hrs⟩ := List.map_eq_append_iff.mp hvalues
  obtain ⟨newline, rfl, hkind⟩ := List.map_eq_singleton_iff.mp hnewline
  -- what the reader has read: the keyword, two expressions, and the end of the line
  obtain ⟨t, c₁, ht, h⟩ := bind_eq_ok.mp h
  obtain ⟨s, c₂, hs, h⟩ := bind_eq_ok.mp h
  obtain ⟨r, c₃, hr, h⟩ := bind_eq_ok.mp h
  rw [Parse.closeLine, Parse.spanFrom_bind] at h
  obtain ⟨_, c₄, hend, -⟩ := bind_eq_ok.mp h
  obtain ⟨_, ht, -⟩ := (Mirrors.expect _ _).exists_ok_bare ht
  obtain ⟨-, hread⟩ := (Parse.expect_eq_ok (by nofun)).mp ht
  obtain ⟨ts, e, hts, hderives, hends⟩ := Value.exists_of_parse hs
  obtain ⟨us, e', hus, hderives', -⟩ := Value.exists_of_parse hr
  have hrest : ts ++ us ++ c₃.rest = ss ++ rs ++ newline :: rest := by
    have hall := ((hread.cons hts).trans hus).rest
    simp only [Cursor.bare, List.cons_append, List.append_assoc, List.cons.injEq] at hall ⊢
    exact hall.2.symm
  obtain ⟨es, hes⟩ := Value.exists_derives (hsound hsender) hss
  obtain ⟨er, her⟩ := Value.exists_derives (hsound hreceiver) hrs
  have hinline := (hderives.tidy.append hderives'.tidy).inline
  have hinline' := (hes.tidy.append her.tidy).inline
  -- neither side has the end of a line, so both stop at the first one
  have hboth : ts ++ us = ss ++ rs := by
    rcases List.append_eq_append_iff.mp hrest with ⟨ws, hfront, hback⟩ | ⟨ws, hfront, hback⟩
    · cases ws with
      | nil => rw [hfront, List.append_nil]
      | cons w ws =>
        have hpeek : c₃.peek = w := by rw [Cursor.peek, hback]; rfl
        have hw := hinline' w (by rw [hfront]; simp)
        have hover := Parse.lineEnd_eq_ok hend
        rw [hpeek] at hover
        exact (hover.elim hw.1 hw.2).elim
    · cases ws with
      | nil => rw [hfront, List.append_nil]
      | cons w ws =>
        obtain ⟨rfl, -⟩ := List.cons.inj hback
        exact absurd hkind (hinline newline (by rw [hfront]; simp)).1
  have hnext : c₂.bare.peek.kind = headKind (us.map Token.kind) := by
    obtain ⟨u, us', rfl, -⟩ := hderives'.exists_cons
    rw [hus.peek]
    rfl
  rw [hnext] at hends
  obtain ⟨rfl, rfl⟩ := eq_of_derives_append (hsound hsender) hss hrs hboth hderives hderives' hends
  rw [hrs] at hends
  exact separable_of_ends hreceiver hss hends

/-! ## Faults are not taken back -/

/-- A reader takes no fault back, which is what is left of what it carries where nothing is known. -/
abbrev Persists {β : Type} (p : Reading Arena β) : Prop := Carries (fun _ _ => False) p fun _ _ _ => False

/-- On tokens of the kinds `ks` before `next`, a reader does not succeed without a fault more. -/
def Breaks {β : Type} (p : Reading Arena β) (ks next : List TokenKind) : Prop :=
  ∀ (toks rest : List Token) (last : Span) (faults : List Fault) (kept : Arena) (b : β) (c' : Cursor Arena),
    toks.map Token.kind = ks → rest.map Token.kind = next → p ⟨toks ++ rest, last, faults, kept⟩ = .ok b c' →
    faults.length < c'.faults.length

section Breaks

variable {β γ : Type} {p : Reading Arena β} {f : β → Reading Arena γ} {ks js : List TokenKind} {k : TokenKind}
  {P : β → Prop}

theorem Carries.persists {A : List Token → Cursor Arena → Prop} {B : β → List Token → Cursor Arena → Prop}
    (h : Carries A p B) : Persists p :=
  h.of_run fun _ _ _ _ _ _ _ hA => hA.elim

namespace Breaks

/-- Whatever comes behind a fault, the fault stays. -/
theorem before (hp : Breaks p ks next) (hf : ∀ b, Persists (f b)) : Breaks (p >>= f) ks next := by
  intro toks rest last faults kept g c' hks hnext h
  obtain ⟨b, c₁, hb, h⟩ := bind_eq_ok.mp h
  have hlt := hp toks rest last faults kept b c₁ hks hnext hb
  have hle := hf b c₁
  rw [h] at hle
  exact Nat.lt_of_lt_of_le hlt hle.1

theorem extend (hp : Breaks p ks (js ++ next)) : Breaks p (ks ++ js) next := by
  intro toks rest last faults kept b c' htoks hrest h
  obtain ⟨toks, more, rfl, hks, hjs⟩ := List.map_eq_append_iff.mp htoks
  rw [List.append_assoc] at h
  exact hp toks (more ++ rest) last faults kept b c' hks (by simp [hjs, hrest]) h

theorem behind (hp : Takes p ks (js ++ next) P) (hf : ∀ b, P b → Breaks (f b) js next) :
    Breaks (p >>= f) (ks ++ js) next := by
  intro toks rest last faults kept g c' htoks hrest h
  obtain ⟨toks, more, rfl, hks, hjs⟩ := List.map_eq_append_iff.mp htoks
  obtain ⟨b, last', kept', hok, hb⟩ := hp toks (more ++ rest) last faults kept hks (by simp [hjs, hrest])
  rw [List.append_assoc, bind_of_ok hok] at h
  exact hf b hb more rest last' faults kept' g c' hjs hrest h

theorem peek (hp : Takes p [] (ks ++ next) P) (hf : ∀ b, P b → Breaks (f b) ks next) : Breaks (p >>= f) ks next :=
  behind hp hf

theorem step (hp : Takes p [k] (ks ++ next) P) (hf : ∀ b, P b → Breaks (f b) ks next) :
    Breaks (p >>= f) (k :: ks) next := behind hp hf

/-- What cannot be read without a fault is passed over with one. -/
theorem recover (hp : Breaks p ks next) (hkeep : Persists p) : Breaks (Parse.recover p) ks next := by
  intro toks rest last faults kept o c' hks hnext h
  unfold Parse.recover at h
  cases hok : p ⟨toks ++ rest, last, faults, kept⟩ with
  | ok b c₁ =>
    rw [hok] at h
    cases h
    exact hp toks rest last faults kept b _ hks hnext hok
  | error fault c₁ =>
    rw [hok] at h
    cases h
    have hle := hkeep ⟨toks ++ rest, last, faults, kept⟩
    rw [hok] at hle
    rw [Carries.faults_nextLine, List.length_append]
    exact Nat.lt_succ_of_le hle

/-- A block with a first item that cannot be read. -/
theorem parseBlock {item : Option String → Reading Arena β} {V : β → List (Tree (Node Mark))}
    (hitem : ∀ doc, Lays (item doc) V) (name : String) (count : Nat) (hne : ks ≠ [])
    (hstart : (headKind ks).StartsItem) (hbreaks : Breaks (item none) ks (js ++ next)) :
    Breaks (QiIdl.parseBlock name item (count + 1)) (ks ++ js) next := by
  have hhead : headKind (ks ++ js ++ next) = headKind ks := by rw [List.append_assoc, headKind_append hne]
  refine .peek (layout_solid (hhead ▸ hstart.toIsSolid) none) fun d hd => .peek kind fun k hk => ?_
  subst hd hk
  rw [hhead]
  have hrest : Persists (QiIdl.parseBlock name item count) := (carries_parseBlock name hitem count #[]).persists
  have hkeep : Persists (item none) := (hitem none #[]).persists
  split
  · rename_i hend
    exact absurd hend hstart.endKw
  · rename_i heof
    exact absurd heof hstart.eof
  · exact (hbreaks.recover hkeep).extend.before fun _ => hrest.bind fun _ => .pure fun _ _ h => h

end Breaks

end Breaks

/-! ## An object with a connection -/

namespace ObjectItem

variable {tag nameTag : α} {sender receiver : Value α} {type : TypeExpr α} {name : String}

/-- An object with a connection of values that are not separable is not read without a fault. -/
theorem breaks_parse (htype : type.tree.Every Node.Sound) (hsender : sender.tree.Every Node.Legible)
    (hreceiver : receiver.tree.Every Node.Legible) (hnot : ¬ Separable sender receiver) :
    Breaks ObjectItem.parse (object tag type nameTag name [connect tag sender receiver]).kinds next := by
  have hline (count : Nat) (next : List TokenKind) :
      Breaks (parseWithin (count + 1)) (connect tag sender receiver).kinds next := by
    refine .peek kind fun k (hk : k = .keyword .atKw) => ?_
    subst hk
    intro toks rest last faults kept o c' htoks _ h
    exact absurd (separable_of_parseConnect hsender hreceiver htoks h) hnot
  rw [kinds, blockKinds, kindsAll_eq_flatMap, List.flatMap_singleton, List.cons_append, List.append_assoc]
  refine .peek left fun count _ => .step (expect (by simp) _) fun _ _ =>
    .behind (type.takes_parse htype (by simp [headKind])) fun t _ => .peek kind fun k (hk : k = .string name) => ?_
  subst hk
  refine .step (advance (by simp)) fun _ _ => .peek (P := fun _ => True) (.enter fun _ => trivial) fun _ _ =>
    .step lineEnd fun _ _ => .before ?_ fun _ => .enter fun _ _ h => h.elim
  obtain ⟨hne, hstart⟩ := (connect tag sender receiver).startsItem_kinds
  exact .peek left fun _ _ => .parseBlock (fun _ => lays_parseWithin _) _ _ hne hstart (hline _ _)

end ObjectItem

/-- A file of one object that is not read without a fault. -/
theorem Node.breaks_parseItems {o : ObjectItem α} (hobject : headKind o.kinds = .keyword .object)
    (h : Breaks ObjectItem.parse o.kinds next) (count : Nat) :
    Breaks (Node.parseItems (count + 1) none) o.kinds next := by
  obtain ⟨hne, hstart⟩ := o.startsItem_kinds
  have hhead : headKind (o.kinds ++ next) = .keyword .object := by rw [headKind_append hne, hobject]
  have hitem : Breaks (Node.parseItem none) o.kinds next := by
    refine .peek look fun t ht => ?_
    rw [hhead] at ht
    simp only [ht]
    exact h.before fun _ => .pure fun _ _ h => h
  refine .peek (layout_solid ⟨by simp [hhead], by simp [hhead], by simp [hhead]⟩ none) fun d hd =>
    .peek kind fun k hk => ?_
  rw [hhead] at hk
  subst hd hk
  have hrest : Persists (Node.parseItems count none) := (Node.carries_parseItems count none #[]).persists
  exact (hitem.recover (Node.laysLine_parseItem none #[]).persists).before fun _ =>
    hrest.bind fun _ => .pure fun _ _ h => h

/-- Tokens that are not read without a fault are not read as a file. -/
theorem parseTokens_eq_error {toks : List Token} {ks : List TokenKind} (htoks : toks.map Token.kind = ks ++ [.eof])
    (h : ∀ count, Breaks (Node.parseItems (count + 1) none) ks [.eof]) :
    ∃ faults, parseTokens (#[] : Arena) toks = .error faults := by
  unfold parseTokens
  cases hok : Node.parseItems (toks.length + 1) none ⟨toks, .point 0, [], (#[] : Arena)⟩ with
  | error fault c => exact ⟨_, rfl⟩
  | ok trees c =>
    obtain ⟨toks, rest, rfl, hks, hrest⟩ := List.map_eq_append_iff.mp htoks
    have hlt := h _ toks rest (.point 0) [] #[] trees c hks hrest hok
    have hne : c.faults.isEmpty = false := List.isEmpty_eq_false_iff.mpr (List.ne_nil_of_length_pos hlt)
    exact ⟨c.faults, by simp [hne]⟩

theorem parseSource_eq_error {source : String} (file : String) {toks : List Token} {faults : List Fault}
    (hlex : lex source = .ok toks) (hfaults : parseTokens (#[] : Arena) toks = .error faults) :
    parseSource source file = .error faults := by
  simp only [parseSource, hlex, hfaults, Bind.bind, Except.bind]

/-! ## Nodes on a line -/

/-- What passes from a node to those right below it holds throughout its tree. -/
theorem Node.every_of_below {P : Node α → Prop} (hstep : ∀ n, P n → ∀ child ∈ n.below, P child) :
    ∀ (t : Tree (Node α)) {n : Node α}, n.tree = t → P n → t.Every P
  | .node b ts, n, htree, hn => by
    rw [Node.tree_eq, Tree.node.injEq] at htree
    obtain ⟨rfl, hts⟩ := htree
    refine .node hn ?_
    intro u hu
    obtain ⟨child, hchild, htree⟩ : ∃ child ∈ n.below, child.tree = u := by rwa [← hts, List.mem_map] at hu
    exact Node.every_of_below hstep u htree (hstep n hn child hchild)

/-- A node on a line: a literal, an expression or a type. -/
def Node.IsInline : Node α → Prop
  | .literal _ | .expr _ | .type _ => True
  | _ => False

theorem Node.isInline_of_mem_below (n : Node α) (hn : n.IsInline) : ∀ child ∈ n.below, child.IsInline := by
  cases n with
  | literal l =>
    cases l with
    | dict _ entries =>
      intro child hchild
      obtain ⟨e, -, he⟩ := List.mem_flatMap.mp hchild
      rcases List.mem_pair.mp he with rfl | rfl <;> trivial
    | _ => simp [below, IsInline]
  | expr e => cases e <;> simp [below, IsInline]
  | type t => cases t <;> simp [below, IsInline]
  | _ => exact hn.elim

theorem Node.IsInline.every_apart {n : Node α} (h : n.IsInline) : n.tree.Every Node.Apart := by
  refine (Node.every_of_below isInline_of_mem_below n.tree rfl h).mono ?_
  intro m hm
  cases m with
  | object => exact hm.elim
  | _ => trivial

/-! ## The line of a connection -/

/-- What holds throughout the trees at the top holds throughout the tree of every node. -/
theorem Ast.every_tree_of_reaches {ast : Ast} {P : Node Mark → Prop} (h : ∀ root ∈ ast.roots, root.tree.Every P)
    {n : Node Mark} (hn : ast.Reaches n) : n.tree.Every P := by
  refine Tree.forall_subtreesAll ?_ ast.trees (List.forall_mem_map.mpr h) _ (Ast.tree_mem_subtreesAll hn)
  intro t ht u hu
  cases ht with
  | node _ hchildren => exact hchildren u hu

/-- Take the line of any connection of a file that was read, if every float in it is finite, and put it into the body
of an object. What comes out is read as an object with the same connection exactly if the two values are separable;
if they are not, it is an error. -/
theorem connection_reads_back_iff_separable {source file : String} {ast : Ast} (h : parseSource source file = .ok ast)
    (hfinite : ∀ n, ast.Reaches n → n.IsFinite) {tag : Mark} {sender receiver : Value Mark}
    (hconnect : ast.Reaches (.object (.connect tag sender receiver))) (type : TypeExpr Mark)
    (htype : type.tree.Every Node.Legible) (name : String) (width : Nat) (file' : String) :
    let text := Step.render width (canonicalBlock ("object " ++ type.canonical ++ " " ++ Text.quote name)
      (ObjectItem.connect tag sender receiver).canonical)
    ((∃ again, parseSource text file' = .ok again ∧ again.roots.map Node.erase =
        [.object (.object () type.erase () name [.connect () sender.erase receiver.erase])]) ↔
      Separable sender receiver) ∧
    (¬ Separable sender receiver → ∃ faults, parseSource text file' = .error faults) := by
  intro text
  have hsound := parseSource_sound h
  have hline : (ObjectItem.connect tag sender receiver).tree.Every Node.Legible :=
    Ast.every_tree_of_reaches (fun root hroot => (hsound root hroot).2.and (Ast.every_of_reaches hfinite root hroot))
      hconnect
  obtain ⟨-, hsender, hreceiver⟩ := ObjectItem.every_connect.mp hline
  let o : ObjectItem Mark := .object tag type tag name [.connect tag sender receiver]
  have ho : o.tree.Every Node.Legible :=
    ObjectItem.every_object.mpr ⟨⟨trivial, trivial⟩, htype, ⟨trivial, trivial⟩, by simpa using hline⟩
  -- the text is the canonical form of the object, so the tokens are those of the object
  obtain ⟨toks, hlex, hkinds⟩ : ∃ toks, lex text = .ok toks ∧ toks.map Token.kind = o.kinds ++ [.eof] := by
    have htext : o.canonical = canonicalBlock ("object " ++ type.canonical ++ " " ++ Text.quote name)
        (ObjectItem.connect tag sender receiver).canonical := by
      simp [o, ObjectItem.canonical, ObjectItem.canonicalAll]
    have hprints : Prints o.canonical o.kinds := ObjectItem.prints ho
    rw [htext] at hprints
    exact lex_of_lines (hprints.render width)
  have hbroken (hnot : ¬ Separable sender receiver) : ∃ faults, parseSource text file' = .error faults := by
    obtain ⟨faults, hfaults⟩ := parseTokens_eq_error hkinds (Node.breaks_parseItems rfl
      (ObjectItem.breaks_parse (htype.mono fun _ h => h.1) hsender hreceiver hnot))
    exact ⟨faults, parseSource_eq_error file' hlex hfaults⟩
  refine ⟨⟨?_, ?_⟩, hbroken⟩
  · rintro ⟨again, hagain, -⟩
    by_contra hnot
    obtain ⟨faults, hfaults⟩ := hbroken hnot
    rw [hagain] at hfaults
    cases hfaults
  · intro hapart
    have hvalue (v : Value Mark) : v.tree.Every Node.Apart := by
      rw [← v.tree_node]
      exact Node.IsInline.every_apart (by cases v <;> trivial)
    have hvalues : (ObjectItem.connect tag sender receiver).tree.Every Node.Apart :=
      ObjectItem.every_connect.mpr ⟨hapart, hvalue sender, hvalue receiver⟩
    have htypes : type.tree.Every Node.Apart := Node.IsInline.every_apart (n := .type type) trivial
    have hall : o.tree.Every Node.Apart :=
      ObjectItem.every_object.mpr ⟨trivial, htypes, trivial, by simpa using hvalues⟩
    have hroots : ∀ n ∈ [Node.object o], n.IsTop ∧ n.tree.Every Node.Sound ∧ n.tree.Every Node.Apart :=
      List.forall_mem_singleton.mpr ⟨trivial, ho.mono fun _ h => h.1, hall⟩
    obtain ⟨roots, nodes, hread, herase⟩ := parseTokens_kinds hroots
      (by simpa [Node.doc?, Node.kinds, docKinds] using hkinds)
    exact ⟨_, parseSource_of_parseTokens file' hlex hread, herase⟩

/-- The two values of a connection. -/
def Node.connected? : Node α → Option (Value α × Value α)
  | .object (.connect _ sender receiver) => some (sender, receiver)
  | _ => none

theorem Node.eq_of_connected? {n : Node α} {values : Value α × Value α} (h : n.connected? = some values) :
    ∃ tag, n = .object (.connect tag values.1 values.2) := by
  unfold Node.connected? at h
  split at h
  · cases h
    exact ⟨_, rfl⟩
  · cases h

/-- Two values in brackets, of which the second starts with a minus sign. The brackets are not kept, and the line
without them is no connection. -/
theorem connection_reads_back_iff_separable_minus :
    let source := "object T \"n\"\n  at (a) (-b)\nend\n"
    ∃ (ast : Ast) (tag : Mark) (sender receiver : Value Mark), parseSource source "t.qi" = .ok ast ∧
      (∀ n, ast.Reaches n → n.IsFinite) ∧ ast.Reaches (.object (.connect tag sender receiver)) ∧
      ¬ Separable sender receiver ∧ ∃ faults, parseSource "object T \"n\"\n  at a -b\nend\n" "t.qi" = .error faults := by
  intro source
  have hcheck : (parseSource source "t.qi").toOption.any (fun ast =>
      decide (∀ n, ast.Reaches n → n.IsFinite) && (Tree.walkAll (fun _ => true) none ast.trees).any fun v =>
        v.node.connected?.any fun values => values.1.canonical == "a" && values.2.canonical == "-b") = true := by
    decide +kernel
  obtain ⟨ast, hread, hnodes⟩ := exists_ok_of_any hcheck
  rw [Bool.and_eq_true, List.any_eq_true] at hnodes
  obtain ⟨hfinite, v, hv, hconnect⟩ := hnodes
  obtain ⟨⟨sender, receiver⟩, hvalues, htexts⟩ := (Option.any_eq_true _ _).mp hconnect
  obtain ⟨tag, hnode⟩ := Node.eq_of_connected? hvalues
  have hreaches : ast.Reaches (.object (.connect tag sender receiver)) := ⟨v, hv, hnode⟩
  rw [Bool.and_eq_true, beq_iff_eq, beq_iff_eq] at htexts
  have hnot : ¬ Separable sender receiver := fun h => h.minus (by rw [htexts.2]; rfl)
  let type : TypeExpr Mark := .custom ⟨0, .point 0⟩ "T"
  have htype : type.tree.Every Node.Legible := by
    have hname : IsName "T" := ⟨⟨'T', [], rfl, rfl, by simp⟩, by decide +kernel⟩
    have hsegments : Text.segments "T" = ["T"] := by decide +kernel
    exact .node ⟨⟨by rwa [IsDotted, hsegments, List.forall_mem_singleton], by decide +kernel⟩, trivial⟩ (by simp)
  have htext : Step.render 2 (canonicalBlock ("object " ++ type.canonical ++ " " ++ Text.quote "n")
      [.writeLine ("at " ++ "a" ++ " " ++ "-b")]) = "object T \"n\"\n  at a -b\nend\n" := by decide +kernel
  have hwhole := connection_reads_back_iff_separable hread (of_decide_eq_true hfinite) hreaches type htype "n" 2 "t.qi"
  rw [ObjectItem.canonical, htexts.1, htexts.2, htext] at hwhole
  exact ⟨ast, tag, sender, receiver, hread, of_decide_eq_true hfinite, hreaches, hnot, hwhole.2 hnot⟩

end QiIdl
