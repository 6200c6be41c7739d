import QiIdl.Proofs.Grammar.Agree
import QiIdl.Proofs.Grammar.Placed

/-!
# Trees that are read do not depend on spans, and are sound

Reader by reader, in the order of the grammar: on clean tokens of the same kinds each gives *twins*, trees that are the
same but for their tags and in which every node is sound. The cases follow the clauses of the readers. What makes a node
sound is at hand where the node is built: a name comes from a name token, an operator has just been tested, a value has
been stripped of a bare literal.

Everything below a declaration is read from one row, on any ground. Most faults are at the next token. The exception is an
element of a tuple that is no literal: the fault is at the whole expression, some way back. That this is on the row too
follows from where expressions lie (`Agree.lays`).

Comparing two texts gives that tokens of the same kinds are read to the same syntax (`parseTokens_of_kinds`); comparing
a text with itself, that every tree that is read is sound (`parseTokens_sound`).
-/

namespace QiIdl

open Agree

/-! ## Twins -/

section Related

variable {β : Type} {R : β → β → Prop} {bs bs' : List β}

theorem forall_of_forall₂ {P : β → Prop} (h : ∀ b b', R b b' → P b) (hbs : List.Forall₂ R bs bs') : ∀ b ∈ bs, P b :=
  ((List.forall₂_and_left bs bs').mp (hbs.imp fun b b' hb => ⟨h b b' hb, hb⟩)).1

/-- Lists of what is the same in both runs are the same. -/
theorem both_of_forall₂ {P : β → Prop} (h : List.Forall₂ (Both P) bs bs') : Both (fun bs => ∀ b ∈ bs, P b) bs bs' :=
  ⟨by simpa using map_eq_of_forall₂ (f := id) (g := id) (fun _ _ hb => hb.1) h,
    forall_of_forall₂ (fun _ _ hb => hb.2) h⟩

end Related

/-- Two trees are the same but for their spans, and a parser can have made every node in them. -/
structure Node.Twin (n n' : Node Mark) : Prop where
  outline : n.outline = n'.outline
  sound : n.tree.Every Node.Sound

/-- Twins, of what is shown as a node. -/
abbrev Twins {β : Type} (node : β → Node Mark) (b b' : β) : Prop := (node b).Twin (node b')

namespace Node.Twin

variable {n n' : Node Mark}

/-- Nodes are twins if they have one number, look the same and are sound, and the nodes right below them are twins. -/
theorem intro (hid : n.tag.id = n'.tag.id) (hface : n.face = n'.face) (hsound : n.Sound)
    (hbelow : List.Forall₂ Node.Twin n.below n'.below) : n.Twin n' where
  outline := sketch_eq_of_below hid hface (map_eq_of_forall₂ (fun _ _ h => h.outline) hbelow)
  sound := by
    rw [n.tree_eq, Tree.every_node, List.forall_mem_map]
    exact ⟨hsound, forall_of_forall₂ (fun _ _ h => h.sound) hbelow⟩

theorem erase (h : n.Twin n') : n.erase = n'.erase := erase_eq_of_sketch h.outline

end Node.Twin

namespace Twins

variable {β : Type} {node : β → Node Mark}

theorem map {bs bs' : List β} (h : List.Forall₂ (Twins node) bs bs') :
    List.Forall₂ Node.Twin (bs.map node) (bs'.map node) := by
  rwa [List.forall₂_map_left_iff, List.forall₂_map_right_iff]

theorem option {o o' : Option β} (h : Option.Rel (Twins node) o o') :
    List.Forall₂ Node.Twin (o.map node).toList (o'.map node).toList := by
  cases h with
  | none => exact .nil
  | some h => exact .cons h .nil

end Twins

section Enter

variable {G : Ground} {rows : FileRows} {β : Type} {build build' : Mark → β} {node : β → Node Mark}
  {start start' : Span}

/-- Twins are entered, of which more may be known. -/
theorem Agree.enteredAs {R : β → β → Prop} (h : ∀ m m', m.id = m'.id → R (build m) (build' m'))
    (hR : ∀ b b', R b b' → Twins node b b') :
    Agree G R (Parse.enter start build node) (Parse.enter start' build' node) :=
  .enter h fun m m' hm => (hR _ _ (h m m' hm)).outline

variable (h : ∀ m m', m.id = m'.id → Twins node (build m) (build' m'))

include h

theorem Agree.entered : Agree G (Twins node) (Parse.enter start build node) (Parse.enter start' build' node) :=
  .enteredAs h fun _ _ h => h

theorem Agree.close : Agree G (Twins node) (Parse.close start build node) (Parse.close start' build' node) :=
  .span fun _ _ => .entered h

/-- Declarations that end with their lines are twins. -/
theorem Agree.line :
    Agree rows.ground (Twins node) (Parse.closeLine start build node) (Parse.closeLine start' build' node) :=
  .span fun _ _ => .bind lineEnd fun _ _ _ => .entered h

end Enter

variable {G : Ground} {doc : Option String}

/-! ## Types -/

theorem TypeExpr.twin_ofName {m m' : Mark} (hm : m.id = m'.id) {name : String} (h : IsDotted name) :
    Twins .type (ofName m name) (ofName m' name) := by
  unfold ofName
  split
  · exact .intro hm rfl trivial .nil
  · rename_i hnone
    exact .intro hm rfl ⟨h, hnone⟩ .nil

theorem TypeExpr.agree_parseWithin :
    ∀ count, Agrees G (Twins .type) (TypeExpr.parseWithin count)
  | 0 => expected _
  | count + 1 => by
    have ih := TypeExpr.agree_parseWithin count
    refine .bind look fun _ _ _ => .onKind fun k _ => ?_
    split
    · refine .step rfl fun _ _ => .seq (accept rfl) fun _ _ => ?_
      split
      · refine .bind ih fun element element' he => .close fun _ _ hm => ?_
        exact .intro hm rfl trivial (.cons he .nil)
      · refine .bind ih fun key key' hk => .bind (expect rfl _) fun _ _ _ => .bind ih fun value value' hv =>
          .close fun _ _ hm => ?_
        exact .intro hm rfl trivial (.cons hk (.cons hv .nil))
    · refine .step rfl fun _ _ => .bind (separatedUnless ih _ _) fun elements elements' he =>
        .bind (expect rfl _) fun _ _ _ => .close fun _ _ hm => ?_
      exact .intro hm rfl trivial (Twins.map he)
    · exact .any (.seq (dottedName _) fun name hn => .close fun _ _ hm => twin_ofName hm hn)
    · exact expected _

theorem TypeExpr.agree_parse : Agrees G (Twins .type) TypeExpr.parse :=
  .seq left fun _ _ => TypeExpr.agree_parseWithin _

theorem TypeExpr.agree_parseIf (wanted : Bool) : Agrees G (Option.Rel (Twins .type)) (TypeExpr.parseIf wanted) := by
  unfold TypeExpr.parseIf
  split
  · exact .bind TypeExpr.agree_parse fun _ _ ht => .pure (.some ht)
  · exact .pure .none

/-- Parameters of one name, spelled as names are, with twin types. -/
structure Param.Twin (p p' : Param Mark) : Prop where
  name : p.name = p'.name
  named : ∀ name ∈ p.name, IsName name
  type : Twins .type p.type p'.type

theorem Param.agree_parse : Agrees G Param.Twin Param.parse := by
  refine .onCursor fun c c' hc => ?_
  -- the cursor itself differs between the runs, but it is only asked for two kinds
  simp only [← hc.kind_peek, ← hc.kind_peekSecond]
  have htype {name : Option String} (hname : ∀ text ∈ name, IsName text) :
      Agrees G Param.Twin (do pure ⟨name, ← TypeExpr.parse⟩) :=
    .bind TypeExpr.agree_parse fun _ _ ht => .pure ⟨rfl, hname, ht⟩
  split
  · rename_i name hname
    split
    · refine .step (by rw [hname]; rfl) fun _ _ => htype ?_
      have hclean : IsName name := by
        have := hc.clean_peek
        rwa [hname] at this
      simpa using hclean
    · exact .any (htype (by simp))
  · exact .any (htype (by simp))

theorem Param.agree_parseList : Agrees G (List.Forall₂ Param.Twin) Param.parseList := by
  refine .bind (expect rfl _) fun _ _ _ => .seq (accept rfl) fun _ _ => ?_
  split
  · exact .pure .nil
  · exact .seq left fun _ _ => .bind (separated Param.agree_parse _) fun _ _ hp =>
      .bind (expect rfl _) fun _ _ _ => .pure hp

section Params

variable {params params' : List (Param Mark)}

theorem Param.names_eq (h : List.Forall₂ Param.Twin params params') : params.map (·.name) = params'.map (·.name) :=
  map_eq_of_forall₂ (fun _ _ hp => hp.name) h

theorem Param.named_of_twins (h : List.Forall₂ Param.Twin params params') : Param.Named params :=
  forall_of_forall₂ (fun _ _ hp => hp.named) h

theorem Param.twins_types (h : List.Forall₂ Param.Twin params params') :
    List.Forall₂ Node.Twin (params.map (.type ·.type)) (params'.map (.type ·.type)) :=
  Twins.map (h.imp fun _ _ hp => hp.type)

end Params

theorem agree_parseInherits : Agrees G (Both fun names => ∀ name ∈ names, IsDotted name) parseInherits := by
  refine .seq (accept rfl) fun _ _ => ?_
  split
  · exact .seq left fun _ _ => .bind (separatedUnless (dottedName _) _ _) fun _ _ hn =>
      .bind (expect rfl _) fun _ _ _ => .pure (both_of_forall₂ hn)
  · exact .pure (.rfl (by simp))

/-! ## Literals -/

theorem Literal.agree_parseEntry {item : Reading Arena (Literal Mark)} (hitem : Agrees G (Twins .literal) item) :
    Agrees G (fun e e' => Twins .literal e.1 e'.1 ∧ Twins .literal e.2 e'.2) (parseEntry item) :=
  .bind hitem fun _ _ hk => .bind (expect rfl _) fun _ _ _ => .bind hitem fun _ _ hv => .pure ⟨hk, hv⟩

theorem Literal.agree_parseWithin :
    ∀ count, Agrees G (Twins .literal) (Literal.parseWithin count)
  | 0 => expected _
  | count + 1 => by
    have ih := Literal.agree_parseWithin count
    refine .bind look fun _ _ _ => .onKind fun k hk => ?_
    split
    · exact .step rfl fun _ _ => .close fun _ _ hm => .intro hm rfl hk .nil
    · exact .step rfl fun _ _ => .close fun _ _ hm => .intro hm rfl hk .nil
    · exact .step rfl fun _ _ => .close fun _ _ hm => .intro hm rfl trivial .nil
    · exact .step rfl fun _ _ => .close fun _ _ hm => .intro hm rfl trivial .nil
    · exact .step rfl fun _ _ => .close fun _ _ hm => .intro hm rfl trivial .nil
    · exact .step rfl fun _ _ => .bind (enclosed ih _ _) fun items items' hi =>
        .bind (expect rfl _) fun _ _ _ => .close fun _ _ hm => .intro hm rfl trivial (Twins.map hi)
    · exact .step rfl fun _ _ => .bind (enclosed ih _ _) fun items items' hi =>
        .bind (expect rfl _) fun _ _ _ => .close fun _ _ hm => .intro hm rfl trivial (Twins.map hi)
    · refine .step rfl fun _ _ => .bind (enclosed (agree_parseEntry ih) _ _) fun entries entries' he =>
        .bind (expect rfl _) fun _ _ _ => .close fun _ _ hm => .intro hm rfl trivial ?_
      exact List.rel_flatMap he fun _ _ h => .cons h.1 (.cons h.2 .nil)
    · exact expected _

theorem Literal.agree_parse : Agrees G (Twins .literal) Literal.parse :=
  .seq left fun _ _ => Literal.agree_parseWithin _

/-! ## Expressions -/

namespace Expr

variable {rows : FileRows} {spot : Spot rows} {expression : Reading Arena (Expr Mark)}

theorem agree_wrap {l l' : Literal Mark} (h : Twins .literal l l') : Agree G (Twins .expr) (wrap l) (wrap l') :=
  .entered fun _ _ hm => .intro hm rfl trivial (.cons h .nil)

/-- Twins are literals together, and then the literals are twins. -/
theorem literal_of_twin {t : Mark} {l : Literal Mark} {e' : Expr Mark} (h : Twins .expr (.literal t l) e') :
    ∃ t' l', e' = .literal t' l' ∧ Twins .literal l l' := by
  obtain ⟨t', l', rfl, hl⟩ := literal_of_sketch h.outline
  exact ⟨t', l', rfl, hl, (every_literal.mp h.sound).2⟩

/-- Twins of which the first has its span on a row. -/
def TwinsOn (row : List Token) (e e' : Expr Mark) : Prop := Twins .expr e e' ∧ e.tag.span.On row

/-- An expression that is no literal is at fault as a whole. -/
theorem agree_tupleElement {e e' : Expr Mark} (h : TwinsOn spot.row e e') :
    Agree spot.ground (Twins .literal) (tupleElement e) (tupleElement e') := by
  obtain ⟨htwin, hon⟩ := h
  cases e with
  | literal t l =>
    obtain ⟨t', l', rfl, hl⟩ := literal_of_twin htwin
    exact .pure hl
  | _ =>
    cases e' with
    | literal t' l' => cases Node.expr.inj htwin.erase
    | _ => exact failAt hon

theorem agree_parseBracketed (he : Agrees spot.ground (TwinsOn spot.row) expression) (count : Nat) :
    Agrees spot.ground (Twins .expr) (parseBracketed expression count) := by
  refine .bind (expect rfl _) fun _ _ _ => .seq (accept rfl) fun _ _ => ?_
  split
  · exact .bind (.close fun _ _ hm => .intro hm rfl trivial .nil) fun _ _ => agree_wrap
  · refine .bind he fun e e' htwin => .seq (accept rfl) fun _ _ => ?_
    split
    · exact .pure htwin.1
    · have helement : Agrees spot.ground (Twins .literal) (parseElement expression) :=
        .bind he fun _ _ h => agree_tupleElement h
      refine .bind (expect rfl _) fun _ _ _ => .bind (agree_tupleElement htwin) fun first first' hf =>
        .bind (enclosed helement _ _) fun others others' ho => .bind (expect rfl _) fun _ _ _ =>
        .bind (.close fun _ _ hm => ?_) fun _ _ => agree_wrap
      exact .intro hm rfl trivial (Twins.map (.cons hf ho))

theorem agree_parseNamed (he : Agrees spot.ground (Twins .expr) expression) (count : Nat) :
    Agrees spot.ground (Twins .expr) (parseNamed expression count) := by
  refine .bind look fun _ _ _ => .seq (dottedName _) fun name hn => .seq (accept rfl) fun _ _ => ?_
  split
  · exact .bind (separatedUnless he _ _) fun args args' ha => .bind (expect rfl _) fun _ _ _ =>
      .close fun _ _ hm => .intro hm rfl hn (Twins.map ha)
  · exact .close fun _ _ hm => .intro hm rfl hn .nil

theorem agree_parsePrimary (he : Agrees spot.ground (TwinsOn spot.row) expression) (count : Nat) :
    Agrees spot.ground (Twins .expr) (parsePrimary expression count) := by
  refine .seq kind fun k _ => ?_
  split
  · exact agree_parseBracketed he count
  · exact agree_parseNamed (he.mono fun _ _ h => h.1) count
  · exact .bind Literal.agree_parse fun _ _ => agree_wrap

theorem agree_parseIndices (he : Agrees spot.ground (Twins .expr) expression) (start start' : Span) :
    ∀ (count : Nat) {e e' : Expr Mark}, Twins .expr e e' →
      Agree spot.ground (Twins .expr) (parseIndices expression start count e) (parseIndices expression start' count e')
  | 0, _, _, h => .pure h
  | count + 1, e, e', h => by
    refine .seq (accept rfl) fun _ _ => ?_
    split
    · exact .bind he fun index index' hi => .bind (expect rfl _) fun _ _ _ =>
        .bind (.close fun _ _ hm => .intro hm rfl (.inr rfl) (.cons h (.cons hi .nil))) fun _ _ =>
        agree_parseIndices he start start' count
    · exact .pure h

theorem agree_parseOperand (he : Agrees spot.ground (TwinsOn spot.row) expression) :
    ∀ count, Agrees spot.ground (Twins .expr) (parseOperand expression count)
  | 0 => expected _
  | count + 1 => by
    have hplain (start start' : Span) : Agree spot.ground (Twins .expr)
        (parsePrimary expression (count + 1) >>= parseIndices expression start (count + 1))
        (parsePrimary expression (count + 1) >>= parseIndices expression start' (count + 1)) :=
      .bind (agree_parsePrimary he _) fun _ _ h => agree_parseIndices (he.mono fun _ _ h => h.1) _ _ _ h
    refine .bind look fun _ _ _ => .onKind fun k _ => ?_
    split
    · split
      · rename_i op hbefore
        exact .step rfl fun _ _ => .bind (agree_parseOperand he count) fun operand operand' ho =>
          .close fun _ _ hm => .intro hm rfl hbefore (.cons ho .nil)
      · exact .any (hplain _ _)
    · exact .any (hplain _ _)

theorem agree_climb {operand : Nat → Reading Arena (Expr Mark)}
    (ho : ∀ least, Agrees spot.ground (Twins .expr) (operand least)) (start start' : Span) (least : Nat) :
    ∀ (count : Nat) {e e' : Expr Mark}, Twins .expr e e' →
      Agree spot.ground (Twins .expr) (climb operand start least count e) (climb operand start' least count e')
  | 0, _, _, h => .pure h
  | count + 1, e, e', h => by
    refine .onKind fun k _ => ?_
    split
    · split
      · rename_i op hop
        exact .step rfl fun _ _ => .bind (ho _) fun right right' hr =>
          .bind (.close fun _ _ hm => .intro hm rfl (.inl hop.1) (.cons h (.cons hr .nil))) fun _ _ =>
          agree_climb ho start start' least count
      · exact .pure h
    · exact .pure h

theorem agree_parseWithin :
    ∀ count least, Agrees spot.ground (Twins .expr) (parseWithin count least)
  | 0, _ => expected _
  | count + 1, least => by
    have ih := agree_parseWithin count
    have hon : Agrees spot.ground (TwinsOn spot.row) (parseWithin count 0) := by
      refine ((ih 0).lays (lays_parseWithin count 0)).mono ?_
      rintro e e' ⟨htwin, hspan⟩
      have hon := hspan e.tree (List.mem_singleton_self _)
      rw [show e.tree.label = .expr e from Node.label_tree (.expr e)] at hon
      exact ⟨htwin, hon⟩
    exact .bind look fun _ _ _ => .bind (agree_parseOperand hon _) fun _ _ h => agree_climb ih _ _ _ _ h

theorem agree_parse : Agrees G (Twins .expr) Expr.parse := .lift (.seq left fun _ _ => agree_parseWithin _ _)

end Expr

/-- Twin values that are no bare literals in disguise. -/
structure Value.Twin (v v' : Value Mark) : Prop where
  node : Twins Value.node v v'
  proper : v.Proper

theorem Value.twin_ofExpr {e e' : Expr Mark} (h : Twins .expr e e') : (ofExpr e).Twin (ofExpr e') := by
  cases e with
  | literal t l =>
    obtain ⟨t', l', rfl, hl⟩ := Expr.literal_of_twin h
    exact ⟨hl, trivial⟩
  | _ =>
    cases e' with
    | literal t' l' => cases Node.expr.inj h.erase
    | _ => exact ⟨h, trivial⟩

theorem Value.agree_parse : Agrees G Value.Twin Value.parse :=
  .bind Expr.agree_parse fun _ _ h => .pure (Value.twin_ofExpr h)

theorem Value.agree_parseInitial : Agrees G (Option.Rel Value.Twin) Value.parseInitial := by
  refine .seq (accept rfl) fun _ _ => ?_
  split
  · exact .bind Value.agree_parse fun _ _ h => .pure (.some h)
  · exact .pure .none

section Initial

variable {o o' : Option (Value Mark)}

theorem Value.proper_of_rel (h : Option.Rel Value.Twin o o') : ∀ v ∈ o, v.Proper := by
  cases h with
  | none => simp
  | some h => simpa using h.proper

theorem Value.twins_of_rel (h : Option.Rel Value.Twin o o') :
    List.Forall₂ Node.Twin (o.map Value.node).toList (o'.map Value.node).toList := by
  cases h with
  | none => exact .nil
  | some h => exact .cons h.node .nil

end Initial

/-! ## Blocks -/

section Blocks

variable {rows : FileRows} {β : Type} {R : β → β → Prop} {item : Option String → Reading Arena β}

/-- What a fault has left of an item, before the items that follow. -/
theorem forall₂_toList_append {first first' : Option β} {others others' : List β} (hf : Option.Rel R first first')
    (ho : List.Forall₂ R others others') : List.Forall₂ R (first.toList ++ others) (first'.toList ++ others') := by
  cases hf with
  | none => exact ho
  | some h => exact .cons h ho

theorem agree_parseBlock (name : String) (hitem : ∀ doc, IsDoc doc → Agrees rows.ground R (item doc)) :
    ∀ count, Agrees rows.ground (fun r r' => List.Forall₂ R r.1 r'.1) (parseBlock name item count)
  | 0 => .onToken fun _ _ _ => .failLooked
  | count + 1 => by
    refine .seq (layout _ .none) fun doc hdoc => .onKind fun k _ => ?_
    split
    · exact .step rfl fun _ _ => .bind lineEnd fun _ _ _ => .pure .nil
    · exact .any (.onToken fun _ _ _ => .failLooked)
    · exact .bind (recover (.any (hitem _ hdoc))) fun first first' hf =>
        .bind (agree_parseBlock name hitem count) fun others others' ho => .pure (forall₂_toList_append hf ho)

theorem agree_parseBody (name : String) (hitem : ∀ doc, IsDoc doc → Agrees rows.ground R (item doc)) :
    Agrees rows.ground (fun r r' => List.Forall₂ R r.1 r'.1) (parseBody name item) :=
  .seq left fun _ _ => agree_parseBlock name hitem _

theorem agree_parseHeir {γ : Type} {keyword : Keyword} {build : Mark → String → List String → List β → γ}
    {node : γ → Node Mark} (hitem : ∀ doc, IsDoc doc → Agrees rows.ground R (item doc))
    (hbuild : ∀ {name : String} {inherits : List String} {items items' : List β}, IsName name →
      (∀ base ∈ inherits, IsDotted base) → List.Forall₂ R items items' →
      ∀ m m', m.id = m'.id → Twins node (build m name inherits items) (build m' name inherits items')) :
    Agrees rows.ground (Twins node) (parseHeir keyword item build node) :=
  .bind (expect rfl _) fun _ _ _ => .seq (Agree.name _) fun _ hn => .seq agree_parseInherits fun _ hi =>
    .bind lineEnd fun _ _ _ => .bind (agree_parseBody _ hitem) fun _ _ hb => .entered (hbuild hn hi hb)

end Blocks

/-! ## Declarations and statements -/

variable {rows : FileRows}

theorem Fn.agree_parse (hdoc : IsDoc doc) : Agrees rows.ground (Twins .fn) (Fn.parse doc) := by
  refine .bind (expect rfl _) fun _ _ _ => .seq (Agree.name _) fun name hn =>
    .bind Param.agree_parseList fun params params' hp => .seq (accept rfl) fun _ _ => .seq kind fun _ _ =>
    .bind (TypeExpr.agree_parseIf _) fun _ _ hret => .line fun _ _ hm => ?_
  exact .intro hm (congrArg (fun names => (NodeSort.fn, Payload.taking name doc names)) (Param.names_eq hp))
    ⟨hn, Param.named_of_twins hp, hdoc⟩ (List.rel_append (Param.twins_types hp) (Twins.option hret))

theorem Channel.agree_parse (keyword : Keyword) {node : Channel Mark → Node Mark}
    (hnode : ∀ {name : String} {params params' : List (Param Mark)}, IsName name →
      List.Forall₂ Param.Twin params params' →
      ∀ m m', m.id = m'.id → Twins node ⟨m, name, params, doc⟩ ⟨m', name, params', doc⟩) :
    Agrees rows.ground (Twins node) (Channel.parse keyword node doc) :=
  .bind (expect rfl _) fun _ _ _ => .seq (Agree.name _) fun _ hn => .bind Param.agree_parseList fun _ _ hp =>
    .line (hnode hn hp)

theorem Member.agree_parse (hdoc : IsDoc doc) : Agrees rows.ground (Twins Member.node) (Member.parse doc) := by
  refine .seq kind fun k _ => ?_
  split
  · exact .bind (Fn.agree_parse hdoc) fun _ _ h => .pure h
  · refine .bind (Channel.agree_parse _ fun hn hp _ _ hm => ?_) fun _ _ h => .pure h
    exact .intro hm (congrArg (fun names => (_, Payload.taking _ _ names)) (Param.names_eq hp))
      ⟨hn, Param.named_of_twins hp, hdoc⟩ (Param.twins_types hp)
  · refine .bind (Channel.agree_parse _ fun hn hp _ _ hm => ?_) fun _ _ h => .pure h
    exact .intro hm (congrArg (fun names => (_, Payload.taking _ _ names)) (Param.names_eq hp))
      ⟨hn, Param.named_of_twins hp, hdoc⟩ (Param.twins_types hp)
  · exact expected _

theorem Interface.agree_parse (hdoc : IsDoc doc) : Agrees rows.ground (Twins .interface) (Interface.parse doc) :=
  agree_parseHeir (fun _ => Member.agree_parse) fun hn hi hb _ _ hm => .intro hm rfl ⟨hn, hi, hdoc⟩ (Twins.map hb)

theorem Field.agree_parse : Agrees rows.ground (Twins .field) Field.parse :=
  .bind look fun _ _ _ => .seq (Agree.name _) fun _ hn => .bind TypeExpr.agree_parse fun _ _ ht =>
    .bind Value.agree_parseInitial fun _ _ hv => .line fun _ _ hm =>
    .intro hm rfl ⟨hn, Value.proper_of_rel hv⟩ (.cons ht (Value.twins_of_rel hv))

theorem Struct.agree_parse (hdoc : IsDoc doc) : Agrees rows.ground (Twins .struct) (Struct.parse doc) :=
  agree_parseHeir (fun _ _ => Field.agree_parse) fun hn hi hb _ _ hm => .intro hm rfl ⟨hn, hi, hdoc⟩ (Twins.map hb)

theorem EnumItem.agree_parseMeaning :
    Agrees rows.ground (fun r r' => ∀ m m', m.id = m'.id → Twins .enumItem ⟨m, r.1, r.2⟩ ⟨m', r'.1, r'.2⟩)
      EnumItem.parseMeaning := by
  refine .seq (accept rfl) fun _ _ => ?_
  split
  · exact .seq (Agree.name _) fun n hn => .bind (expect rfl _) fun _ _ _ => .bind Value.agree_parse fun _ _ hv =>
      .pure fun _ _ hm => .intro hm rfl ⟨hn, hv.proper⟩ (.cons hv.node .nil)
  · refine .seq (accept rfl) fun _ _ => ?_
    split
    · exact .bind TypeExpr.agree_parse fun _ _ ht => .seq (Agree.name _) fun n hn =>
        .pure fun _ _ hm => .intro hm rfl ⟨hn, trivial⟩ (.cons ht .nil)
    · exact expected _

theorem EnumItem.agree_parse : Agrees rows.ground (Twins .enumItem) EnumItem.parse :=
  .bind look fun _ _ _ => .bind EnumItem.agree_parseMeaning fun _ _ hi => .line hi

theorem Enum.agree_parse (hdoc : IsDoc doc) : Agrees rows.ground (Twins .enum) (Enum.parse doc) :=
  .bind (expect rfl _) fun _ _ _ => .seq (Agree.name _) fun _ hn => .bind lineEnd fun _ _ _ =>
    .bind (agree_parseBody _ fun _ _ => EnumItem.agree_parse) fun _ _ hb =>
    .entered fun _ _ hm => .intro hm rfl ⟨hn, hdoc⟩ (Twins.map hb)

theorem Const.agree_parse : Agrees rows.ground (Twins .const) Const.parse :=
  .bind (expect rfl _) fun _ _ _ => .seq (Agree.name _) fun _ hn => .seq kind fun _ _ =>
    .bind (TypeExpr.agree_parseIf _) fun _ _ ht => .bind (expect rfl _) fun _ _ _ =>
    .bind Value.agree_parse fun _ _ hv => .line fun _ _ hm =>
    .intro hm rfl ⟨hn, hv.proper⟩ (List.rel_append (Twins.option ht) (.cons hv.node .nil))

theorem Typedef.agree_parse : Agrees rows.ground (Twins .typedef) Typedef.parse :=
  .bind (expect rfl _) fun _ _ _ => .bind TypeExpr.agree_parse fun _ _ ht => .seq (Agree.name _) fun _ hn =>
    .line fun _ _ hm => .intro hm rfl hn (.cons ht .nil)

theorem Var.agree_parse : Agrees rows.ground (Twins .var) Var.parse := by
  refine .bind (expect rfl _) fun _ _ _ => .seq (Agree.name _) fun _ hn => .seq kind fun _ _ =>
    .bind (TypeExpr.agree_parseIf _) fun _ _ ht => .bind Value.agree_parseInitial fun _ _ hv => .line fun _ _ hm => ?_
  refine .intro hm ?_ ⟨hn, Value.proper_of_rel hv⟩ (List.rel_append (Twins.option ht) (Value.twins_of_rel hv))
  cases ht <;> cases hv <;> rfl

theorem ImportScope.agree_parse : Agrees rows.ground (Both ImportScope.Sound) ImportScope.parse := by
  refine .seq (accept rfl) fun _ _ => ?_
  split
  · exact .pure (.rfl trivial)
  · refine .seq (Agree.name _) fun first hf => .seq (accept rfl) fun _ _ => ?_
    split
    · refine .seq left fun _ _ => .bind (separated (Agree.name _) _) fun others others' ho => .pure ?_
      obtain ⟨rfl, hothers⟩ := both_of_forall₂ ho
      exact .rfl ⟨by simp, List.forall_mem_cons.mpr ⟨hf, hothers⟩⟩
    · exact .pure (.rfl ⟨by simp, by simpa using hf⟩)

theorem Import.agree_parse : Agrees rows.ground (Twins .imports) Import.parse := by
  refine .bind look fun start start' _ => .seq (accept rfl) fun _ _ => ?_
  have hbuild {package : String} (scope : ImportScope) (hp : IsDotted package) (hs : scope.Sound) (m m' : Mark)
      (hm : m.id = m'.id) : Twins .imports ⟨m, package, scope⟩ ⟨m', package, scope⟩ := .intro hm rfl ⟨hp, hs⟩ .nil
  split
  · exact .seq (dottedName _) fun _ hp => .line (hbuild .package hp trivial)
  · exact .bind (expect rfl _) fun _ _ _ => .seq (dottedName _) fun _ hp => .bind (expect rfl _) fun _ _ _ =>
      .seq ImportScope.agree_parse fun _ hs => .line (hbuild _ hp hs)

namespace ObjectItem

theorem agree_parseProperty : Agrees rows.ground (Twins .object) parseProperty :=
  .bind (expect rfl _) fun _ _ _ => .seq (Agree.name _) fun _ hn => .bind Value.agree_parse fun _ _ hv =>
    .line fun _ _ hm => .intro hm rfl ⟨hn, hv.proper⟩ (.cons hv.node .nil)

theorem agree_parseConnect : Agrees rows.ground (Twins .object) parseConnect :=
  .bind (expect rfl _) fun _ _ _ => .bind Value.agree_parse fun _ _ hs => .bind Value.agree_parse fun _ _ hr =>
    .line fun _ _ hm => .intro hm rfl ⟨hs.proper, hr.proper⟩ (.cons hs.node (.cons hr.node .nil))

theorem agree_parseObject {item : Reading Arena (ObjectItem Mark)} (hitem : Agrees rows.ground (Twins .object) item) :
    Agrees rows.ground (fun o o' => (Node.object o).IsTop ∧ Twins .object o o') (parseObject item) := by
  refine .bind (expect rfl _) fun _ _ _ => .bind TypeExpr.agree_parse fun _ _ ht => .onKind fun _ _ => ?_
  split
  · rename_i name _
    have hlabel {m m' : Mark} (hm : m.id = m'.id) : Twins .literal (.string m name) (.string m' name) :=
      .intro hm rfl trivial .nil
    refine .step rfl fun _ _ => .bind (.enter (R := fun l l' => l.tag.id = l'.tag.id) (fun _ _ hm => hm)
      fun _ _ hm => (hlabel hm).outline) fun _ _ hl => .bind lineEnd fun _ _ _ =>
      .bind (agree_parseBody _ fun _ _ => hitem) fun _ _ hb => .enteredAs (fun _ _ hm => ⟨trivial, ?_⟩) fun _ _ h => h.2
    exact .intro hm rfl trivial (.cons ht (.cons (hlabel hl) (Twins.map hb)))
  · exact expected _

theorem agree_parseWithin : ∀ count, Agrees rows.ground (Twins .object) (parseWithin count)
  | 0 => expected _
  | count + 1 => by
    refine .seq kind fun _ _ => ?_
    split
    · exact agree_parseProperty
    · exact agree_parseConnect
    · exact (agree_parseObject (agree_parseWithin count)).mono fun _ _ h => h.2
    · exact expected _

theorem agree_parse :
    Agrees rows.ground (fun o o' => (Node.object o).IsTop ∧ Twins .object o o') ObjectItem.parse :=
  .seq left fun _ _ => agree_parseObject (agree_parseWithin _)

end ObjectItem

/-! ## Files -/

namespace Node

/-- Twins of a sort that stands at the top of a file. -/
structure TopTwin (n n' : Node Mark) : Prop where
  top : n.IsTop
  twin : n.Twin n'

theorem agree_parsePackage : Agrees rows.ground TopTwin parsePackage :=
  .bind (expect rfl _) fun _ _ _ => .seq (dottedName _) fun _ hn => .span fun _ _ =>
    .bind lineEnd fun _ _ _ => .enteredAs (fun _ _ hm => ⟨trivial, .intro hm rfl hn .nil⟩) fun _ _ h => h.twin

theorem agree_parseItem (hdoc : IsDoc doc) : Agrees rows.ground TopTwin (parseItem doc) := by
  refine .onToken fun t t' ht => ?_
  rw [ht]
  split
  · exact .any agree_parsePackage
  · exact .bind (.any Import.agree_parse) fun _ _ h => .pure ⟨trivial, h⟩
  · exact .bind (.any Import.agree_parse) fun _ _ h => .pure ⟨trivial, h⟩
  · exact .bind (.any (Interface.agree_parse hdoc)) fun _ _ h => .pure ⟨trivial, h⟩
  · exact .bind (.any (Struct.agree_parse hdoc)) fun _ _ h => .pure ⟨trivial, h⟩
  · exact .bind (.any (Enum.agree_parse hdoc)) fun _ _ h => .pure ⟨trivial, h⟩
  · exact .bind (.any Const.agree_parse) fun _ _ h => .pure ⟨trivial, h⟩
  · exact .bind (.any Typedef.agree_parse) fun _ _ h => .pure ⟨trivial, h⟩
  · exact .bind (.any (Fn.agree_parse hdoc)) fun _ _ h => .pure ⟨trivial, h⟩
  · exact .bind (.any ObjectItem.agree_parse) fun _ _ h => .pure ⟨h.1, h.2⟩
  · exact .bind (.any Var.agree_parse) fun _ _ h => .pure ⟨trivial, h⟩
  · exact .failLooked
  · exact .failLooked
  · exact expected _

theorem agree_parseComment {text : String} (h : Lexeme.IsRemark text.toList) :
    Agrees rows.ground TopTwin (parseComment text) (·.kind = .comment text) :=
  .step rfl fun _ _ => .bind lineEnd fun _ _ _ =>
    .enteredAs (fun _ _ hm => ⟨trivial, .intro hm rfl h .nil⟩) fun _ _ h => h.twin

theorem agree_parseItems : ∀ (count : Nat) {doc : Option String}, IsDoc doc →
    Agrees rows.ground (List.Forall₂ TopTwin) (parseItems count doc)
  | 0, _, _ => .pure .nil
  | count + 1, doc, hdoc => by
    refine .seq (layout _ hdoc) fun doc hdoc => .onKind fun _ hk => ?_
    split
    · exact .pure .nil
    · exact .bind (recover (agree_parseComment hk)) fun first first' hf =>
        .bind (agree_parseItems count hdoc) fun others others' ho => .pure (forall₂_toList_append hf ho)
    · exact .bind (recover (.any (agree_parseItem hdoc))) fun first first' hf =>
        .bind (agree_parseItems count .none) fun others others' ho => .pure (forall₂_toList_append hf ho)

end Node

section Tokens

variable {source : String} {toks toks' : List Token} {roots : List (Node Mark)} {nodes : Arena}

/-- The tokens of a text and tokens of the same kinds are read to twins, with arenas of the same outlines. -/
theorem parseTokens_twins (hlex : lex source = .ok toks) (hkinds : toks.map Token.kind = toks'.map Token.kind)
    (h : parseTokens #[] toks = .ok (roots, nodes)) :
    ∃ roots' nodes', parseTokens #[] toks' = .ok (roots', nodes') ∧ List.Forall₂ Node.TopTwin roots roots' ∧
      nodes.map Node.outline = nodes'.map Node.outline := by
  have hlength : toks.length = toks'.length := by simpa using congrArg List.length hkinds
  obtain ⟨lines, stop, -, htoks, hlines, hstop⟩ := rows_of_lex hlex
  have hstart : Reached (.ofLines hlines hstop) (⟨toks, .point 0, [], #[]⟩ : Cursor Arena) :=
    htoks ▸ reached_start (by simp [FileRows.ofLines]) _ _
  obtain ⟨c, hok, hfaults, rfl⟩ := parseTokens_eq_ok h
  have hruns := Node.agree_parseItems (toks.length + 1) .none ⟨toks, .point 0, [], #[]⟩ ⟨toks', .point 0, [], #[]⟩
    ⟨hkinds, clean_of_mem_lex hlex, rfl, rfl⟩ hstart trivial
  rw [hok] at hruns
  unfold parseTokens
  rw [← hlength]
  cases hok' : Node.parseItems (toks.length + 1) none (⟨toks', .point 0, [], #[]⟩ : Cursor Arena) with
  | error e' c' =>
    rw [hok'] at hruns
    exact hruns.elim
  | ok roots' c' =>
    rw [hok'] at hruns
    obtain ⟨htwins, hlike, -⟩ := hruns
    -- equally many faults were recovered from, so there were none in the second run either
    have hnone : c'.faults = [] := List.eq_nil_of_length_eq_zero (by rw [← hlike.faults, hfaults]; rfl)
    exact ⟨roots', c'.kept, by simp [hnone], htwins, hlike.kept⟩

end Tokens

/-- A file that was read has sound nodes, at the top such as may stand there. -/
theorem parseSource_sound {source file : String} {ast : Ast} (h : parseSource source file = .ok ast) :
    ∀ n ∈ ast.roots, n.IsTop ∧ n.tree.Every Node.Sound := by
  obtain ⟨toks, hlex, htrees, -, -⟩ := parseSource_eq_ok h
  obtain ⟨roots', -, -, htwins, -⟩ := parseTokens_twins hlex rfl htrees
  exact forall_of_forall₂ (fun _ _ hn => ⟨hn.top, hn.twin.sound⟩) htwins

end QiIdl
