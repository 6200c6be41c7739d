import QiIdl.Grammar.Values
import QiIdl.Proofs.Ast.Laid

/-!
# Reading without an arena

A grammar says which trees tokens stand for, and spans are all that it needs for tags. A file is read with an arena, so
what is known of the grammar has to be carried over: `Mirrors R p q` says that `p`, run with an arena, goes where `q`
goes without one. Both succeed with results that are related by `R`, or both fail with the same fault, and they leave
the same tokens.

Nothing is ever read off the arena but the next number, so the rules are those of running two readers in step. There is
one for entering a node, which is where the runs differ. The readers of literals and of expressions follow in the order
of the grammar; theirs are the trees that the grammar is about.
-/

namespace QiIdl

/-- The cursor without what is kept. -/
def Cursor.bare (c : Cursor Arena) : Cursor Unit := ⟨c.rest, c.last, c.faults, ()⟩

theorem Cursor.bare_advance (c : Cursor Arena) : c.advance.bare = c.bare.advance := by
  obtain ⟨rest, last, faults, kept⟩ := c
  cases rest with
  | nil => rfl
  | cons t rest =>
    simp only [advance, bare]
    split <;> rfl

/-- A reader does with an arena what another one does without. -/
def Mirrors {β γ : Type} (R : β → γ → Prop) (p : Reading Arena β) (q : Parse γ) : Prop :=
  ∀ c, match p c, q c.bare with
    | .ok b d, .ok b' d' => R b b' ∧ d.bare = d'
    | .error f d, .error f' d' => f = f' ∧ d.bare = d'
    | _, _ => False

namespace Mirrors

variable {β β' γ γ' : Type} {R : β → β' → Prop} {S : γ → γ' → Prop} {p : Reading Arena β} {q : Parse β'}
  {f : β → Reading Arena γ} {f' : β' → Parse γ'}

theorem pure {b : β} {b' : β'} (h : R b b') : Mirrors R (Pure.pure b) (Pure.pure b') := fun _ => ⟨h, rfl⟩

theorem bind (hp : Mirrors R p q) (hf : ∀ b b', R b b' → Mirrors S (f b) (f' b')) :
    Mirrors S (p >>= f) (q >>= f') := by
  intro c
  have hruns := hp c
  cases h : p c <;> cases h' : q c.bare <;> rw [h, h'] at hruns
  case ok.ok b d b' d' =>
    obtain ⟨hb, rfl⟩ := hruns
    rw [bind_of_ok h, bind_of_ok h']
    exact hf b b' hb d
  case error.error e d e' d' =>
    rw [bind_of_error h, bind_of_error h']
    exact hruns
  all_goals exact hruns.elim

/-- Behind a reader that gives the same in both runs. -/
theorem seq {q : Parse β} {f' : β → Parse γ'} (hp : Mirrors Eq p q) (hf : ∀ b, Mirrors S (f b) (f' b)) :
    Mirrors S (p >>= f) (q >>= f') := by
  refine hp.bind fun b b' hb => ?_
  subst hb
  exact hf b

/-- Where one succeeds, so does the other. -/
theorem exists_ok (hp : Mirrors R p q) {c : Cursor Arena} {b' : β'} {d' : Cursor Unit} (h : q c.bare = .ok b' d') :
    ∃ b d, p c = .ok b d ∧ R b b' ∧ d.bare = d' := by
  have hruns := hp c
  rw [h] at hruns
  cases hok : p c with
  | ok b d =>
    rw [hok] at hruns
    exact ⟨b, d, rfl, hruns⟩
  | error e d =>
    rw [hok] at hruns
    exact hruns.elim

theorem exists_ok_bare (hp : Mirrors R p q) {c d : Cursor Arena} {b : β} (h : p c = .ok b d) :
    ∃ b', q c.bare = .ok b' d.bare ∧ R b b' := by
  have hruns := hp c
  rw [h] at hruns
  cases hok : q c.bare with
  | ok b' d' =>
    rw [hok] at hruns
    obtain ⟨hb, rfl⟩ := hruns
    exact ⟨b', rfl, hb⟩
  | error e d' =>
    rw [hok] at hruns
    exact hruns.elim

/-! ## Tokens -/

theorem expected (what : String) : Mirrors R (Parse.expected what) (Parse.expected what) := fun _ => ⟨rfl, rfl⟩

theorem look : Mirrors Eq Parse.look Parse.look := fun _ => ⟨rfl, rfl⟩

theorem kind : Mirrors Eq Parse.kind Parse.kind := fun _ => ⟨rfl, rfl⟩

theorem left : Mirrors Eq Parse.left Parse.left := fun _ => ⟨rfl, rfl⟩

theorem modifyAdvance : Mirrors Eq (modify Cursor.advance) (modify Cursor.advance) := fun c => ⟨rfl, c.bare_advance⟩

theorem advance : Mirrors Eq Parse.advance Parse.advance := .seq look fun _ => .seq modifyAdvance fun _ => .pure rfl

theorem accept (k : TokenKind) : Mirrors Eq (Parse.accept k) (Parse.accept k) := by
  refine .seq kind fun _ => ?_
  split
  · exact .seq modifyAdvance fun _ => .pure rfl
  · exact .pure rfl

theorem expect (k : TokenKind) (what : String) : Mirrors Eq (Parse.expect k what) (Parse.expect k what) := by
  refine .seq kind fun _ => ?_
  split
  · exact advance
  · exact expected what

/-- A node is entered with the span that it is built with. -/
theorem enter {span : Span} {build : Mark → β} {build' : Span → β'} {node : β → Node Mark} {node' : β' → Node Span}
    (h : ∀ m, R (build m) (build' m.span)) : Mirrors R (Parse.enter span build node) (Parse.enter span build' node') :=
  fun _ => ⟨h ⟨_, span⟩, rfl⟩

theorem close {start : Span} {build : Mark → β} {build' : Span → β'} {node : β → Node Mark} {node' : β' → Node Span}
    (h : ∀ m, R (build m) (build' m.span)) :
    Mirrors R (Parse.close start build node) (Parse.close start build' node') :=
  .seq (fun _ => ⟨rfl, rfl⟩) fun _ => .enter h

/-! ## Names and lists -/

theorem name (what : String) : Mirrors Eq (Parse.name what) (Parse.name what) := by
  refine .seq kind fun k => ?_
  split
  · exact .seq modifyAdvance fun _ => .pure rfl
  · exact expected what

theorem dottedRest : ∀ (count : Nat) (text : String),
    Mirrors Eq (Parse.dottedRest count text) (Parse.dottedRest count text)
  | 0, _ => .pure rfl
  | count + 1, text => by
    refine .seq (accept _) fun _ => ?_
    split
    · exact .seq (name _) fun _ => dottedRest count _
    · exact .pure rfl

theorem dottedName (what : String) : Mirrors Eq (Parse.dottedName what) (Parse.dottedName what) :=
  .seq (name what) fun _ => .seq left fun _ => dottedRest _ _

theorem separated (hp : Mirrors R p q) :
    ∀ count, Mirrors (List.Forall₂ R) (Parse.separated p count) (Parse.separated q count)
  | 0 => .pure .nil
  | count + 1 => by
    refine .bind hp fun _ _ hb => .seq (accept _) fun _ => ?_
    split
    · exact .bind (separated hp count) fun _ _ hbs => .pure (.cons hb hbs)
    · exact .pure (.cons hb .nil)

theorem enclosed (hp : Mirrors R p q) (close : TokenKind) :
    ∀ count, Mirrors (List.Forall₂ R) (Parse.enclosed p close count) (Parse.enclosed q close count)
  | 0 => .pure .nil
  | count + 1 => by
    refine .seq kind fun _ => ?_
    split
    · exact .pure .nil
    · refine .bind hp fun _ _ hb => .seq (accept _) fun _ => ?_
      split
      · exact .bind (enclosed hp close count) fun _ _ hbs => .pure (.cons hb hbs)
      · exact .pure (.cons hb .nil)

theorem separatedUnless (hp : Mirrors R p q) (close : TokenKind) (count : Nat) :
    Mirrors (List.Forall₂ R) (Parse.separatedUnless p close count) (Parse.separatedUnless q close count) := by
  refine .seq kind fun _ => ?_
  split
  · exact .pure .nil
  · exact separated hp count

end Mirrors

open Mirrors

/-! ## Trees -/

/-- A node of an arena is one of a grammar with numbers added, all the way down. -/
def Node.Numbers (n : Node Mark) (n' : Node Span) : Prop := n.sketch Mark.span = n'.sketch id

theorem Node.Numbers.intro {n : Node Mark} {n' : Node Span} (htag : n.tag.span = n'.tag) (hface : n.face = n'.face)
    (hbelow : List.Forall₂ Node.Numbers n.below n'.below) : n.Numbers n' :=
  sketch_eq_of_below htag hface (map_eq_of_forall₂ (fun _ _ h => h) hbelow)

/-- A literal of an arena is one of the grammar with numbers added. -/
abbrev Literal.Numbers (l : Literal Mark) (l' : Literal Span) : Prop := (Node.literal l).Numbers (.literal l')

/-- An expression of an arena is one of the grammar with numbers added. -/
abbrev Expr.Numbers (e : Expr Mark) (e' : Expr Span) : Prop := (Node.expr e).Numbers (.expr e')

theorem forall₂_node {β γ : Type} {node : β → Node Mark} {node' : γ → Node Span} {bs : List β} {cs : List γ}
    (h : List.Forall₂ (fun b c => (node b).Numbers (node' c)) bs cs) :
    List.Forall₂ Node.Numbers (bs.map node) (cs.map node') := by
  rwa [List.forall₂_map_left_iff, List.forall₂_map_right_iff]

/-! ## Literals -/

namespace Literal

theorem mirrors_parseEntry {item : Reading Arena (Literal Mark)} {item' : Parse (Literal Span)}
    (hitem : Mirrors Literal.Numbers item item') :
    Mirrors (fun e e' => e.1.Numbers e'.1 ∧ e.2.Numbers e'.2) (parseEntry item) (parseEntry item') :=
  .bind hitem fun _ _ hk => .seq (expect _ _) fun _ => .bind hitem fun _ _ hv => .pure ⟨hk, hv⟩

theorem mirrors_parseWithin : ∀ count, Mirrors Literal.Numbers (parseWithin count) (parseWithin count)
  | 0 => expected _
  | count + 1 => by
    have ih := mirrors_parseWithin count
    refine .seq look fun _ => .seq kind fun _ => ?_
    split
    · exact .seq advance fun _ => .close fun _ => .intro rfl rfl .nil
    · exact .seq advance fun _ => .close fun _ => .intro rfl rfl .nil
    · exact .seq advance fun _ => .close fun _ => .intro rfl rfl .nil
    · exact .seq advance fun _ => .close fun _ => .intro rfl rfl .nil
    · exact .seq advance fun _ => .close fun _ => .intro rfl rfl .nil
    · exact .seq advance fun _ => .bind (enclosed ih _ _) fun _ _ hi => .seq (expect _ _) fun _ =>
        .close fun _ => .intro rfl rfl (forall₂_node hi)
    · exact .seq advance fun _ => .bind (enclosed ih _ _) fun _ _ hi => .seq (expect _ _) fun _ =>
        .close fun _ => .intro rfl rfl (forall₂_node hi)
    · refine .seq advance fun _ => .bind (enclosed (mirrors_parseEntry ih) _ _) fun _ _ he => .seq (expect _ _) fun _ =>
        .close fun _ => .intro rfl rfl ?_
      exact List.rel_flatMap he fun _ _ h => .cons h.1 (.cons h.2 .nil)
    · exact expected _

theorem mirrors_parse : Mirrors Literal.Numbers parse parse := .seq left fun _ => mirrors_parseWithin _

end Literal

/-! ## Expressions -/

namespace Expr

variable {expression : Reading Arena (Expr Mark)} {expression' : Parse (Expr Span)}

theorem mirrors_wrap {l : Literal Mark} {l' : Literal Span} (h : l.Numbers l') :
    Mirrors Expr.Numbers (wrap l) (wrap l') := by
  have hspan : Keeping.span Arena l.tag = Keeping.span Unit l'.tag := by
    have hlabel := congrArg (fun t => t.label.1) h
    rw [Node.sketch_eq, Node.sketch_eq] at hlabel
    exact hlabel
  unfold wrap
  rw [hspan]
  exact .enter fun _ => .intro rfl rfl (.cons h .nil)

/-- What is at fault is at the same place. -/
theorem mirrors_tupleElement {e : Expr Mark} {e' : Expr Span} (h : e.Numbers e') :
    Mirrors Literal.Numbers (tupleElement e) (tupleElement e') := by
  cases e with
  | literal t l =>
    obtain ⟨t', l', rfl, hl⟩ := literal_of_sketch h
    exact .pure hl
  | _ =>
    cases e' with
    | literal t' l' => cases Node.expr.inj (Node.erase_eq_of_sketch h)
    | _ =>
      have hlabel := congrArg (fun t => t.label.1) h
      rw [Node.sketch_eq, Node.sketch_eq] at hlabel
      exact fun _ => ⟨congrArg (Fault.plain _ _) hlabel, rfl⟩

theorem mirrors_parseElement (he : Mirrors Expr.Numbers expression expression') :
    Mirrors Literal.Numbers (parseElement expression) (parseElement expression') :=
  .bind he fun _ _ => mirrors_tupleElement

theorem mirrors_parseBracketed (he : Mirrors Expr.Numbers expression expression') (count : Nat) :
    Mirrors Expr.Numbers (parseBracketed expression count) (parseBracketed expression' count) := by
  refine .seq (expect _ _) fun _ => .seq (accept _) fun _ => ?_
  split
  · exact .bind (.close fun _ => .intro rfl rfl .nil) fun _ _ => mirrors_wrap
  · refine .bind he fun _ _ hinner => .seq (accept _) fun _ => ?_
    split
    · exact .pure hinner
    · exact .seq (expect _ _) fun _ => .bind (mirrors_tupleElement hinner) fun _ _ hfirst =>
        .bind (enclosed (mirrors_parseElement he) _ _) fun _ _ hothers => .seq (expect _ _) fun _ =>
        .bind (.close fun _ => .intro rfl rfl (forall₂_node (.cons hfirst hothers))) fun _ _ => mirrors_wrap

theorem mirrors_parseNamed (he : Mirrors Expr.Numbers expression expression') (count : Nat) :
    Mirrors Expr.Numbers (parseNamed expression count) (parseNamed expression' count) := by
  refine .seq look fun _ => .seq (dottedName _) fun _ => .seq (accept _) fun _ => ?_
  split
  · exact .bind (separatedUnless he _ _) fun _ _ ha => .seq (expect _ _) fun _ =>
      .close fun _ => .intro rfl rfl (forall₂_node ha)
  · exact .close fun _ => .intro rfl rfl .nil

theorem mirrors_parsePrimary (he : Mirrors Expr.Numbers expression expression') (count : Nat) :
    Mirrors Expr.Numbers (parsePrimary expression count) (parsePrimary expression' count) := by
  refine .seq kind fun _ => ?_
  split
  · exact mirrors_parseBracketed he count
  · exact mirrors_parseNamed he count
  · exact .bind Literal.mirrors_parse fun _ _ => mirrors_wrap

theorem mirrors_parseIndices (he : Mirrors Expr.Numbers expression expression') (start : Span) :
    ∀ (count : Nat) {e : Expr Mark} {e' : Expr Span}, e.Numbers e' →
      Mirrors Expr.Numbers (parseIndices expression start count e) (parseIndices expression' start count e')
  | 0, _, _, h => .pure h
  | count + 1, _, _, h => by
    refine .seq (accept _) fun _ => ?_
    split
    · exact .bind he fun _ _ hi => .seq (expect _ _) fun _ =>
        .bind (.close fun _ => .intro rfl rfl (.cons h (.cons hi .nil))) fun _ _ => mirrors_parseIndices he start count
    · exact .pure h

theorem mirrors_parseOperand (he : Mirrors Expr.Numbers expression expression') :
    ∀ count, Mirrors Expr.Numbers (parseOperand expression count) (parseOperand expression' count)
  | 0 => expected _
  | count + 1 => by
    have hplain (start : Span) : Mirrors Expr.Numbers
        (parsePrimary expression (count + 1) >>= parseIndices expression start (count + 1))
        (parsePrimary expression' (count + 1) >>= parseIndices expression' start (count + 1)) :=
      .bind (mirrors_parsePrimary he _) fun _ _ => mirrors_parseIndices he start _
    refine .seq look fun _ => .seq kind fun _ => ?_
    split
    · split
      · exact .seq advance fun _ => .bind (mirrors_parseOperand he count) fun _ _ ho =>
          .close fun _ => .intro rfl rfl (.cons ho .nil)
      · exact hplain _
    · exact hplain _

theorem mirrors_climb {operand : Nat → Reading Arena (Expr Mark)} {operand' : Nat → Parse (Expr Span)}
    (ho : ∀ least, Mirrors Expr.Numbers (operand least) (operand' least)) (start : Span) (least : Nat) :
    ∀ (count : Nat) {e : Expr Mark} {e' : Expr Span}, e.Numbers e' →
      Mirrors Expr.Numbers (climb operand start least count e) (climb operand' start least count e')
  | 0, _, _, h => .pure h
  | count + 1, _, _, h => by
    refine .seq kind fun _ => ?_
    split
    · split
      · exact .seq advance fun _ => .bind (ho _) fun _ _ hr =>
          .bind (.close fun _ => .intro rfl rfl (.cons h (.cons hr .nil))) fun _ _ => mirrors_climb ho start least count
      · exact .pure h
    · exact .pure h

theorem mirrors_parseWithin :
    ∀ count least, Mirrors Expr.Numbers (parseWithin count least) (parseWithin count least)
  | 0, _ => expected _
  | count + 1, least => .seq look fun _ => .bind (mirrors_parseOperand (mirrors_parseWithin count 0) _) fun _ _ =>
      mirrors_climb (mirrors_parseWithin count) _ least _

theorem mirrors_parse : Mirrors Expr.Numbers Expr.parse Expr.parse := .seq left fun _ => mirrors_parseWithin _ _

end Expr

end QiIdl
