import QiIdl.Proofs.Ast.Every
import QiIdl.Proofs.Grammar.Carries
import QiIdl.Proofs.Token.Order

/-!
# Trees lie on the tokens they are read from

Reader by reader, in the order of the grammar. A node is opened with the token it starts with, the readers of its parts
lay their trees one behind the other, and the node is closed with the token read last. Brackets that only group
an expression leave no node, so an expression lies somewhere on the tokens that were read for it, not on all of them.
-/

namespace QiIdl

open Lays

/-! ## Types -/

theorem TypeExpr.heads_ofName (m : Mark) (name : String) : Carries.Heads (.type (ofName m name)) m [] := by
  unfold ofName
  split <;> exact ⟨rfl, rfl, rfl⟩

theorem TypeExpr.lays_parseWithin : ∀ count, Lays (TypeExpr.parseWithin count) fun t => [t.tree]
  | 0 => fun _ => .expected _
  | count + 1 => by
    have ih := TypeExpr.lays_parseWithin count
    refine fun _ => .bind .look fun t => .bind .kind fun k => ?_
    split
    · refine .opened rfl fun _ => .skip (accept _) fun _ => ?_
      split
      · exact .next ih fun element => .close fun _ => ⟨rfl, rfl, rfl⟩
      · exact .next ih fun key => .skip (expect _ _) fun _ => .next ih fun value => .close fun _ => ⟨rfl, rfl, rfl⟩
    · refine .opened rfl fun _ => .next (separatedUnless ih _ _) fun elements => .skip (expect _ _) fun _ =>
        .close fun _ => ⟨rfl, ?_, rfl⟩
      rw [Node.tree, tree, trees_eq_map, List.map_eq_flatMap]
      rfl
    · exact .looked (.bind (.dottedName _) fun name => .close (heads_ofName · name))
    · exact .expected _

theorem TypeExpr.lays_parse : Lays TypeExpr.parse fun t => [t.tree] :=
  fun kept => .bind .left fun _ => TypeExpr.lays_parseWithin _ kept

theorem TypeExpr.lays_parseIf (wanted : Bool) : Lays (TypeExpr.parseIf wanted) fun o => (o.map (·.tree)).toList := by
  refine .of_since fun _ => ?_
  unfold TypeExpr.parseIf
  split
  · exact .next TypeExpr.lays_parse fun t => .done rfl
  · exact .done rfl

theorem Param.lays_parse : Lays Param.parse fun p => [p.type.tree] := by
  refine .of_since fun _ => .skip get fun c => ?_
  split
  · split
    · exact .skip advance fun _ => .next TypeExpr.lays_parse fun t => .done rfl
    · exact .next TypeExpr.lays_parse fun t => .done rfl
  · exact .next TypeExpr.lays_parse fun t => .done rfl

theorem Param.lays_parseList : Lays Param.parseList Param.trees := by
  refine .of_since fun _ => .skip (expect _ _) fun _ => .skip (accept _) fun _ => ?_
  split
  · exact .done rfl
  · refine .skip left fun _ => .next (separated Param.lays_parse _) fun params => .skip (expect _ _) fun _ => .done ?_
    exact List.map_eq_flatMap

theorem lays_parseInherits : Lays parseInherits fun _ => [] := by
  refine .of_since fun _ => .skip (accept _) fun _ => ?_
  split
  · refine .skip left fun _ => .next (separatedUnless (dottedName _) _ _) fun names => .skip (expect _ _) fun _ =>
      .done ?_
    simp
  · exact .done rfl

/-! ## Literals -/

theorem Literal.lays_parseEntry {item : Reading Arena (Literal Mark)} (hitem : Lays item fun l => [l.tree]) :
    Lays (parseEntry item) fun e => [e.1.tree, e.2.tree] :=
  .of_since fun _ => .next hitem fun _ => .skip (expect _ _) fun _ => .next hitem fun _ => .done rfl

theorem Literal.lays_parseWithin : ∀ count, Lays (Literal.parseWithin count) fun l => [l.tree]
  | 0 => fun _ => .expected _
  | count + 1 => by
    have ih := Literal.lays_parseWithin count
    refine fun _ => .bind .look fun t => .bind .kind fun k => ?_
    split
    · exact .opened rfl fun _ => .close fun _ => ⟨rfl, rfl, rfl⟩
    · exact .opened rfl fun _ => .close fun _ => ⟨rfl, rfl, rfl⟩
    · exact .opened rfl fun _ => .close fun _ => ⟨rfl, rfl, rfl⟩
    · exact .opened rfl fun _ => .close fun _ => ⟨rfl, rfl, rfl⟩
    · exact .opened rfl fun _ => .close fun _ => ⟨rfl, rfl, rfl⟩
    · refine .opened rfl fun _ => .next (enclosed ih _ _) fun items => .skip (expect _ _) fun _ =>
        .close fun _ => ⟨rfl, ?_, rfl⟩
      rw [Node.tree, tree, trees_eq_map, List.map_eq_flatMap]
      rfl
    · refine .opened rfl fun _ => .next (enclosed ih _ _) fun items => .skip (expect _ _) fun _ =>
        .close fun _ => ⟨rfl, ?_, rfl⟩
      rw [Node.tree, tree, trees_eq_map, List.map_eq_flatMap]
      rfl
    · refine .opened rfl fun _ => .next (enclosed (lays_parseEntry ih) _ _) fun entries => .skip (expect _ _) fun _ =>
        .close fun _ => ⟨rfl, ?_, rfl⟩
      rw [Node.tree, tree, entryTrees_eq_flatMap]
      rfl
    · exact .expected _

theorem Literal.lays_parse : Lays Literal.parse fun l => [l.tree] :=
  fun kept => .bind .left fun _ => Literal.lays_parseWithin _ kept

/-! ## Expressions -/

namespace Expr

variable {kept : Arena} {expression : Reading Arena (Expr Mark)}

/-- An expression that is a literal lies where the literal does. -/
theorem carries_wrap (l : Literal Mark) : Carries (Laying kept [l.tree]) (wrap l) fun e => Laying kept [e.tree] := by
  refine .enter ?_
  rintro _ c ⟨⟨gap, seg, rest, rfl, hl, -⟩, hgrows⟩ m hid hspan
  have hlabel : l.tree.label = .literal l := Node.label_tree (.literal l)
  have hcovers : m.span.Covers seg := by
    rw [hspan, show Keeping.span Arena l.tag = l.tree.label.tag.span by rw [hlabel]; rfl]
    exact hl.covers
  refine ⟨⟨gap, seg, rest, rfl, ⟨hcovers, hl.all⟩, Tree.liesAll_nil⟩, hgrows.push hid rfl ?_⟩
  rintro _ _ ⟨⟩
  exact hspan

theorem carries_tupleElement {start : Option Span} (e : Expr Mark) :
    Carries (Since kept start [e.tree]) (tupleElement e) fun l => Since kept start [l.tree] := by
  cases e with
  | literal t l => exact .pure fun _ _ h => ⟨h.1, h.2.unwrap⟩
  | _ => exact .failAt _ _

theorem lays_parseElement (he : Lays expression fun e => [e.tree]) : Lays (parseElement expression) fun l => [l.tree] :=
  .of_since fun _ => .next he fun e => carries_tupleElement e

theorem lays_parseBracketed (he : Lays expression fun e => [e.tree]) (count : Nat) :
    Lays (parseBracketed expression count) fun e => [e.tree] := by
  refine fun _ => .opening rfl fun t => .skip (accept _) fun _ => ?_
  split
  · exact .bind (.close fun _ => ⟨rfl, rfl, rfl⟩) fun l => carries_wrap l
  · refine .next he fun e => .skip (accept _) fun _ => ?_
    split
    · exact .finish rfl
    · refine .skip (expect _ _) fun _ => .bind (carries_tupleElement e) fun first =>
        .next (enclosed (lays_parseElement he) _ _) fun others => .skip (expect _ _) fun _ =>
        .bind (.close fun _ => ⟨rfl, ?_, rfl⟩) fun l => carries_wrap l
      rw [Node.tree, Literal.tree, Literal.trees_eq_map, List.map_eq_flatMap]
      rfl

theorem lays_parseNamed (he : Lays expression fun e => [e.tree]) (count : Nat) :
    Lays (parseNamed expression count) fun e => [e.tree] := by
  refine fun _ => .bind .look fun t => .bind (.dottedName _) fun name => .skip (accept _) fun _ => ?_
  split
  · refine .next (separatedUnless he _ _) fun args => .skip (expect _ _) fun _ => .close fun _ => ⟨rfl, ?_, rfl⟩
    rw [Node.tree, tree, trees_eq_map, List.map_eq_flatMap]
    rfl
  · exact .close fun _ => ⟨rfl, rfl, rfl⟩

theorem lays_parsePrimary (he : Lays expression fun e => [e.tree]) (count : Nat) :
    Lays (parsePrimary expression count) fun e => [e.tree] := by
  refine fun kept => .bind .kind fun k => .weaken ?_ fun _ _ h => h.1
  split
  · exact lays_parseBracketed he count kept
  · exact lays_parseNamed he count kept
  · exact .bind (Literal.lays_parse kept) fun l => carries_wrap l

/-- Behind an expression, indices make it longer. -/
theorem carries_parseIndices (he : Lays expression fun e => [e.tree]) (start : Span) : ∀ (count : Nat) (e : Expr Mark),
    Carries (Since kept (some start) [e.tree]) (parseIndices expression start count e) fun e =>
      Since kept (some start) [e.tree]
  | 0, _ => .done rfl
  | count + 1, e => by
    refine .skip (accept _) fun _ => ?_
    split
    · exact .next he fun index => .skip (expect _ _) fun _ =>
        .bind (.closing fun _ => ⟨rfl, rfl, rfl⟩) fun _ => carries_parseIndices he start count _
    · exact .done rfl

theorem lays_parseOperand (he : Lays expression fun e => [e.tree]) :
    ∀ count, Lays (parseOperand expression count) fun e => [e.tree]
  | 0 => fun _ => .expected _
  | count + 1 => by
    intro kept
    have hplain (t : Token) : Carries (Next kept t) (do
        let e ← parsePrimary expression (count + 1)
        parseIndices expression t.span (count + 1) e) fun e => Laying kept [e.tree] :=
      .bind ((lays_parsePrimary he _).first fun _ => List.cons_ne_nil _ _) fun e =>
        (carries_parseIndices he _ _ e).conseq (fun _ _ h => h) fun _ _ _ h => h.2
    refine .bind .look fun t => .bind .kind fun k => ?_
    split
    · split
      · exact .opened rfl fun _ => .next (lays_parseOperand he count) fun operand => .close fun _ => ⟨rfl, rfl, rfl⟩
      · exact .looked (hplain t)
    · exact .looked (hplain t)

/-- Behind a left operand, operators make it longer. -/
theorem carries_climb {operand : Nat → Reading Arena (Expr Mark)} (ho : ∀ least, Lays (operand least) fun e => [e.tree])
    (start : Span) (least : Nat) : ∀ (count : Nat) (left : Expr Mark),
    Carries (Since kept (some start) [left.tree]) (climb operand start least count left) fun e =>
      Since kept (some start) [e.tree]
  | 0, _ => .done rfl
  | count + 1, left => by
    refine .skip kind fun k => ?_
    split
    · split
      · exact .skip advance fun _ => .next (ho _) fun right =>
          .bind (.closing fun _ => ⟨rfl, rfl, rfl⟩) fun _ => carries_climb ho start least count _
      · exact .done rfl
    · exact .done rfl

theorem lays_parseWithin : ∀ (count least : Nat), Lays (parseWithin count least) fun e => [e.tree]
  | 0, _ => fun _ => .expected _
  | count + 1, least => by
    refine fun _ => .bind .look fun t =>
      .bind ((lays_parseOperand (lays_parseWithin count 0) _).first fun _ => List.cons_ne_nil _ _) fun left => ?_
    exact (carries_climb (lays_parseWithin count) _ least _ left).conseq (fun _ _ h => h) fun _ _ _ h => h.2

theorem lays_parse : Lays Expr.parse fun e => [e.tree] := fun kept => .bind .left fun _ => lays_parseWithin _ _ kept

end Expr

theorem Value.lays_parse : Lays Value.parse fun v => [v.tree] := by
  refine fun kept => .bind (Expr.lays_parse kept) fun e => .pure fun _ _ h => ?_
  cases e with
  | literal t l => exact h.unwrap
  | _ => exact h

theorem Value.lays_parseInitial : Lays Value.parseInitial fun o => (o.map (·.tree)).toList := by
  refine .of_since fun _ => .skip (accept _) fun _ => ?_
  split
  · exact .next Value.lays_parse fun v => .done rfl
  · exact .done rfl

/-! ## Blocks -/

section Blocks

variable {β γ : Type} {kept : Arena} {V : β → List (Tree (Node Mark))} {trees : List (Tree (Node Mark))}

/-- Some trees lie on what has been read, in front of a last token at `stop` and the end of its line, and the arena has
grown by them. -/
def Enclosed (kept : Arena) (trees : List (Tree (Node Mark))) (stop : Span) (read : List Token) (c : Cursor Arena) :
    Prop :=
  (∃ body last tail, read = body ++ last :: tail ∧ Tree.LiesAll (·.tag.span) trees body ∧ last.span = stop ∧
    ∀ t ∈ tail, t.kind = .newline) ∧ Grows kept trees c.kept

theorem carries_parseBlock (name : String) {item : Option String → Reading Arena β}
    (hitem : ∀ doc, Lays (item doc) V) : ∀ count (kept : Arena),
    Carries (Fresh kept) (parseBlock name item count) fun r => Enclosed kept (r.1.flatMap V) r.2
  | 0, _ => .bind .look fun _ => .failAt _ _
  | count + 1, kept => by
    refine .bind (.layout kept true none) fun doc => .bind .kind fun k => ?_
    split
    · -- the last token, and the end of its line
      refine .bind (.advance ?_) fun last => .bind (.after fun _ => .lineEnd) fun _ => .pure ?_
      · rintro _ c ⟨-, hkind⟩
        rw [hkind]
        nofun
      · rintro _ _ ⟨_, tail, c, rfl, ⟨body, c₀, ⟨⟨-, rfl⟩, -⟩, -, rfl, hkept⟩, htail, hkept'⟩
        refine ⟨⟨body, last, tail, by simp, Tree.liesAll_nil, rfl, htail⟩, ?_⟩
        rw [hkept', hkept]
        exact .refl _
    · exact .bind .look fun _ => .failAt _ _
    · refine .bind (.after fun kept => .recover (hitem doc kept)) fun first =>
        .bind (.after (carries_parseBlock name hitem count)) fun r => .pure ?_
      rintro _ c ⟨_, _, c₂, rfl, ⟨gap, new, c₁, rfl, ⟨⟨-, rfl⟩, -⟩, b, rfl, hb⟩,
        ⟨body, last, tail, rfl, hbody, hstop, htail⟩, hgrows⟩
      rw [Option.toList_some, List.singleton_append, List.flatMap_cons]
      refine ⟨⟨gap ++ new ++ body, last, tail, by simp, ?_, hstop, htail⟩, hb.2.trans hgrows⟩
      exact (hb.1.behind gap).append hbody

/-- Makes a node of the trees there are and of a block. -/
theorem Carries.block {head : Span} {name : String} {item : Option String → Reading Arena β}
    {build : List β × Span → Mark → γ} {node : γ → Node Mark} (hitem : ∀ doc, Lays (item doc) V)
    (hn : ∀ r m, Heads (node (build r m)) m (trees ++ r.1.flatMap V)) :
    Carries (Since kept (some head) trees)
      (parseBody name item >>= fun r => Parse.enter (head.merge r.2) (build r) node) fun d read c =>
        (node d).tree.Lined read ∧ Grows kept [(node d).tree] c.kept := by
  have hbody (kept : Arena) : Carries (Fresh kept) (parseBody name item) fun r => Enclosed kept (r.1.flatMap V) r.2 :=
    .bind .left fun _ => carries_parseBlock name hitem _ kept
  refine .bind (.after hbody) fun r => .enter ?_
  rintro _ c ⟨old, _, c₀, rfl, ⟨hopens, hold⟩, ⟨body, last, tail, rfl, hbody, hstop, htail⟩, hgrows⟩ m hid hspan
  have hcovers : m.span.Covers (old ++ (body ++ [last])) := by
    refine ⟨head, (hopens head rfl).append _, last, ?_, by rw [hspan, hstop]⟩
    rw [← List.append_assoc, List.getLast?_concat]
  have hlaying : Laying kept (trees ++ r.1.flatMap V) (old ++ (body ++ [last])) c :=
    ⟨hold.1.append (hbody.before [last]), hold.2.trans hgrows⟩
  obtain ⟨hlies, hgrows⟩ := (hn r m).laying hlaying hid hcovers
  exact ⟨⟨old ++ (body ++ [last]), tail, by simp, hlies, htail⟩, hgrows⟩

theorem laysLine_parseHeir {keyword : Keyword} {item : Option String → Reading Arena β}
    {build : Mark → String → List String → List β → γ} {node : γ → Node Mark} (hitem : ∀ doc, Lays (item doc) V)
    (hn : ∀ name inherits items m, Carries.Heads (node (build m name inherits items)) m (items.flatMap V)) :
    LaysLine (parseHeir keyword item build node) fun d => (node d).tree :=
  fun _ => .opening rfl fun _ => .skip (Lays.name _) fun name => .skip lays_parseInherits fun inherits =>
    .skip lineEnd fun _ => .block hitem fun r => hn name inherits r.1

end Blocks

/-! ## Interfaces -/

theorem Fn.laysLine_parse (doc : Option String) : LaysLine (Fn.parse doc) fun d => d.tree :=
  fun _ => .opening rfl fun _ => .skip (Lays.name _) fun _ => .next Param.lays_parseList fun _ =>
    .skip (accept _) fun _ => .skip kind fun _ => .next (TypeExpr.lays_parseIf _) fun _ => .line fun _ => ⟨rfl, rfl, rfl⟩

theorem Channel.laysLine_parse (keyword : Keyword) {node : Channel Mark → Node Mark} (doc : Option String)
    (hn : ∀ name params m, Carries.Heads (node ⟨m, name, params, doc⟩) m (Param.trees params)) :
    LaysLine (Channel.parse keyword node doc) fun d => (node d).tree :=
  fun _ => .opening rfl fun _ => .skip (Lays.name _) fun name => .next Param.lays_parseList fun params =>
    .line (hn name params)

theorem Member.laysLine_parse (doc : Option String) : LaysLine (Member.parse doc) fun m => m.tree := by
  refine fun kept => .bind .kind fun k => .weaken ?_ fun _ _ h => h.1
  split
  · exact .bind (Fn.laysLine_parse doc kept) fun d => .pure fun _ _ h => h
  · exact .bind (Channel.laysLine_parse .emit doc (fun _ _ _ => ⟨rfl, rfl, rfl⟩) kept) fun d => .pure fun _ _ h => h
  · exact .bind (Channel.laysLine_parse .prop doc (fun _ _ _ => ⟨rfl, rfl, rfl⟩) kept) fun d => .pure fun _ _ h => h
  · exact .expected _

theorem Interface.laysLine_parse (doc : Option String) :
    LaysLine (Interface.parse doc) fun d => (Node.interface d).tree := by
  refine laysLine_parseHeir (fun doc => .of_line (Member.laysLine_parse doc)) fun _ _ members _ => ⟨rfl, ?_, rfl⟩
  rw [← List.map_eq_flatMap]
  rfl

/-! ## Structs and enumerations -/

theorem Field.laysLine_parse : LaysLine Field.parse fun d => d.tree :=
  fun _ => .bind .look fun _ => .bind (.name _) fun _ => .next TypeExpr.lays_parse fun _ =>
    .next Value.lays_parseInitial fun _ => .line fun _ => ⟨rfl, rfl, rfl⟩

theorem Struct.laysLine_parse (doc : Option String) : LaysLine (Struct.parse doc) fun d => (Node.struct d).tree := by
  refine laysLine_parseHeir (fun _ => .of_line Field.laysLine_parse) fun _ _ fields _ => ⟨rfl, ?_, rfl⟩
  rw [← List.map_eq_flatMap]
  rfl

/-- The tree of what an entry of an enumeration stands for. -/
def EnumMeaning.tree {α : Type} : EnumMeaning α → Tree (Node α)
  | .const v => v.tree
  | .type t => t.tree

theorem EnumItem.carries_parseMeaning {kept : Arena} {t : Token} :
    Carries (Next kept t) EnumItem.parseMeaning fun r => Since kept (some t.span) [r.2.tree] := by
  refine .acceptNext rfl ?_ (.acceptNext rfl ?_ (.expected _))
  · exact .skip (Lays.name _) fun name => .skip (expect _ _) fun _ => .next Value.lays_parse fun v => .done rfl
  · exact .next TypeExpr.lays_parse fun t => .skip (Lays.name _) fun name => .done rfl

theorem EnumItem.laysLine_parse : LaysLine EnumItem.parse fun d => d.tree := by
  refine fun _ => .bind .look fun _ => .bind EnumItem.carries_parseMeaning fun r => .line fun _ => ⟨rfl, ?_, rfl⟩
  obtain ⟨name, meaning⟩ := r
  cases meaning <;> rfl

theorem Enum.laysLine_parse (doc : Option String) : LaysLine (Enum.parse doc) fun d => (Node.enum d).tree := by
  refine fun _ => .opening rfl fun t => .skip (Lays.name _) fun name => .skip lineEnd fun _ =>
    .block (fun _ => .of_line EnumItem.laysLine_parse) fun r _ => ⟨rfl, ?_, rfl⟩
  rw [← List.map_eq_flatMap]
  rfl

/-! ## Constants, type names and variables -/

theorem Const.laysLine_parse : LaysLine Const.parse fun d => (Node.const d).tree :=
  fun _ => .opening rfl fun _ => .skip (Lays.name _) fun _ => .skip kind fun _ =>
    .next (TypeExpr.lays_parseIf _) fun _ => .skip (expect _ _) fun _ => .next Value.lays_parse fun _ => .line fun _ => ⟨rfl, rfl, rfl⟩

theorem Typedef.laysLine_parse : LaysLine Typedef.parse fun d => (Node.typedef d).tree :=
  fun _ => .opening rfl fun _ => .next TypeExpr.lays_parse fun _ => .skip (Lays.name _) fun _ => .line fun _ => ⟨rfl, rfl, rfl⟩

theorem Var.laysLine_parse : LaysLine Var.parse fun d => (Node.var d).tree :=
  fun _ => .opening rfl fun _ => .skip (Lays.name _) fun _ => .skip kind fun _ =>
    .next (TypeExpr.lays_parseIf _) fun _ => .next Value.lays_parseInitial fun _ => .line fun _ => ⟨rfl, rfl, rfl⟩

/-! ## Packages -/

theorem laysLine_parsePackage : LaysLine parsePackage Node.tree :=
  fun _ => .opening rfl fun _ => .skip (Lays.dottedName _) fun _ => .line fun _ => ⟨rfl, rfl, rfl⟩

theorem ImportScope.lays_parse : Lays ImportScope.parse fun _ => [] := by
  refine .of_since fun _ => .skip (accept _) fun _ => ?_
  split
  · exact .done rfl
  · refine .skip (Lays.name _) fun first => .skip (accept _) fun _ => ?_
    split
    · refine .skip left fun _ => .next (separated (Lays.name _) _) fun others => .done ?_
      simp
    · exact .done rfl

theorem Import.laysLine_parse : LaysLine Import.parse fun d => (Node.imports d).tree := by
  refine fun kept => .bind .look fun t => .acceptNext rfl ?_ ?_
  · exact .skip (Lays.dottedName _) fun package => .line fun _ => ⟨rfl, rfl, rfl⟩
  · exact .bind (.expectNext rfl _) fun _ => .skip (Lays.dottedName _) fun package => .skip (expect _ _) fun _ =>
      .skip ImportScope.lays_parse fun scope => .line fun _ => ⟨rfl, rfl, rfl⟩

/-! ## Objects -/

namespace ObjectItem

theorem laysLine_parseProperty : LaysLine parseProperty fun o => o.tree :=
  fun _ => .opening rfl fun _ => .skip (Lays.name _) fun _ => .next Value.lays_parse fun _ => .line fun _ => ⟨rfl, rfl, rfl⟩

theorem laysLine_parseConnect : LaysLine parseConnect fun o => o.tree :=
  fun _ => .opening rfl fun _ => .next Value.lays_parse fun _ => .next Value.lays_parse fun _ => .line fun _ => ⟨rfl, rfl, rfl⟩

theorem laysLine_parseObject {item : Reading Arena (ObjectItem Mark)} (hitem : Lays item fun o => [o.tree]) :
    LaysLine (parseObject item) fun o => o.tree := by
  refine fun _ => .opening rfl fun t => .next TypeExpr.lays_parse fun type => .bind .kind fun k => ?_
  split
  · rename_i name
    refine .leaf (fun l => .node (.literal (.string l.tag name)) []) rfl (fun _ => ⟨rfl, rfl, rfl⟩) (fun _ => rfl) fun label =>
      .skip lineEnd fun _ => .block (fun _ => hitem) fun r _ => ⟨rfl, ?_, rfl⟩
    rw [Node.tree, tree, trees_eq_map, List.map_eq_flatMap]
    rfl
  · exact .expected _

theorem lays_parseWithin : ∀ count, Lays (parseWithin count) fun o => [o.tree]
  | 0 => fun _ => .expected _
  | count + 1 => by
    refine fun kept => .bind .kind fun k => .weaken ?_ fun _ _ h => h.1
    split
    · exact of_line laysLine_parseProperty kept
    · exact of_line laysLine_parseConnect kept
    · exact of_line (laysLine_parseObject (lays_parseWithin count)) kept
    · exact .expected _

theorem laysLine_parse : LaysLine ObjectItem.parse fun o => o.tree :=
  fun kept => .bind .left fun _ => laysLine_parseObject (lays_parseWithin _) kept

end ObjectItem

/-! ## Files -/

namespace Node

/-- What holds of interfaces as they are read and of anything else that lies on its line holds of every item. -/
theorem carries_parseItem_of {kept : Arena} {B : Node Mark → List Token → Cursor Arena → Prop} (doc : Option String)
    (hinterface : Carries (Fresh kept) (Interface.parse doc) fun d => B (.interface d))
    (hother : ∀ n read c, (n.sort == .interface) = false → n.tree.Lined read ∧ Grows kept [n.tree] c.kept → B n read c) :
    Carries (Fresh kept) (parseItem doc) B := by
  have hpackage : Gives (parsePackage : Reading Arena (Node Mark)) fun n => (n.sort == .interface) = false :=
    .later fun _ => .later fun _ => .later fun _ => .later fun _ => .enter fun _ => rfl
  have hobject (o : ObjectItem Mark) : ((Node.object o).sort == .interface) = false := by
    cases o <;> rfl
  refine .bind .look fun t => .weaken ?_ fun _ _ h => h.1
  split
  · exact ((laysLine_parsePackage kept).gives hpackage).conseq (fun _ _ h => h)
      fun n read c h => hother n read c h.1 h.2
  · exact .bind (Import.laysLine_parse kept) fun d => .pure fun _ _ h => hother _ _ _ rfl h
  · exact .bind (Import.laysLine_parse kept) fun d => .pure fun _ _ h => hother _ _ _ rfl h
  · exact .bind hinterface fun d => .pure fun _ _ h => h
  · exact .bind (Struct.laysLine_parse doc kept) fun d => .pure fun _ _ h => hother _ _ _ rfl h
  · exact .bind (Enum.laysLine_parse doc kept) fun d => .pure fun _ _ h => hother _ _ _ rfl h
  · exact .bind (Const.laysLine_parse kept) fun d => .pure fun _ _ h => hother _ _ _ rfl h
  · exact .bind (Typedef.laysLine_parse kept) fun d => .pure fun _ _ h => hother _ _ _ rfl h
  · exact .bind (Fn.laysLine_parse doc kept) fun d => .pure fun _ _ h => hother _ _ _ rfl h
  · exact .bind (ObjectItem.laysLine_parse kept) fun d => .pure fun _ _ h => hother _ _ _ (hobject d) h
  · exact .bind (Var.laysLine_parse kept) fun d => .pure fun _ _ h => hother _ _ _ rfl h
  · exact .failAt _ _
  · exact .failAt _ _
  · exact .expected _

theorem laysLine_parseItem (doc : Option String) : LaysLine (parseItem doc) Node.tree :=
  fun kept => carries_parseItem_of doc (Interface.laysLine_parse doc kept) fun _ _ _ _ h => h

theorem carries_parseComment {kept : Arena} (text : String) :
    Carries (fun read c => Fresh kept read c ∧ c.peek.kind = .comment text) (parseComment text) fun n read c =>
      n.tree.Lined read ∧ Grows kept [n.tree] c.kept := by
  refine .bind (.advance ?_) fun t => (Carries.ended fun _ => ⟨rfl, rfl, rfl⟩).weaken ?_
  · rintro _ c ⟨-, hkind⟩
    rw [hkind]
    nofun
  · rintro _ c ⟨_, _, ⟨⟨rfl, rfl⟩, hkind⟩, rfl, rfl, hkept⟩
    exact ⟨⟨Tree.liesAll_nil, hkept ▸ .refl _⟩, Span.covers_singleton (by rw [hkind]; rfl)⟩

/-- Trees are filed on what has been read, and the arena has grown by them. -/
def Filing (kept : Arena) (ns : List (Node Mark)) (read : List Token) (c : Cursor Arena) : Prop :=
  Tree.Filed (·.tag.span) (ns.map Node.tree) read ∧ Grows kept (ns.map Node.tree) c.kept

/-- An item and the end of its line, behind layout. -/
theorem carries_recover {kept : Arena} {G : Cursor Arena → Prop} {item : Reading Arena (Node Mark)}
    (hitem : ∀ kept, Carries (fun read c => Fresh kept read c ∧ G c) item fun n read c =>
      n.tree.Lined read ∧ Grows kept [n.tree] c.kept) :
    Carries (fun read c => ((∀ t ∈ read, t.kind.isLayout = true) ∧ c.kept = kept) ∧ G c) (Parse.recover item)
      fun o read c => Filing kept o.toList read c ∧ read ≠ [] := by
  refine (Carries.afterWhere (fun kept => .recover (hitem kept)) fun _ _ h => h.2).conseq (fun _ _ h => h) ?_
  rintro _ _ _ ⟨gap, _, c₀, rfl, ⟨⟨hgap, rfl⟩, -⟩, n, rfl, ⟨seg, tail, rfl, hseg, htail⟩, hgrows⟩
  refine ⟨⟨?_, hgrows⟩, ?_⟩
  · refine Tree.Filed.behind (hseg.filed fun t ht => ?_) hgap
    rw [htail t ht]
    rfl
  · obtain ⟨u, hu, -⟩ := hseg.solid
    exact List.ne_nil_of_mem (List.mem_append_right _ (List.mem_append_left _ hu))

/-- With a count that is greater than the number of tokens left, a file is read to its end, and its trees are filed. -/
theorem carries_parseItems : ∀ (count : Nat) (doc : Option String) (kept : Arena),
    Carries (fun read c => Fresh kept read c ∧ c.rest.length < count) (parseItems count doc) fun ns read c =>
      Filing kept ns read c ∧ c.peek.kind = .eof
  | 0, _, _ => .pure fun _ _ h => absurd h.2 (Nat.not_lt_zero _)
  | count + 1, doc, kept => by
    have hitems {G : Cursor Arena → Prop} {item : Reading Arena (Node Mark)} (doc : Option String)
        (hitem : ∀ kept, Carries (fun read c => Fresh kept read c ∧ G c) item fun n read c =>
          n.tree.Lined read ∧ Grows kept [n.tree] c.kept) :
        Carries (fun read c => (((∀ t ∈ read, t.kind.isLayout = true) ∧ c.kept = kept) ∧ G c) ∧
            read.length + c.rest.length < count + 1)
          (do
            let first ← Parse.recover item
            let others ← parseItems count doc
            Pure.pure (first.toList ++ others))
          fun ns read c => Filing kept ns read c ∧ c.peek.kind = .eof := by
      refine .bind ((carries_recover hitem).measured _) fun first =>
        .bind (.afterWhere (carries_parseItems count doc) ?_) fun others => .pure ?_
      · rintro read c ⟨⟨-, hne⟩, hcount⟩
        have hpos := List.length_pos_iff.mpr hne
        omega
      · rintro _ c ⟨old, new, c₀, rfl, ⟨⟨hold, -⟩, -⟩, hnew, hkind⟩
        refine ⟨?_, hkind⟩
        rw [Filing, List.map_append]
        exact ⟨hold.1.append hnew.1, hold.2.trans hnew.2⟩
    refine .bind (((Carries.layout kept false doc).measured (count + 1)).weaken ?_) fun doc => .bind .kind fun k => ?_
    · rintro _ c ⟨⟨rfl, rfl⟩, hcount⟩
      exact ⟨⟨rfl, rfl⟩, by simpa using hcount⟩
    · have hlayout {read : List Token} (h : ∀ t ∈ read, t.kind.isLayout = true ∨
          (false = true ∧ ∃ text, t.kind = .comment text)) : ∀ t ∈ read, t.kind.isLayout = true :=
        fun t ht => (h t ht).resolve_right fun hcomment => nomatch hcomment.1
      split
      · refine .pure ?_
        rintro read c ⟨⟨⟨⟨hread, -⟩, rfl⟩, -⟩, hkind⟩
        exact ⟨⟨hlayout hread, .refl _⟩, hkind⟩
      · refine (hitems doc fun _ => carries_parseComment _).weaken ?_
        rintro read c ⟨⟨⟨⟨hread, -⟩, hkept⟩, hcount⟩, hkind⟩
        exact ⟨⟨⟨hlayout hread, hkept⟩, hkind⟩, hcount⟩
      · refine (hitems (G := fun _ => True) none fun kept =>
          (laysLine_parseItem doc kept).weaken fun _ _ h => h.1).weaken ?_
        rintro read c ⟨⟨⟨⟨hread, -⟩, hkept⟩, hcount⟩, -⟩
        exact ⟨⟨⟨hlayout hread, hkept⟩, trivial⟩, hcount⟩

end Node

section Tokens

variable {toks : List Token} {roots : List (Node Mark)} {nodes : Arena}

/-- Tokens are read as trees if they are read without a fault. -/
theorem parseTokens_eq_ok (h : parseTokens #[] toks = .ok (roots, nodes)) :
    ∃ c, Node.parseItems (toks.length + 1) none ⟨toks, .point 0, [], #[]⟩ = .ok roots c ∧ c.faults = [] ∧
      c.kept = nodes := by
  unfold parseTokens at h
  split at h
  · rename_i c hok
    split at h
    · rename_i hfaults
      cases h
      exact ⟨c, hok, List.isEmpty_iff.mp hfaults, rfl⟩
    · cases h
  · cases h

/-- The trees that the tokens of a file are read as are filed on them, and laid out in the arena. -/
theorem parseTokens_filed (hordered : Ordered toks) (h : parseTokens #[] toks = .ok (roots, nodes)) :
    Tree.Filed (·.tag.span) (roots.map Node.tree) toks ∧ Laid nodes (roots.map Node.tree) := by
  obtain ⟨c, hok, hfaults, rfl⟩ := parseTokens_eq_ok h
  obtain ⟨read, hmoves, ⟨hfiled, hgrows⟩, hkind⟩ := (Node.carries_parseItems _ none #[]).run hok
    (congrArg List.length hfaults) (.nil _) ⟨⟨rfl, rfl⟩, Nat.lt_succ_self _⟩
  refine ⟨?_, hgrows [] .nil⟩
  -- what is left is the end of the file, if anything
  have hleft : Tree.Filed (fun n : Node Mark => n.tag.span) [] c.rest := by
    have hrest : toks = read ++ c.rest := hmoves.rest
    rw [Cursor.peek] at hkind
    cases hc : c.rest with
    | nil => exact List.forall_mem_nil _
    | cons t rest =>
      rw [hc] at hrest hkind
      have heof : t.kind = .eof := hkind
      rw [hrest] at hordered
      rw [hordered.eq_nil_of_eof heof]
      refine List.forall_mem_singleton.mpr ?_
      rw [heof]
      rfl
  have happend := hfiled.append hleft
  rwa [List.append_nil, List.nil_append, ← hmoves.rest] at happend

end Tokens

theorem parseSource_eq_ok {source file : String} {ast : Ast} (h : parseSource source file = .ok ast) :
    ∃ toks, lex source = .ok toks ∧ parseTokens #[] toks = .ok (ast.roots, ast.nodes) ∧ ast.file = file ∧
      ast.lines = LineIndex.ofText source.toList := by
  unfold parseSource at h
  cases hlex : lex source with
  | error faults =>
    rw [hlex] at h
    cases h
  | ok toks =>
    cases htrees : parseTokens (#[] : Arena) toks with
    | error faults =>
      simp only [hlex, htrees, bind, Except.bind] at h
      cases h
    | ok trees =>
      simp only [hlex, htrees, bind, Except.bind] at h
      cases h
      exact ⟨toks, rfl, htrees, rfl, rfl⟩

theorem laid_of_parseSource {source file : String} {ast : Ast} (h : parseSource source file = .ok ast) :
    Laid ast.nodes ast.trees := by
  obtain ⟨toks, hlex, htrees, -, -⟩ := parseSource_eq_ok h
  exact (parseTokens_filed (ordered_of_lex hlex) htrees).2

end QiIdl
