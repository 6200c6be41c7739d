import QiIdl.Proofs.Format.Kinds
import QiIdl.Proofs.Format.Sexp

/-!
# Dumps as nested lists

The words in the nested lists of the syntax are names, numbers, operators and the heads of lists. In sound syntax none
of them can be taken for anything else (`Sexp.Plain`), so the dump of a file is cut into the pieces of the nested lists
of its nodes (`Ast.scan_dump`).
-/

namespace QiIdl

open Piece Sexp

variable {α : Type}

/-! ## Words -/

/-- No character that ends a word is of a kind that none of the five has. -/
theorem Piece.isDelimiter_of {p : Char → Bool} (hp : ['(', ')', ' ', '\n', '"'].any p = false) {c : Char}
    (h : p c = true) : isDelimiter c = false := by
  have hmem : c ∉ ['(', ')', ' ', '\n', '"'] := fun hmem => List.any_eq_false.mp hp c hmem h
  simpa [isDelimiter, and_assoc] using hmem

theorem IsName.ne_nil {name : String} (h : IsName name) : name.toList ≠ [] := by
  obtain ⟨c, cs, hlist, -⟩ := h.word
  rw [hlist]
  exact List.cons_ne_nil _ _

theorem IsName.isWord {name : String} (h : IsName name) : IsWord name.toList :=
  ⟨h.ne_nil, fun c hc => isDelimiter_of (p := Text.isWordPart) (by decide) (h.isWordPart c hc)⟩

theorem IsDotted.isWord {name : String} (h : IsDotted name) : IsWord name.toList := by
  have hsegment : ∀ p ∈ Text.pieces '.' name.toList, IsName (String.ofList p) := fun p hp =>
    h _ (List.mem_map_of_mem hp)
  constructor
  · intro hnil
    rw [hnil] at hsegment
    exact (hsegment [] (List.mem_singleton_self _)).ne_nil rfl
  · refine Text.forall_of_pieces (show isDelimiter '.' = false from rfl) fun p hp c hc => ?_
    have hword := (hsegment p hp).isWord.2
    rw [String.toList_ofList] at hword
    exact hword c hc

/-- The characters of numbers. -/
def Piece.isNumeral (c : Char) : Bool := c.isDigit || c == '.' || c == 'e' || c == '-'

theorem Lexeme.Digits.isNumeral {cs : List Char} (h : Digits cs) : ∀ c ∈ cs, isNumeral c = true := by
  intro c hc
  rw [Piece.isNumeral, h c hc]
  rfl

theorem isWord_toString (n : Nat) : IsWord (toString n).toList := by
  rw [Nat.toString_eq_ofList_toDigits, String.toList_ofList]
  exact ⟨List.length_pos_iff.mp Nat.length_toDigits_pos,
    fun c hc => isDelimiter_of (p := isNumeral) (by decide) ((Lexeme.digits_toDigits n).isNumeral c hc)⟩

namespace Binary64

theorem Decimal.isNumeral_positional (d : Decimal) : ∀ c ∈ d.positional, isNumeral c = true := by
  have hdigits := (Lexeme.digits_toDigits d.coefficient).isNumeral
  have hzeros (n : Nat) := (Lexeme.digits_zeros n).isNumeral
  unfold positional
  dsimp only
  split
  · simp only [List.forall_mem_append, List.forall_mem_cons]
    exact ⟨⟨hdigits, hzeros _⟩, rfl, rfl, List.forall_mem_nil _⟩
  · split
    · simp only [List.forall_mem_append, List.forall_mem_cons]
      exact ⟨fun c hc => hdigits c (List.mem_of_mem_take hc), rfl, fun c hc => hdigits c (List.mem_of_mem_drop hc)⟩
    · simp only [List.forall_mem_append, List.forall_mem_cons]
      exact ⟨rfl, rfl, hzeros _, hdigits⟩

theorem isNumeral_signed (n : Int) : ∀ c ∈ signed n, isNumeral c = true := by
  have hdigits := (Lexeme.digits_toDigits n.natAbs).isNumeral
  unfold signed
  split
  · exact List.forall_mem_cons.mpr ⟨rfl, hdigits⟩
  · exact hdigits

theorem Decimal.isNumeral_scientific (d : Decimal) : ∀ c ∈ d.scientific, isNumeral c = true := by
  have hdigits := (Lexeme.digits_toDigits d.coefficient).isNumeral
  unfold scientific
  dsimp only
  rw [List.forall_mem_append, List.forall_mem_cons]
  refine ⟨?_, rfl, isNumeral_signed _⟩
  split
  · exact hdigits
  · simp only [List.forall_mem_append, List.forall_mem_cons]
    exact ⟨fun c hc => hdigits c (List.mem_of_mem_take hc), rfl, fun c hc => hdigits c (List.mem_of_mem_drop hc)⟩

/-- A finite double is written in digits, with a point, a sign and a mark before the exponent. -/
theorem isNumeral_text {x : Binary64} (h : x.isInfinite = false) : ∀ c ∈ x.text.toList, isNumeral c = true := by
  unfold text
  rw [if_neg (by rw [h]; nofun)]
  split
  · exact List.all_eq_true.mp (by decide)
  · rw [String.toList_ofList, Decimal.text]
    split
    · exact Decimal.isNumeral_positional _
    · exact Decimal.isNumeral_scientific _

theorem isWord_text (x : Binary64) : IsWord x.text.toList := by
  cases h : x.isInfinite with
  | true =>
    rw [text, if_pos h]
    decide
  | false =>
    refine ⟨?_, fun c hc => isDelimiter_of (p := isNumeral) (by decide) (isNumeral_text h c hc)⟩
    intro hnil
    have hread : Lexeme.Reads [] x.text.toList [.float x] := .float h rfl
    rw [hnil] at hread
    cases hread

end Binary64

theorem Operator.isWord_spelling (op : Operator) : IsWord op.spelling.toList := by
  cases op <;> decide

/-! ## Words of the syntax -/

mutual

theorem TypeExpr.plain_sexp : ∀ t : TypeExpr α, t.tree.Every Node.Sound → t.sexp.Plain
  | .builtin _ type, _ => .headed (by decide) (.cons (.word type.isName_spelling.isWord) .nil)
  | .custom _ name, h => .headed (by decide) (.cons (.word h.label.1.isWord) .nil)
  | .list _ element, h => by
    have helement := (TypeExpr.every_list.mp h).2
    exact .headed (by decide) (.cons (TypeExpr.plain_sexp element helement) .nil)
  | .map _ key value, h => by
    obtain ⟨-, hkey, hvalue⟩ := TypeExpr.every_map.mp h
    exact .headed (by decide) (.cons (TypeExpr.plain_sexp key hkey) (.cons (TypeExpr.plain_sexp value hvalue) .nil))
  | .tuple _ elements, h => by
    have helements := (TypeExpr.every_tuple.mp h).2
    exact .headed (by decide) (TypeExpr.plainAll_sexp elements helements)

theorem TypeExpr.plainAll_sexp : ∀ ts : List (TypeExpr α), (∀ t ∈ ts, t.tree.Every Node.Sound) →
    PlainAll (TypeExpr.sexpAll ts)
  | [], _ => .nil
  | t :: ts, h => by
    obtain ⟨ht, hts⟩ := List.forall_mem_cons.mp h
    exact .cons (TypeExpr.plain_sexp t ht) (TypeExpr.plainAll_sexp ts hts)

end

mutual

theorem Literal.plain_sexp : ∀ l : Literal α, l.tree.Every Node.Sound → l.sexp.Plain
  | .bool _ value, _ => by
    refine .headed (by decide) (.cons (.word ?_) .nil)
    cases value <;> decide
  | .int _ value, _ => .headed (by decide) (.cons (.word (isWord_toString value)) .nil)
  | .float _ value, _ => .headed (by decide) (.cons (.word value.isWord_text) .nil)
  | .string _ value, _ => .headed (by decide) (.cons .quoted .nil)
  | .list _ items, h => .headed (by decide) (Literal.plainAll_sexp items (Literal.every_list.mp h).2)
  | .tuple _ items, h => .headed (by decide) (Literal.plainAll_sexp items (Literal.every_tuple.mp h).2)
  | .dict _ entries, h => .headed (by decide) (Literal.plainAll_entries entries (Literal.every_dict.mp h).2)

theorem Literal.plainAll_sexp : ∀ ls : List (Literal α), (∀ l ∈ ls, l.tree.Every Node.Sound) →
    PlainAll (Literal.sexpAll ls)
  | [], _ => .nil
  | l :: ls, h => by
    obtain ⟨hl, hls⟩ := List.forall_mem_cons.mp h
    exact .cons (Literal.plain_sexp l hl) (Literal.plainAll_sexp ls hls)

theorem Literal.plainAll_entries : ∀ es : List (Literal α × Literal α),
    (∀ e ∈ es, e.1.tree.Every Node.Sound ∧ e.2.tree.Every Node.Sound) →
    PlainAll (Literal.sexpEntries es)
  | [], _ => .nil
  | (key, value) :: rest, h => by
    obtain ⟨⟨hkey, hvalue⟩, hrest⟩ := List.forall_mem_cons.mp h
    have hentry := PlainAll.cons (Literal.plain_sexp key hkey) (.cons (Literal.plain_sexp value hvalue) .nil)
    exact .cons (.list hentry) (Literal.plainAll_entries rest hrest)

end

mutual

theorem Expr.plain_sexp : ∀ e : Expr α, e.tree.Every Node.Sound → e.sexp.Plain
  | .binary _ op left right, h => by
    obtain ⟨-, hleft, hright⟩ := Expr.every_binary.mp h
    exact .headed op.isWord_spelling (.cons (Expr.plain_sexp left hleft) (.cons (Expr.plain_sexp right hright) .nil))
  | .unary _ op operand, h => by
    have hoperand := (Expr.every_unary.mp h).2
    exact .headed op.isWord_spelling (.cons (Expr.plain_sexp operand hoperand) .nil)
  | .var _ name, h => .headed (by decide) (.cons (.word (IsDotted.isWord h.label)) .nil)
  | .literal _ l, h => by
    rw [Expr.sexp]
    exact l.plain_sexp (Expr.every_literal.mp h).2
  | .call _ name args, h => by
    obtain ⟨hname, hargs⟩ := Expr.every_call.mp h
    exact .headed (by decide) (.cons (.word (IsDotted.isWord hname)) (Expr.plainAll_sexp args hargs))

theorem Expr.plainAll_sexp : ∀ es : List (Expr α), (∀ e ∈ es, e.tree.Every Node.Sound) →
    PlainAll (Expr.sexpAll es)
  | [], _ => .nil
  | e :: es, h => by
    obtain ⟨he, hes⟩ := List.forall_mem_cons.mp h
    exact .cons (Expr.plain_sexp e he) (Expr.plainAll_sexp es hes)

end

theorem Value.plain_sexp {v : Value α} (h : v.tree.Every Node.Sound) : v.sexp.Plain := by
  cases v with
  | literal l => exact l.plain_sexp h
  | expr e => exact e.plain_sexp h

theorem Param.plain_sexp {p : Param α} (hname : ∀ name ∈ p.name, IsName name) (htype : p.type.tree.Every Node.Sound) :
    p.sexp.Plain := by
  obtain ⟨name, type⟩ := p
  cases name with
  | none => exact type.plain_sexp htype
  | some name => exact .headed (by decide) (.cons (.word (hname name rfl).isWord) (.cons (type.plain_sexp htype) .nil))

/-- A parameter list is a list without a head. -/
theorem Param.plainAll_sexp {params : List (Param α)} (hnames : Param.Named params)
    (htypes : ∀ p ∈ params, p.type.tree.Every Node.Sound) : (Sexp.list (params.map Param.sexp)).Plain :=
  .list (.map fun p hp => Param.plain_sexp (hnames p hp) (htypes p hp))

theorem Fn.plain_sexp {d : Fn α} (h : d.tree.Every Node.Sound) : d.sexp.Plain := by
  obtain ⟨⟨hname, hparams, -⟩, htypes, hret⟩ := Fn.every_tree.mp h
  have hret := PlainAll.option fun t ht => TypeExpr.plain_sexp t (hret t ht)
  exact .headed (by decide) (.cons (.word hname.isWord) (.cons (Param.plainAll_sexp hparams htypes) hret))

theorem Channel.plain_sexp {d : Channel α} {keyword : String} (hkeyword : IsWord keyword.toList) (hname : IsName d.name)
    (hparams : Param.Named d.params) (htypes : ∀ p ∈ d.params, p.type.tree.Every Node.Sound) :
    (d.sexp keyword).Plain :=
  .headed hkeyword (.cons (.word hname.isWord) (.cons (Param.plainAll_sexp hparams htypes) .nil))

theorem Member.plain_sexp {m : Member α} (h : m.tree.Every Node.Sound) : m.sexp.Plain := by
  cases m with
  | fn d => exact d.plain_sexp h
  | emit d =>
    obtain ⟨⟨hname, hparams, -⟩, htypes⟩ := Member.every_emit.mp h
    exact d.plain_sexp (by decide) hname hparams htypes
  | prop d =>
    obtain ⟨⟨hname, hparams, -⟩, htypes⟩ := Member.every_prop.mp h
    exact d.plain_sexp (by decide) hname hparams htypes

theorem Field.plain_sexp {d : Field α} (h : d.tree.Every Node.Sound) : d.sexp.Plain := by
  obtain ⟨⟨hname, -⟩, htype, hinitial⟩ := Field.every_tree.mp h
  have hinitial := PlainAll.option fun v hv => Value.plain_sexp (hinitial v hv)
  exact .headed (by decide) (.cons (.word hname.isWord) (.cons (d.type.plain_sexp htype) hinitial))

theorem EnumItem.plain_sexp {d : EnumItem α} (h : d.tree.Every Node.Sound) : d.sexp.Plain := by
  obtain ⟨tag, name, meaning⟩ := d
  cases meaning with
  | const v =>
    obtain ⟨⟨hname, -⟩, hv⟩ := Tree.every_node.mp h
    have hv := Value.plain_sexp (List.forall_mem_singleton.mp hv)
    exact .headed (by decide) (.cons (.word hname.isWord) (.cons hv .nil))
  | type t =>
    obtain ⟨⟨hname, -⟩, ht⟩ := Tree.every_node.mp h
    have ht := t.plain_sexp (List.forall_mem_singleton.mp ht)
    exact .headed (by decide) (.cons ht (.cons (.word hname.isWord) .nil))

theorem Import.plain_sexp {d : Import α} (hpackage : IsDotted d.package) (hscope : d.scope.Sound) :
    d.sexp.Plain := by
  obtain ⟨tag, package, scope⟩ := d
  have hpackage := Plain.word hpackage.isWord
  cases scope with
  | package => exact .headed (by decide) (.cons hpackage .nil)
  | names names =>
    have hnames := PlainAll.map fun name hname => .word (hscope.2 name hname).isWord
    exact .headed (by decide) (.cons hpackage (.cons (.headed (by decide) hnames) .nil))
  | all =>
    exact .headed (by decide) (.cons hpackage (.cons (.headed (by decide) (.cons (.word (by decide)) .nil)) .nil))

theorem plainAll_sexpInherits {names : List String} (h : ∀ name ∈ names, IsDotted name) :
    PlainAll (sexpInherits names) := by
  unfold sexpInherits
  split
  · exact .nil
  · exact .cons (.headed (by decide) (.map fun name hname => .word (h name hname).isWord)) .nil

/-! ## Dumps -/

mutual

theorem ObjectItem.shows : ∀ o : ObjectItem α, o.tree.Every Node.Sound → Shows o.dump o.sexp.pieces
  | .property _ name value, h => by
    obtain ⟨⟨hname, -⟩, hvalue⟩ := ObjectItem.every_property.mp h
    exact .sexp (.headed (by decide) (.cons (.word hname.isWord) (.cons (Value.plain_sexp hvalue) .nil)))
  | .connect _ sender receiver, h => by
    obtain ⟨-, hsender, hreceiver⟩ := ObjectItem.every_connect.mp h
    exact .sexp (.headed (by decide) (.cons (Value.plain_sexp hsender) (.cons (Value.plain_sexp hreceiver) .nil)))
  | .object _ type _ name body, h => by
    obtain ⟨-, htype, -, hbody⟩ := ObjectItem.every_object.mp h
    have hname : (Sexp.headed "string" [.quoted name]).Plain := .headed (by decide) (.cons .quoted .nil)
    exact .block (by decide) (.cons (type.plain_sexp htype) (.cons hname .nil)) (ObjectItem.showsAll body hbody)

theorem ObjectItem.showsAll : ∀ os : List (ObjectItem α), (∀ o ∈ os, o.tree.Every Node.Sound) →
    Shows (ObjectItem.dumpAll os) (piecesAll (ObjectItem.sexpAll os))
  | [], _ => .nil
  | o :: os, h => by
    obtain ⟨ho, hos⟩ := List.forall_mem_cons.mp h
    exact (ObjectItem.shows o ho).append (ObjectItem.showsAll os hos)

end

theorem Node.shows {n : Node α} (h : n.tree.Every Node.Sound) : Shows n.dump n.sexp.pieces := by
  cases n with
  | literal l => exact .sexp (l.plain_sexp h)
  | expr e => exact .sexp (e.plain_sexp h)
  | type t => exact .sexp (t.plain_sexp h)
  | interface d =>
    obtain ⟨⟨hname, hinherits, -⟩, hmembers⟩ := Node.every_interface.mp h
    have hmembers := Shows.lines (.map fun m hm => Member.plain_sexp (hmembers m hm))
    exact .block (by decide) (.cons (.word hname.isWord) (plainAll_sexpInherits hinherits)) hmembers
  | fn d => exact .sexp (d.plain_sexp h)
  | emit d => exact .sexp (Member.plain_sexp (m := .emit d) h)
  | prop d => exact .sexp (Member.plain_sexp (m := .prop d) h)
  | struct d =>
    obtain ⟨⟨hname, hinherits, -⟩, hfields⟩ := Node.every_struct.mp h
    have hfields := Shows.lines (.map fun f hf => Field.plain_sexp (hfields f hf))
    exact .block (by decide) (.cons (.word hname.isWord) (plainAll_sexpInherits hinherits)) hfields
  | field d => exact .sexp (d.plain_sexp h)
  | const d =>
    obtain ⟨⟨hname, -⟩, htype, hvalue⟩ := Node.every_const.mp h
    have htype := PlainAll.option fun t ht => TypeExpr.plain_sexp t (htype t ht)
    exact .sexp (.headed (by decide) (.cons (.word hname.isWord) (htype.append (.cons (Value.plain_sexp hvalue) .nil))))
  | typedef d =>
    obtain ⟨hname, htype⟩ := Node.every_typedef.mp h
    exact .sexp (.headed (by decide) (.cons (d.type.plain_sexp htype) (.cons (.word (IsName.isWord hname)) .nil)))
  | enum d =>
    obtain ⟨⟨hname, -⟩, hitems⟩ := Tree.every_node.mp h
    have hitems := Shows.lines (.map fun i hi => EnumItem.plain_sexp (List.forall_mem_map.mp hitems i hi))
    exact .block (by decide) (.cons (.word hname.isWord) .nil) hitems
  | enumItem d => exact .sexp (d.plain_sexp h)
  | package t name => exact .sexp (.headed (by decide) (.cons (.word (IsDotted.isWord h.label)) .nil))
  | imports d => exact .sexp (d.plain_sexp h.label.1 h.label.2)
  | object o => exact o.shows h
  | var d =>
    obtain ⟨⟨hname, -⟩, htype, hvalue⟩ := Node.every_var.mp h
    have htype := PlainAll.option fun t ht => TypeExpr.plain_sexp t (htype t ht)
    have hvalue := PlainAll.option fun v hv => Value.plain_sexp (hvalue v hv)
    exact .sexp (.headed (by decide) (.cons (.word hname.isWord) (htype.append hvalue)))
  | comment t text => exact .sexp (.headed (by decide) (.cons .quoted .nil))

/-- The dump of a file is cut into the pieces of the nested lists of its nodes. -/
theorem Ast.scan_dump {ast : Ast} (h : ∀ root ∈ ast.roots, root.tree.Every Node.Sound) (width : Nat) :
    scan (ast.dump width).toList = piecesAll (ast.roots.map Node.sexp) := by
  have hroots : Shows (ast.roots.flatMap Node.dump) (piecesAll (ast.roots.map Node.sexp)) :=
    .flatMap fun root hroot => Node.shows (h root hroot)
  have hscan := Writes.render hroots width []
  rwa [List.append_nil, scan_nil, List.append_nil] at hscan

end QiIdl
