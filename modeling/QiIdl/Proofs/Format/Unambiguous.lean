import QiIdl.Proofs.Format.Dumped
import QiIdl.Proofs.Format.Untagged
import QiIdl.Proofs.Grammar.Twins

/-!
# Dumps are unambiguous

The nested list of a piece of sound syntax determines it, but for tags and documentation: it is read back by
`Node.ofSexp`. Types, literals and operations are told apart by their heads, so a part that may be left out is never
taken for another.

With `Ast.scan_dump`, the dump of a file determines its syntax. The other way round, a dump looks neither at tags nor at
documentation (`Node.written_erase`, `Node.dump_withoutDoc`).
-/

namespace QiIdl

open Piece Sexp

variable {α : Type}

/-! ## Documentation -/

/-- A function without its documentation. -/
def Fn.withoutDoc (d : Fn α) : Fn α := { d with doc := none }

def Channel.withoutDoc (d : Channel α) : Channel α := { d with doc := none }

def Member.withoutDoc : Member α → Member α
  | .fn d => .fn d.withoutDoc
  | .emit d => .emit d.withoutDoc
  | .prop d => .prop d.withoutDoc

/-- A node without documentation, its own and that of the nodes below it. -/
def Node.withoutDoc : Node α → Node α
  | .interface d => .interface { d with doc := none, members := d.members.map Member.withoutDoc }
  | .fn d => .fn d.withoutDoc
  | .emit d => .emit d.withoutDoc
  | .prop d => .prop d.withoutDoc
  | .struct d => .struct { d with doc := none }
  | .enum d => .enum { d with doc := none }
  | n => n

def Ast.withoutDocs (ast : Ast) : Ast :=
  { ast with nodes := ast.nodes.map Node.withoutDoc, roots := ast.roots.map Node.withoutDoc }

/-! ## Syntax read from nested lists -/

/-- Reading back, one by one, what was shown one by one. -/
theorem mapM_map_eq_some {β γ δ : Type} {read : γ → Option δ} {show' : β → γ} {image : β → δ} :
    ∀ {bs : List β}, (∀ b ∈ bs, read (show' b) = some (image b)) → (bs.map show').mapM read = some (bs.map image)
  | [], _ => rfl
  | b :: bs, h => by
    obtain ⟨hb, hbs⟩ := List.forall_mem_cons.mp h
    simp [hb, mapM_map_eq_some hbs]

/-- The double that a text is read as. -/
def Binary64.ofText (text : String) : Binary64 :=
  match text.toList with
  | [] => .infinity
  | c :: cs =>
    match (Lexeme.first c cs).1.content with
    | .token (.float x) => x
    | _ => .infinity

mutual

/-- The type that a nested list shows. -/
def TypeExpr.ofSexp : Sexp → Option (TypeExpr Unit)
  | .list [.word "type", .word name] => some (TypeExpr.ofName () name)
  | .list [.word "listtype", element] => (TypeExpr.ofSexp element).map (.list ())
  | .list [.word "maptype", key, value] => do return .map () (← TypeExpr.ofSexp key) (← TypeExpr.ofSexp value)
  | .list (.word "tupletype" :: elements) => (TypeExpr.ofSexps elements).map (.tuple ())
  | _ => none

def TypeExpr.ofSexps : List Sexp → Option (List (TypeExpr Unit))
  | [] => some []
  | s :: ss => do return (← TypeExpr.ofSexp s) :: (← TypeExpr.ofSexps ss)

end

mutual

def Literal.ofSexp : Sexp → Option (Literal Unit)
  | .list [.word "bool", .word text] => some (.bool () (text == "true"))
  | .list [.word "int", .word text] => some (.int () (Lexeme.decimalValue text.toList))
  | .list [.word "float", .word text] => some (.float () (Binary64.ofText text))
  | .list [.word "string", .quoted text] => some (.string () text)
  | .list (.word "list" :: items) => (Literal.ofSexps items).map (.list ())
  | .list (.word "tuple" :: items) => (Literal.ofSexps items).map (.tuple ())
  | .list (.word "dict" :: entries) => (Literal.ofSexpEntries entries).map (.dict ())
  | _ => none

def Literal.ofSexps : List Sexp → Option (List (Literal Unit))
  | [] => some []
  | s :: ss => do return (← Literal.ofSexp s) :: (← Literal.ofSexps ss)

def Literal.ofSexpEntries : List Sexp → Option (List (Literal Unit × Literal Unit))
  | [] => some []
  | .list [key, value] :: ss => do
    return (← Literal.ofSexp key, ← Literal.ofSexp value) :: (← Literal.ofSexpEntries ss)
  | _ => none

end

mutual

/-- The expression that a nested list shows. What shows a literal shows nothing else. -/
def Expr.ofSexp (s : Sexp) : Option (Expr Unit) :=
  match Literal.ofSexp s with
  | some l => some (.literal () l)
  | none =>
    match s with
    | .list [.word "var", .word name] => some (.var () name)
    | .list (.word "call" :: .word name :: args) => (Expr.ofSexps args).map (.call () name)
    | .list [.word head, operand] => do return .unary () (← Operator.ofSpelling? head) (← Expr.ofSexp operand)
    | .list [.word head, left, right] => do
      return .binary () (← Operator.ofSpelling? head) (← Expr.ofSexp left) (← Expr.ofSexp right)
    | _ => none

def Expr.ofSexps : List Sexp → Option (List (Expr Unit))
  | [] => some []
  | s :: ss => do return (← Expr.ofSexp s) :: (← Expr.ofSexps ss)

end

def Value.ofSexp (s : Sexp) : Option (Value Unit) :=
  match Literal.ofSexp s with
  | some l => some (.literal l)
  | none => (Expr.ofSexp s).map .expr

/-- A type in front of other lists, if there is one. -/
def TypeExpr.splitOff : List Sexp → Option (TypeExpr Unit) × List Sexp
  | [] => (none, [])
  | s :: ss =>
    match TypeExpr.ofSexp s with
    | some t => (some t, ss)
    | none => (none, s :: ss)

/-- The parameter that a nested list shows. -/
def Param.ofSexp (s : Sexp) : Option (Param Unit) :=
  match TypeExpr.ofSexp s, s with
  | some t, _ => some ⟨none, t⟩
  | none, .list [.word "param", .word name, type] => (TypeExpr.ofSexp type).map (⟨some name, ·⟩)
  | _, _ => none

/-- The words in front of other lists that are inherited, if there are some. -/
def splitInherits : List Sexp → List Sexp × List Sexp
  | .list (.word "inherit" :: names) :: ss => (names, ss)
  | ss => ([], ss)

/-- The word that a nested list is. -/
def Sexp.text? : Sexp → Option String
  | .word text => some text
  | _ => none

/-- The member of an interface that a nested list shows. -/
def Member.ofSexp : Sexp → Option (Member Unit)
  | .list (.word "fn" :: .word name :: .list params :: ret) => do
    return .fn ⟨(), name, ← params.mapM Param.ofSexp, (TypeExpr.splitOff ret).1, none⟩
  | .list [.word "emit", .word name, .list params] => do return .emit ⟨(), name, ← params.mapM Param.ofSexp, none⟩
  | .list [.word "prop", .word name, .list params] => do return .prop ⟨(), name, ← params.mapM Param.ofSexp, none⟩
  | _ => none

def Field.ofSexp : Sexp → Option (Field Unit)
  | .list (.word "field" :: .word name :: type :: initial) => do
    return ⟨(), name, ← TypeExpr.ofSexp type, (← initial.mapM Value.ofSexp).head?⟩
  | _ => none

/-- The entry of an enumeration that a nested list shows. -/
def EnumItem.ofSexp : Sexp → Option (EnumItem Unit)
  | .list [.word "const", .word name, value] => (Value.ofSexp value).map fun v => ⟨(), name, .const v⟩
  | .list [.word "typedef", type, .word name] => (TypeExpr.ofSexp type).map fun t => ⟨(), name, .type t⟩
  | _ => none

mutual

/-- The object or the line of a body that a nested list shows. -/
def ObjectItem.ofSexp : Sexp → Option (ObjectItem Unit)
  | .list [.word "prop", .word name, value] => (Value.ofSexp value).map (.property () name)
  | .list [.word "at", sender, receiver] => do
    return .connect () (← Value.ofSexp sender) (← Value.ofSexp receiver)
  | .list (.word "object" :: type :: .list [.word "string", .quoted name] :: body) => do
    return .object () (← TypeExpr.ofSexp type) () name (← ObjectItem.ofSexps body)
  | _ => none

/-- The lines of a body that some nested lists show. -/
def ObjectItem.ofSexps : List Sexp → Option (List (ObjectItem Unit))
  | [] => some []
  | s :: ss => do return (← ObjectItem.ofSexp s) :: (← ObjectItem.ofSexps ss)

end

/-- The node at the top of a file that a nested list shows. -/
def Node.ofSexp : Sexp → Option (Node Unit)
  | .list (.word "interface" :: .word name :: rest) => do
    let (inherits, members) := splitInherits rest
    return .interface ⟨(), name, inherits.filterMap Sexp.text?, ← members.mapM Member.ofSexp, none⟩
  | .list (.word "struct" :: .word name :: rest) => do
    let (inherits, fields) := splitInherits rest
    return .struct ⟨(), name, inherits.filterMap Sexp.text?, ← fields.mapM Field.ofSexp, none⟩
  | .list (.word "defconst" :: .word name :: rest) => do
    let (declared, value) := TypeExpr.splitOff rest
    return .const ⟨(), name, declared, ← value.head?.bind Value.ofSexp⟩
  | .list [.word "typedef", s, .word name] => do return .typedef ⟨(), name, ← TypeExpr.ofSexp s⟩
  | .list (.word "enum" :: .word name :: items) => do return .enum ⟨(), name, ← items.mapM EnumItem.ofSexp, none⟩
  | .list [.word "package", .word name] => some (.package () name)
  | .list [.word "import", .word path] => some (.imports ⟨(), path, .package⟩)
  | .list [.word "from", .word path, .list [.word "import", .word "*"]] => some (.imports ⟨(), path, .all⟩)
  | .list [.word "from", .word path, .list (.word "import" :: names)] => do
    return .imports ⟨(), path, .names (names.filterMap Sexp.text?)⟩
  | .list (.word "defvar" :: .word name :: rest) => do
    let (declared, value) := TypeExpr.splitOff rest
    return .var ⟨(), name, declared, (← value.mapM Value.ofSexp).head?⟩
  | .list [.word "comment", .quoted text] => some (.comment () text)
  | s =>
    match Member.ofSexp s with
    | some m => some m.node
    | none => (ObjectItem.ofSexp s).map .object

/-! ## What is shown is read back -/

theorem Binary64.ofText_text {x : Binary64} (h : x.IsDouble) : Binary64.ofText x.text = x := by
  cases hinf : x.isInfinite with
  | true =>
    rw [h.eq_infinity hinf]
    rfl
  | false =>
    obtain ⟨c, cs, hlist, hfirst⟩ := Lexeme.Spells.float hinf (rfl : Lexeme.Ends [])
    rw [List.append_nil] at hfirst
    simp only [ofText, hlist, hfirst]
    rfl

theorem Operator.ofSpelling?_spelling (op : Operator) : Operator.ofSpelling? op.spelling = some op := by
  cases op <;> rfl

section Shown

attribute [local simp] Function.comp_def headed text? TypeExpr.sexp TypeExpr.sexpAll TypeExpr.ofSexp TypeExpr.ofSexps
  TypeExpr.erase TypeExpr.eraseAll Literal.sexp Literal.sexpAll Literal.sexpEntries Literal.ofSexps
  Literal.ofSexpEntries Literal.erase Literal.eraseAll Literal.eraseEntries Expr.sexp Expr.sexpAll Expr.ofSexps
  Expr.erase Expr.eraseAll Param.sexp Param.ofSexp Param.erase Fn.sexp Fn.withoutDoc Fn.erase Channel.sexp
  Channel.withoutDoc Channel.erase Member.sexp Member.ofSexp Member.withoutDoc Member.erase Member.node Field.sexp
  Field.ofSexp Field.erase EnumItem.sexp EnumItem.ofSexp EnumItem.erase EnumMeaning.erase Import.sexp ObjectItem.sexp
  ObjectItem.sexpAll ObjectItem.ofSexp ObjectItem.ofSexps ObjectItem.erase ObjectItem.eraseAll Node.sexp Node.ofSexp
  Node.withoutDoc Node.erase

mutual

theorem TypeExpr.ofSexp_sexp : ∀ t : TypeExpr α, t.tree.Every Node.Sound → TypeExpr.ofSexp t.sexp = some t.erase
  | .builtin _ type, _ => by
    simp [TypeExpr.ofName, type.ofSpelling?_spelling]
  | .custom _ name, h => by
    have hname : Builtin.ofSpelling? name = none := h.label.2
    simp [TypeExpr.ofName, hname]
  | .list _ element, h => by
    have helement := TypeExpr.ofSexp_sexp element (TypeExpr.every_list.mp h).2
    simp [helement]
  | .map _ key value, h => by
    obtain ⟨-, hkey, hvalue⟩ := TypeExpr.every_map.mp h
    have hkey := TypeExpr.ofSexp_sexp key hkey
    have hvalue := TypeExpr.ofSexp_sexp value hvalue
    simp [hkey, hvalue]
  | .tuple _ elements, h => by
    have helements := TypeExpr.ofSexps_sexp elements (TypeExpr.every_tuple.mp h).2
    simp [helements]

theorem TypeExpr.ofSexps_sexp : ∀ ts : List (TypeExpr α), (∀ t ∈ ts, t.tree.Every Node.Sound) →
    TypeExpr.ofSexps (TypeExpr.sexpAll ts) = some (TypeExpr.eraseAll ts)
  | [], _ => rfl
  | t :: ts, h => by
    obtain ⟨ht, hts⟩ := List.forall_mem_cons.mp h
    have ht := TypeExpr.ofSexp_sexp t ht
    simp [ht, TypeExpr.ofSexps_sexp ts hts]

end

mutual

theorem Literal.ofSexp_sexp : ∀ l : Literal α, l.tree.Every Node.Sound → Literal.ofSexp l.sexp = some l.erase
  | .bool _ value, _ => by cases value <;> rfl
  | .int _ value, _ => by
    simp [Literal.ofSexp, Lexeme.decimalValue_toDigits]
  | .float _ value, h => by
    simp [Literal.ofSexp, Binary64.ofText_text h.label]
  | .string _ value, _ => by simp [Literal.ofSexp]
  | .list _ items, h => by
    have hitems := Literal.ofSexps_sexp items (Literal.every_list.mp h).2
    simp [Literal.ofSexp, hitems]
  | .tuple _ items, h => by
    have hitems := Literal.ofSexps_sexp items (Literal.every_tuple.mp h).2
    simp [Literal.ofSexp, hitems]
  | .dict _ entries, h => by
    have hentries := Literal.ofSexpEntries_sexp entries (Literal.every_dict.mp h).2
    simp [Literal.ofSexp, hentries]

theorem Literal.ofSexps_sexp : ∀ ls : List (Literal α), (∀ l ∈ ls, l.tree.Every Node.Sound) →
    Literal.ofSexps (Literal.sexpAll ls) = some (Literal.eraseAll ls)
  | [], _ => rfl
  | l :: ls, h => by
    obtain ⟨hl, hls⟩ := List.forall_mem_cons.mp h
    have hl := Literal.ofSexp_sexp l hl
    simp [hl, Literal.ofSexps_sexp ls hls]

theorem Literal.ofSexpEntries_sexp : ∀ es : List (Literal α × Literal α),
    (∀ e ∈ es, e.1.tree.Every Node.Sound ∧ e.2.tree.Every Node.Sound) →
    Literal.ofSexpEntries (Literal.sexpEntries es) = some (Literal.eraseEntries es)
  | [], _ => rfl
  | (key, value) :: rest, h => by
    obtain ⟨⟨hkey, hvalue⟩, hrest⟩ := List.forall_mem_cons.mp h
    have hkey := Literal.ofSexp_sexp key hkey
    have hvalue := Literal.ofSexp_sexp value hvalue
    simp [hkey, hvalue, Literal.ofSexpEntries_sexp rest hrest]

end

/-- No literal is shown like an operation. -/
theorem Literal.ofSexp_operator (op : Operator) (args : List Sexp) : Literal.ofSexp (.list (.word op.spelling :: args)) = none := by
  cases op <;> simp [Operator.spelling, Literal.ofSexp]

/-- No literal is shown like another expression. -/
theorem Literal.ofSexp_expr {e : Expr α} (he : Value.Proper (.expr e)) : Literal.ofSexp e.sexp = none := by
  cases e with
  | binary _ op _ _ => exact Literal.ofSexp_operator op _
  | unary _ op _ => exact Literal.ofSexp_operator op _
  | var _ name => simp [Literal.ofSexp]
  | literal _ l => exact he.elim
  | call _ name args => simp [Literal.ofSexp]

mutual

theorem Expr.ofSexp_sexp : ∀ e : Expr α, e.tree.Every Node.Sound → Expr.ofSexp e.sexp = some e.erase
  | .binary _ op left right, h => by
    obtain ⟨-, hleft, hright⟩ := Expr.every_binary.mp h
    have hleft := Expr.ofSexp_sexp left hleft
    have hright := Expr.ofSexp_sexp right hright
    have hcall : op.spelling ≠ "call" := by cases op <;> decide
    simp [Expr.ofSexp, Literal.ofSexp_operator, hcall, op.ofSpelling?_spelling, hleft, hright]
  | .unary _ op operand, h => by
    have hoperand := Expr.ofSexp_sexp operand (Expr.every_unary.mp h).2
    have hcall : op.spelling ≠ "call" := by cases op <;> decide
    have hvar : op.spelling ≠ "var" := by cases op <;> decide
    simp [Expr.ofSexp, Literal.ofSexp_operator, hcall, hvar, op.ofSpelling?_spelling, hoperand]
  | .var _ name, _ => by simp [Expr.ofSexp, Literal.ofSexp]
  | .literal _ l, h => by
    unfold Expr.ofSexp
    rw [Expr.sexp, l.ofSexp_sexp (Expr.every_literal.mp h).2, Expr.erase]
  | .call _ name args, h => by
    have hargs := Expr.ofSexps_sexp args (Expr.every_call.mp h).2
    simp [Expr.ofSexp, Literal.ofSexp, hargs]

theorem Expr.ofSexps_sexp : ∀ es : List (Expr α), (∀ e ∈ es, e.tree.Every Node.Sound) →
    Expr.ofSexps (Expr.sexpAll es) = some (Expr.eraseAll es)
  | [], _ => rfl
  | e :: es, h => by
    obtain ⟨he, hes⟩ := List.forall_mem_cons.mp h
    have he := Expr.ofSexp_sexp e he
    simp [he, Expr.ofSexps_sexp es hes]

end

theorem Value.ofSexp_sexp {v : Value α} (hv : v.Proper) (h : v.tree.Every Node.Sound) :
    Value.ofSexp v.sexp = some v.erase := by
  cases v with
  | literal l => rw [Value.sexp, Value.ofSexp, l.ofSexp_sexp h, Value.erase]
  | expr e => rw [Value.sexp, Value.ofSexp, Literal.ofSexp_expr hv, e.ofSexp_sexp h, Value.erase, Option.map_some]

/-- No type is shown like a value. -/
theorem TypeExpr.ofSexp_value (v : Value α) : TypeExpr.ofSexp v.sexp = none := by
  have hliteral (l : Literal α) : TypeExpr.ofSexp l.sexp = none := by
    cases l <;> simp
  have hoperator (op : Operator) (args : List Sexp) : TypeExpr.ofSexp (.list (.word op.spelling :: args)) = none := by
    cases op <;> simp [Operator.spelling]
  cases v with
  | literal l => exact hliteral l
  | expr e =>
    cases e with
    | binary _ op _ _ => exact hoperator op _
    | unary _ op _ => exact hoperator op _
    | literal _ l => exact hliteral l
    | _ => simp [Value.sexp]

/-- A type in front of values is told apart from them. -/
theorem TypeExpr.splitOff_sexp {type : Option (TypeExpr α)} (h : ∀ t ∈ type, t.tree.Every Node.Sound)
    (values : List (Value α)) : TypeExpr.splitOff (type.toList.map TypeExpr.sexp ++ values.map Value.sexp) =
      (type.map TypeExpr.erase, values.map Value.sexp) := by
  cases type with
  | some t => simp [TypeExpr.splitOff, t.ofSexp_sexp (h t rfl)]
  | none =>
    cases values with
    | nil => rfl
    | cons v values => simp [TypeExpr.splitOff, TypeExpr.ofSexp_value]

theorem Param.ofSexp_sexp {p : Param α} (h : p.type.tree.Every Node.Sound) : Param.ofSexp p.sexp = some p.erase := by
  obtain ⟨name, type⟩ := p
  have htype := type.ofSexp_sexp h
  cases name with
  | none => simp [htype]
  | some name => simp [htype]

theorem Member.ofSexp_sexp {m : Member α} (h : m.tree.Every Node.Sound) :
    Member.ofSexp m.sexp = some m.withoutDoc.erase := by
  cases m with
  | fn d =>
    obtain ⟨-, hparams, hret⟩ := Fn.every_tree.mp h
    have hparams := mapM_map_eq_some fun p hp => Param.ofSexp_sexp (hparams p hp)
    have hret := TypeExpr.splitOff_sexp hret []
    rw [List.map_nil, List.append_nil] at hret
    simp [hparams, hret]
  | emit d =>
    have hparams := mapM_map_eq_some fun p hp => Param.ofSexp_sexp ((Member.every_emit.mp h).2 p hp)
    simp [hparams]
  | prop d =>
    have hparams := mapM_map_eq_some fun p hp => Param.ofSexp_sexp ((Member.every_prop.mp h).2 p hp)
    simp [hparams]

/-- A value that may be left out is read back if it is sound. -/
theorem Value.ofSexp_option {value : Option (Value α)} (hproper : ∀ v ∈ value, v.Proper)
    (h : ∀ v ∈ value, v.tree.Every Node.Sound) :
    (value.toList.map Value.sexp).mapM Value.ofSexp = some (value.map Value.erase).toList := by
  rw [Option.toList_map]
  exact mapM_map_eq_some fun v hv =>
    Value.ofSexp_sexp (hproper v (Option.mem_toList.mp hv)) (h v (Option.mem_toList.mp hv))

theorem Field.ofSexp_sexp {d : Field α} (h : d.tree.Every Node.Sound) : Field.ofSexp d.sexp = some d.erase := by
  obtain ⟨⟨-, hproper⟩, htype, hvalue⟩ := Field.every_tree.mp h
  have htype := d.type.ofSexp_sexp htype
  have hinitial := Value.ofSexp_option hproper hvalue
  simp [htype, hinitial]

theorem EnumItem.ofSexp_sexp {d : EnumItem α} (h : d.tree.Every Node.Sound) :
    EnumItem.ofSexp d.sexp = some d.erase := by
  obtain ⟨_, name, meaning⟩ := d
  obtain ⟨⟨-, hproper⟩, h⟩ := Tree.every_node.mp h
  have h := List.forall_mem_singleton.mp h
  cases meaning with
  | const v => simp [Value.ofSexp_sexp hproper h]
  | type t => simp [t.ofSexp_sexp h]

mutual

theorem ObjectItem.ofSexp_sexp : ∀ o : ObjectItem α, o.tree.Every Node.Sound →
    ObjectItem.ofSexp o.sexp = some o.erase
  | .property _ name value, h => by
    obtain ⟨⟨-, hproper⟩, h⟩ := ObjectItem.every_property.mp h
    simp [Value.ofSexp_sexp hproper h]
  | .connect _ sender receiver, h => by
    obtain ⟨⟨hproper, hproper'⟩, hsender, hreceiver⟩ := ObjectItem.every_connect.mp h
    simp [Value.ofSexp_sexp hproper hsender, Value.ofSexp_sexp hproper' hreceiver]
  | .object _ type _ name body, h => by
    obtain ⟨-, htype, -, hbody⟩ := ObjectItem.every_object.mp h
    have hbody := ObjectItem.ofSexps_sexp body hbody
    simp [type.ofSexp_sexp htype, hbody]

theorem ObjectItem.ofSexps_sexp : ∀ os : List (ObjectItem α), (∀ o ∈ os, o.tree.Every Node.Sound) →
    ObjectItem.ofSexps (ObjectItem.sexpAll os) = some (ObjectItem.eraseAll os)
  | [], _ => rfl
  | o :: os, h => by
    obtain ⟨ho, hos⟩ := List.forall_mem_cons.mp h
    have ho := ObjectItem.ofSexp_sexp o ho
    simp [ho, ObjectItem.ofSexps_sexp os hos]

end

theorem splitInherits_sexp {β : Type} (sexp : β → Sexp) (h : ∀ b names, sexp b ≠ .list (.word "inherit" :: names))
    (names : List String) (bs : List β) :
    splitInherits (sexpInherits names ++ bs.map sexp) = (names.map .word, bs.map sexp) := by
  cases names with
  | nil =>
    cases bs with
    | nil => rfl
    | cons b bs => simp [sexpInherits, splitInherits, h]
  | cons name names => simp [sexpInherits, splitInherits]

/-- At the top of a file, a nested list determines a node but for tags and documentation. -/
theorem Node.ofSexp_sexp {n : Node α} (htop : n.IsTop) (h : n.tree.Every Node.Sound) :
    Node.ofSexp n.sexp = some n.withoutDoc.erase := by
  cases n with
  | literal _ | expr _ | type _ | emit _ | prop _ | field _ | enumItem _ => exact htop.elim
  | interface d =>
    have hmembers := mapM_map_eq_some fun m hm => Member.ofSexp_sexp ((Node.every_interface.mp h).2 m hm)
    have hsplit := splitInherits_sexp (Member.sexp (α := α))
      (fun m _ => by cases m <;> simp) d.inherits d.members
    simp [hsplit, hmembers]
  | fn d =>
    have hmember := Member.ofSexp_sexp (m := .fn d) h
    simp only [Member.sexp, Fn.sexp, headed, List.cons_append, List.nil_append] at hmember
    simp [-Member.ofSexp, hmember]
  | struct d =>
    have hfields := mapM_map_eq_some fun f hf => Field.ofSexp_sexp ((Node.every_struct.mp h).2 f hf)
    have hsplit := splitInherits_sexp (Field.sexp (α := α)) (fun f _ => by simp)
      d.inherits d.fields
    simp [hsplit, hfields]
  | const d =>
    obtain ⟨⟨-, hproper⟩, htype, hvalue⟩ := Node.every_const.mp h
    have hsplit := TypeExpr.splitOff_sexp htype [d.value]
    rw [List.map_singleton] at hsplit
    simp [hsplit, Value.ofSexp_sexp hproper hvalue]
  | typedef d =>
    simp [d.type.ofSexp_sexp (Node.every_typedef.mp h).2]
  | enum d =>
    have hitems := List.forall_mem_map.mp (Tree.every_node.mp h).2
    have hitems := mapM_map_eq_some fun i hi => EnumItem.ofSexp_sexp (hitems i hi)
    simp [hitems]
  | package _ name => simp
  | imports d =>
    obtain ⟨_, package, scope⟩ := d
    cases scope with
    | package => simp
    | all => simp
    | names names =>
      -- a star is no name
      have hstar : names.map Sexp.word ≠ [.word "*"] := by
        intro heq
        obtain rfl : names = ["*"] := List.map_injective_iff.mpr (fun _ _ => Sexp.word.inj) heq
        exact absurd ((h.label.2.2 "*" List.mem_cons_self).isWordPart '*' (by decide)) (by decide)
      simp
  | object o =>
    cases o with
    | object _ type _ name body =>
      have hobject := ObjectItem.ofSexp_sexp _ h
      simp only [ObjectItem.sexp, headed] at hobject
      simp [-ObjectItem.ofSexp, Member.ofSexp, hobject]
    | _ => exact htop.elim
  | var d =>
    obtain ⟨⟨-, hproper⟩, htype, hvalue⟩ := Node.every_var.mp h
    have hsplit := TypeExpr.splitOff_sexp htype d.value.toList
    have hinitial := Value.ofSexp_option hproper hvalue
    simp [hsplit, hinitial]
  | comment _ text => simp

end Shown

/-! ## What a dump does not show -/

theorem Member.sexp_withoutDoc (m : Member α) : m.withoutDoc.sexp = m.sexp := by
  cases m <;> rfl

/-- A dump does not show documentation. -/
theorem Node.dump_withoutDoc (n : Node α) : n.withoutDoc.dump = n.dump := by
  cases n with
  | interface d => simp [Node.withoutDoc, Node.dump, Function.comp_def, Member.sexp_withoutDoc]
  | _ => rfl

/-- Files that have dumps in common, at any width, are the same syntax but for documentation, and the same syntax is
dumped alike. -/
theorem dump_eq_dump_iff {source source' file file' : String} {a b : Ast} (ha : parseSource source file = .ok a)
    (hb : parseSource source' file' = .ok b) (width : Nat) :
    a.dump width = b.dump width ↔ a.withoutDocs.same b.withoutDocs = true := by
  have ha := parseSource_sound ha
  have hb := parseSource_sound hb
  rw [Ast.same_iff, Ast.withoutDocs, Ast.withoutDocs, List.map_map, List.map_map]
  constructor
  · intro h
    have hpieces : piecesAll (a.roots.map Node.sexp) = piecesAll (b.roots.map Node.sexp) := by
      rw [← Ast.scan_dump (fun n hn => (ha n hn).2) width, h, Ast.scan_dump (fun n hn => (hb n hn).2) width]
    refine map_eq_of_map (piecesAll_injective hpieces) fun n hn m hm => ?_
    intro hsexp
    have hread := Node.ofSexp_sexp (ha n hn).1 (ha n hn).2
    rw [hsexp, Node.ofSexp_sexp (hb m hm).1 (hb m hm).2] at hread
    exact (Option.some.inj hread).symm
  · intro h
    have hshown (ast : Ast) : ast.roots.flatMap Node.dump =
        (ast.roots.map (Node.erase ∘ Node.withoutDoc)).flatMap Node.dump := by
      simp only [List.flatMap_map, Function.comp_apply, Node.written_erase, Node.dump_withoutDoc]
    rw [Ast.dump, Ast.dump, hshown a, hshown b, h]

/-- Two spellings of one interface and one constant, of which one is documented. -/
theorem dump_eq_dump_iff_lamp :
    let documented := "## A lamp.\ninterface Lamp(Thing)\n ## On or off.\n fn set(on bool, by int) -> []str\nend\n"
      ++ "const c = 1.50e1 + (2)\n"
    let plain := "interface Lamp ( Thing )\n\n  fn set(on bool,by int)->[]str\nend\nconst c = (15.0 + 0x2)\n"
    ∃ a b, parseSource documented "a.qi" = .ok a ∧ parseSource plain "b.qi" = .ok b ∧
      a.dump 2 = b.dump 2 ∧ a.same b = false := by
  intro documented plain
  have hcheck : (parseSource documented "a.qi").toOption.any (fun a => (parseSource plain "b.qi").toOption.any
      fun b => a.withoutDocs.same b.withoutDocs && !a.same b) = true := by
    decide +kernel
  obtain ⟨a, ha, hcheck⟩ := exists_ok_of_any hcheck
  obtain ⟨b, hb, hcheck⟩ := exists_ok_of_any hcheck
  rw [Bool.and_eq_true, Bool.not_eq_true'] at hcheck
  exact ⟨a, b, ha, hb, (dump_eq_dump_iff ha hb 2).mpr hcheck.1, hcheck.2⟩

end QiIdl
