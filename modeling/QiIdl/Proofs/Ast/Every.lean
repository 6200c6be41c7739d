import QiIdl.Proofs.Ast.Erase
import QiIdl.Proofs.Token.Clean

/-!
# What holds of every node

`Tree.Every P` says that `P` holds of every label of a tree. It is what a walk over everything checks
(`Tree.every_of_walkAll`), and it is what an induction over a syntax tree carries: at each node `P` of the node,
and `Every P` of the trees below.

One such property is settled here. A node is *sound* if a parser can have made it: its names are names, its
operators stand where they may, its documentation fits on comment lines. Soundness speaks of one node at a time
and does not look at tags.
-/

namespace QiIdl

variable {ast : Ast}

namespace Tree

variable {β γ : Type} {P Q : β → Prop}

/-- A property holds of every label of a tree. -/
inductive Every (P : β → Prop) : Tree β → Prop where
  | node {b : β} {ts : List (Tree β)} : P b → (∀ t ∈ ts, Every P t) → Every P (.node b ts)

theorem every_node {b : β} {ts : List (Tree β)} : (node b ts).Every P ↔ P b ∧ ∀ t ∈ ts, t.Every P :=
  ⟨fun | .node hb hts => ⟨hb, hts⟩, fun h => .node h.1 h.2⟩

theorem Every.label {t : Tree β} (h : t.Every P) : P t.label := by
  cases h with
  | node hb _ => exact hb

theorem Every.mono {t : Tree β} (hp : t.Every P) (h : ∀ b, P b → Q b) : t.Every Q := by
  induction hp with
  | node hb _ ih => exact .node (h _ hb) ih

theorem Every.and {t : Tree β} (hp : t.Every P) (hq : t.Every Q) : t.Every fun b => P b ∧ Q b := by
  induction hp with
  | node hb _ ih =>
    cases hq with
    | node hb' hts' => exact .node ⟨hb, hb'⟩ fun t ht => ih t ht (hts' t ht)

/-- What holds of all that a walk enters holds of every label. -/
theorem every_of_walkAll (ts : List (Tree β)) (parent : Option β)
    (h : ∀ v ∈ walkAll (fun _ => true) parent ts, v.entering = true → P v.node) : ∀ t ∈ ts, t.Every P := by
  induction ts using inductForest generalizing parent with
  | nil => exact List.forall_mem_nil _
  | cons b ts us hts hus =>
    rw [walkAll, walk] at h
    refine List.forall_mem_cons.mpr ⟨.node (h ⟨true, parent, b⟩ (by simp) rfl) ?_, ?_⟩
    · exact hts (some b) fun v hv => h v (by simp [hv])
    · exact hus parent fun v hv => h v (by simp [hv])

end Tree

/-- A node stands at the top of a file or below. -/
def Ast.Reaches (ast : Ast) (n : Node Mark) : Prop :=
  ∃ v ∈ Tree.walkAll (fun _ => true) none ast.trees, v.node = n

theorem Ast.forall_reaches {P : Node Mark → Prop} :
    (∀ n, ast.Reaches n → P n) ↔ ∀ v ∈ Tree.walkAll (fun _ => true) none ast.trees, P v.node :=
  ⟨fun h v hv => h v.node ⟨v, hv, rfl⟩, fun h _ ⟨v, hv, hn⟩ => hn ▸ h v hv⟩

instance (ast : Ast) (P : Node Mark → Prop) [DecidablePred P] : Decidable (∀ n, ast.Reaches n → P n) :=
  decidable_of_iff _ Ast.forall_reaches.symm

theorem Ast.every_of_reaches {P : Node Mark → Prop} (h : ∀ n, ast.Reaches n → P n) :
    ∀ root ∈ ast.roots, root.tree.Every P := by
  intro root hroot
  refine Tree.every_of_walkAll ast.trees none ?_ _ (List.mem_map_of_mem hroot)
  exact fun v hv _ => Ast.forall_reaches.mp h v hv

/-- What holds of the references of a file holds of every node that is one. -/
theorem Ast.every_of_customTypes {P : Node Mark → Prop} (h : ∀ n ∈ ast.customTypes, P n) :
    ∀ root ∈ ast.roots, root.tree.Every fun n => n.sort = .customType → P n := by
  intro root hroot
  refine Tree.every_of_walkAll ast.trees none ?_ _ (List.mem_map_of_mem hroot)
  intro v hv hentering hsort
  refine h v.node (List.mem_map.mpr ⟨(v.parent, v.node), ?_, rfl⟩)
  exact List.mem_map.mpr ⟨v, List.mem_filter.mpr ⟨hv, by simp [hentering, hsort]⟩, rfl⟩

/-! ## Below a node -/

variable {α : Type}

section Every

variable {name : String} {P : Node α → Prop}

theorem Literal.every_list {t : α} {items : List (Literal α)} : (Literal.list t items).tree.Every P ↔
    P (.literal (.list t items)) ∧ ∀ l ∈ items, l.tree.Every P := by
  rw [tree, Tree.every_node, trees_eq_map, List.forall_mem_map]

theorem Literal.every_tuple {t : α} {items : List (Literal α)} : (Literal.tuple t items).tree.Every P ↔
    P (.literal (.tuple t items)) ∧ ∀ l ∈ items, l.tree.Every P := by
  rw [tree, Tree.every_node, trees_eq_map, List.forall_mem_map]

theorem Literal.every_dict {t : α} {entries : List (Literal α × Literal α)} :
    (Literal.dict t entries).tree.Every P ↔
      P (.literal (.dict t entries)) ∧ ∀ e ∈ entries, e.1.tree.Every P ∧ e.2.tree.Every P := by
  rw [tree, Tree.every_node, entryTrees_eq_flatMap]
  simp only [List.mem_flatMap, List.mem_cons, List.not_mem_nil, or_false]
  grind

theorem Expr.every_binary {t : α} {op : Operator} {left right : Expr α} :
    (Expr.binary t op left right).tree.Every P ↔
      P (.expr (.binary t op left right)) ∧ left.tree.Every P ∧ right.tree.Every P := by
  simp [tree, Tree.every_node]

theorem Expr.every_unary {t : α} {op : Operator} {operand : Expr α} : (Expr.unary t op operand).tree.Every P ↔
    P (.expr (.unary t op operand)) ∧ operand.tree.Every P := by
  simp [tree, Tree.every_node]

theorem Expr.every_literal {t : α} {l : Literal α} : (Expr.literal t l).tree.Every P ↔
    P (.expr (.literal t l)) ∧ l.tree.Every P := by
  simp [tree, Tree.every_node]

theorem Expr.every_call {t : α} {args : List (Expr α)} : (Expr.call t name args).tree.Every P ↔
    P (.expr (.call t name args)) ∧ ∀ e ∈ args, e.tree.Every P := by
  rw [tree, Tree.every_node, trees_eq_map, List.forall_mem_map]

theorem TypeExpr.every_list {t : α} {element : TypeExpr α} : (TypeExpr.list t element).tree.Every P ↔
    P (.type (.list t element)) ∧ element.tree.Every P := by
  simp [tree, Tree.every_node]

theorem TypeExpr.every_map {t : α} {key value : TypeExpr α} : (TypeExpr.map t key value).tree.Every P ↔
    P (.type (.map t key value)) ∧ key.tree.Every P ∧ value.tree.Every P := by
  simp [tree, Tree.every_node]

theorem TypeExpr.every_tuple {t : α} {elements : List (TypeExpr α)} : (TypeExpr.tuple t elements).tree.Every P ↔
    P (.type (.tuple t elements)) ∧ ∀ e ∈ elements, e.tree.Every P := by
  rw [tree, Tree.every_node, trees_eq_map, List.forall_mem_map]

theorem forall_mem_optionTrees {β : Type} {Q : Tree (Node α) → Prop} {f : β → Tree (Node α)} {o : Option β} :
    (∀ t ∈ (o.map f).toList, Q t) ↔ ∀ b ∈ o, Q (f b) := by
  cases o <;> simp

theorem Fn.every_tree {d : Fn α} : d.tree.Every P ↔
    P (.fn d) ∧ (∀ p ∈ d.params, p.type.tree.Every P) ∧ ∀ t ∈ d.ret, t.tree.Every P := by
  rw [tree, Tree.every_node, List.forall_mem_append, Param.trees, List.forall_mem_map, forall_mem_optionTrees]

theorem Field.every_tree {d : Field α} : d.tree.Every P ↔
    P (.field d) ∧ d.type.tree.Every P ∧ ∀ v ∈ d.initial, v.tree.Every P := by
  rw [tree, Tree.every_node, List.forall_mem_cons, forall_mem_optionTrees]

theorem Node.every_interface {d : Interface α} : (Node.interface d).tree.Every P ↔
    P (.interface d) ∧ ∀ m ∈ d.members, m.tree.Every P := by
  rw [tree, Tree.every_node, List.forall_mem_map]

theorem Member.every_emit {d : Channel α} : (Member.emit d).tree.Every P ↔
    P (.emit d) ∧ ∀ p ∈ d.params, p.type.tree.Every P := by
  rw [tree, Tree.every_node, Param.trees, List.forall_mem_map]

theorem Member.every_prop {d : Channel α} : (Member.prop d).tree.Every P ↔
    P (.prop d) ∧ ∀ p ∈ d.params, p.type.tree.Every P := by
  rw [tree, Tree.every_node, Param.trees, List.forall_mem_map]

theorem Node.every_struct {d : Struct α} : (Node.struct d).tree.Every P ↔
    P (.struct d) ∧ ∀ f ∈ d.fields, f.tree.Every P := by
  rw [tree, Tree.every_node, List.forall_mem_map]

theorem Node.every_typedef {d : Typedef α} : (Node.typedef d).tree.Every P ↔
    P (.typedef d) ∧ d.type.tree.Every P := by
  rw [tree, Tree.every_node, List.forall_mem_singleton]

theorem Node.every_const {d : Const α} : (Node.const d).tree.Every P ↔
    P (.const d) ∧ (∀ t ∈ d.type, t.tree.Every P) ∧ d.value.tree.Every P := by
  rw [tree, Tree.every_node, List.forall_mem_append, forall_mem_optionTrees, List.forall_mem_singleton]

theorem Node.every_var {d : Var α} : (Node.var d).tree.Every P ↔
    P (.var d) ∧ (∀ t ∈ d.type, t.tree.Every P) ∧ ∀ v ∈ d.value, v.tree.Every P := by
  rw [tree, Tree.every_node, List.forall_mem_append, forall_mem_optionTrees, forall_mem_optionTrees]

theorem ObjectItem.every_property {t : α} {value : Value α} :
    (ObjectItem.property t name value).tree.Every P ↔
      P (.object (.property t name value)) ∧ value.tree.Every P := by
  simp [tree, Tree.every_node]

theorem ObjectItem.every_connect {t : α} {sender receiver : Value α} :
    (ObjectItem.connect t sender receiver).tree.Every P ↔
      P (.object (.connect t sender receiver)) ∧ sender.tree.Every P ∧ receiver.tree.Every P := by
  simp [tree, Tree.every_node]

theorem ObjectItem.every_object {t nameTag : α} {type : TypeExpr α} {body : List (ObjectItem α)} :
    (ObjectItem.object t type nameTag name body).tree.Every P ↔
      P (.object (.object t type nameTag name body)) ∧ type.tree.Every P ∧
        P (.literal (.string nameTag name)) ∧ ∀ o ∈ body, o.tree.Every P := by
  simp [tree, Literal.tree, Tree.every_node, trees_eq_map]

end Every

/-! ## Sound nodes -/

/-- Documentation whose lines fit on comment lines. -/
def IsDoc (doc : Option String) : Prop :=
  ∀ text ∈ doc, ∀ line ∈ Text.pieces '\n' text.toList, Lexeme.IsRemark line

theorem IsDoc.none : IsDoc none := fun _ h => nomatch h

/-- Parameters whose names, where they have one, are names. -/
def Param.Named (params : List (Param α)) : Prop := ∀ p ∈ params, ∀ name ∈ p.name, IsName name

/-- A value that is taken for an expression only if it is more than a literal. -/
def Value.Proper : Value α → Prop
  | .expr (.literal ..) => False
  | _ => True

/-- What an import names is spelled as names are, and a list of names is not empty. -/
def ImportScope.Sound : ImportScope → Prop
  | .names listed => listed ≠ [] ∧ ∀ name ∈ listed, IsName name
  | .package | .all => True

/-- The node is one that a parser can make, whatever stands below it. -/
def Node.Sound : Node α → Prop
  | .literal (.int _ value) => value < Lexeme.integerBound
  | .literal (.float _ value) => value.IsDouble
  | .literal _ => True
  | .expr (.binary _ op _ _) => op.isInfix = true ∨ op = .fetch
  | .expr (.unary _ op _) => op.isPrefix = true
  | .expr (.var _ name) | .expr (.call _ name _) => IsDotted name
  | .expr (.literal ..) => True
  | .type (.custom _ name) => IsDotted name ∧ Builtin.ofSpelling? name = none
  | .type _ => True
  | .interface d => IsName d.name ∧ (∀ name ∈ d.inherits, IsDotted name) ∧ IsDoc d.doc
  | .fn d => IsName d.name ∧ Param.Named d.params ∧ IsDoc d.doc
  | .emit d | .prop d => IsName d.name ∧ Param.Named d.params ∧ IsDoc d.doc
  | .struct d => IsName d.name ∧ (∀ name ∈ d.inherits, IsDotted name) ∧ IsDoc d.doc
  | .field d => IsName d.name ∧ ∀ v ∈ d.initial, v.Proper
  | .const d => IsName d.name ∧ d.value.Proper
  | .typedef d => IsName d.name
  | .enum d => IsName d.name ∧ IsDoc d.doc
  | .enumItem d => IsName d.name ∧ match d.meaning with | .const v => v.Proper | .type _ => True
  | .package _ name => IsDotted name
  | .imports d => IsDotted d.package ∧ d.scope.Sound
  | .object (.property _ name value) => IsName name ∧ value.Proper
  | .object (.connect _ sender receiver) => sender.Proper ∧ receiver.Proper
  | .object (.object ..) => True
  | .var d => IsName d.name ∧ ∀ v ∈ d.value, v.Proper
  | .comment _ text => Lexeme.IsRemark text.toList

/-- The node is of a sort that stands at the top of a file. -/
def Node.IsTop : Node α → Prop
  | .literal _ | .expr _ | .type _ | .emit _ | .prop _ | .field _ | .enumItem _ | .object (.property ..)
  | .object (.connect ..) => False
  | _ => True

end QiIdl
