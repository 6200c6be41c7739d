import QiIdl.Ast.Tree
import QiIdl.Proofs.Bind

/-!
# One level of a tree

A node is a sort, a payload and the nodes right below it, whatever syntax it is. `Node.below` lists these nodes;
the tree of a node is the node above their trees (`Node.tree_eq`), so what passes from the nodes below to the node
holds of every node (`Node.induct`), and a node without tags is known from its parts (`Node.eq_of_below`).
-/

namespace QiIdl

/-- A function that goes down a list item by item is a map. -/
theorem eq_map_of_cons {A B : Type} {f : A → B} {g : List A → List B} (hnil : g [] = [])
    (hcons : ∀ a as, g (a :: as) = f a :: g as) (as : List A) : g as = as.map f := by
  induction as with
  | nil => exact hnil
  | cons a as ih => rw [hcons, ih, List.map_cons]

namespace Tree

variable {β γ δ : Type}

mutual

/-- A tree with other labels. -/
def map (f : β → γ) : Tree β → Tree γ
  | node b ts => node (f b) (mapAll f ts)

def mapAll (f : β → γ) : List (Tree β) → List (Tree γ)
  | [] => []
  | t :: ts => map f t :: mapAll f ts

end

theorem mapAll_eq_map (f : β → γ) (ts : List (Tree β)) : mapAll f ts = ts.map (map f) :=
  eq_map_of_cons rfl (fun _ _ => rfl) ts

theorem map_node (f : β → γ) (b : β) (ts : List (Tree β)) : (node b ts).map f = node (f b) (ts.map (map f)) := by
  rw [map, mapAll_eq_map]

/-- Trees one behind the other: what passes from those below the top of the first and from the others to all of them
holds of all lists of trees. -/
theorem inductForest {P : List (Tree β) → Prop} (nil : P [])
    (cons : ∀ b ts us, P ts → P us → P (node b ts :: us)) : ∀ ts, P ts
  | [] => nil
  | node b ts :: us => cons b ts us (inductForest nil cons ts) (inductForest nil cons us)

/-- What passes from the trees right below to a tree holds of every tree. -/
theorem induct {P : Tree β → Prop} (h : ∀ b ts, (∀ t ∈ ts, P t) → P (node b ts)) (t : Tree β) : P t := by
  have hall (ts : List (Tree β)) : ∀ t ∈ ts, P t := by
    induction ts using inductForest with
    | nil => exact List.forall_mem_nil _
    | cons b ts us hts hus => exact List.forall_mem_cons.mpr ⟨h b ts hts, hus⟩
  exact hall [t] t List.mem_cons_self

theorem map_map (f : β → γ) (g : γ → δ) (t : Tree β) : (t.map f).map g = t.map (g ∘ f) := by
  induction t using induct with
  | h b ts ih =>
    rw [map_node, map_node, map_node, List.map_map]
    exact congrArg (node (g (f b))) (List.map_congr_left ih)

mutual

/-- Trees agree just if they look the same. -/
theorem agree_iff {f : β → γ} {same : β → β → Bool} (hsame : ∀ a b, same a b = true ↔ f a = f b) :
    ∀ {t u : Tree β}, t.agree same u = true ↔ t.map f = u.map f
  | node a ts, node b us => by
    rw [agree, Bool.and_eq_true, hsame, agreeAll_iff hsame, map_node, map_node, node.injEq]

theorem agreeAll_iff {f : β → γ} {same : β → β → Bool} (hsame : ∀ a b, same a b = true ↔ f a = f b) :
    ∀ {ts us : List (Tree β)}, agreeAll same ts us = true ↔ ts.map (map f) = us.map (map f)
  | [], [] | [], _ :: _ | _ :: _, [] => by simp [agreeAll]
  | t :: ts, u :: us => by
    rw [agreeAll, Bool.and_eq_true, agree_iff hsame, agreeAll_iff hsame, List.map_cons, List.map_cons, List.cons.injEq]

end

end Tree

/-- Lists that look the same one way look the same another, if their members do. -/
theorem map_eq_of_map {A B C D : Type} {f : A → C} {f' : B → C} {g : A → D} {g' : B → D} {as : List A} {bs : List B}
    (h : as.map f = bs.map f') (hmem : ∀ a ∈ as, ∀ b ∈ bs, f a = f' b → g a = g' b) : as.map g = bs.map g' := by
  induction as generalizing bs with
  | nil => cases bs with
    | nil => rfl
    | cons b bs => cases h
  | cons a as ih => cases bs with
    | nil => cases h
    | cons b bs =>
      obtain ⟨hhead, htail⟩ := List.cons.inj h
      have hrest := ih htail fun a ha b hb => hmem a (List.mem_cons_of_mem _ ha) b (List.mem_cons_of_mem _ hb)
      rw [List.map_cons, List.map_cons, hmem a List.mem_cons_self b List.mem_cons_self hhead, hrest]

variable {α : Type}

/-! ## The nodes below -/

theorem Literal.trees_eq_map (ls : List (Literal α)) : Literal.trees ls = ls.map Literal.tree :=
  eq_map_of_cons rfl (fun _ _ => rfl) ls

theorem Literal.entryTrees_eq_flatMap (es : List (Literal α × Literal α)) :
    Literal.entryTrees es = es.flatMap fun e => [e.1.tree, e.2.tree] := by
  induction es with
  | nil => rfl
  | cons e es ih => rw [entryTrees, ih]; rfl

theorem Expr.trees_eq_map (es : List (Expr α)) : Expr.trees es = es.map Expr.tree :=
  eq_map_of_cons rfl (fun _ _ => rfl) es

theorem TypeExpr.trees_eq_map (ts : List (TypeExpr α)) : TypeExpr.trees ts = ts.map TypeExpr.tree :=
  eq_map_of_cons rfl (fun _ _ => rfl) ts

theorem ObjectItem.trees_eq_map (os : List (ObjectItem α)) : ObjectItem.trees os = os.map ObjectItem.tree :=
  eq_map_of_cons rfl (fun _ _ => rfl) os

/-- The nodes right below a node, case by case. -/
def Node.below : Node α → List (Node α)
  | .literal (.list _ items) | .literal (.tuple _ items) => items.map .literal
  | .literal (.dict _ entries) => entries.flatMap fun e => [.literal e.1, .literal e.2]
  | .literal _ => []
  | .expr (.binary _ _ left right) => [.expr left, .expr right]
  | .expr (.unary _ _ operand) => [.expr operand]
  | .expr (.var ..) => []
  | .expr (.literal _ l) => [.literal l]
  | .expr (.call _ _ args) => args.map .expr
  | .type (.list _ element) => [.type element]
  | .type (.map _ key value) => [.type key, .type value]
  | .type (.tuple _ elements) => elements.map .type
  | .type _ => []
  | .interface d => d.members.map Member.node
  | .fn d => d.params.map (.type ·.type) ++ (d.ret.map .type).toList
  | .emit d | .prop d => d.params.map (.type ·.type)
  | .struct d => d.fields.map .field
  | .field d => .type d.type :: (d.initial.map Value.node).toList
  | .const d => (d.type.map .type).toList ++ [d.value.node]
  | .typedef d => [.type d.type]
  | .enum d => d.items.map .enumItem
  | .enumItem d => [match d.meaning with | .const v => v.node | .type t => .type t]
  | .package .. | .imports _ | .comment .. => []
  | .object (.property _ _ value) => [value.node]
  | .object (.connect _ sender receiver) => [sender.node, receiver.node]
  | .object (.object _ t nameTag name body) => .type t :: .literal (.string nameTag name) :: body.map .object
  | .var d => (d.type.map .type).toList ++ (d.value.map Value.node).toList

theorem Value.tree_node (v : Value α) : v.node.tree = v.tree := by
  cases v <;> rfl

theorem Member.tree_node (m : Member α) : m.node.tree = m.tree := by
  cases m <;> rfl

/-- A tree, one level at a time. -/
theorem Node.tree_eq (n : Node α) : n.tree = .node n (n.below.map tree) := by
  have hparams (params : List (Param α)) :
      (params.map fun p => Node.type p.type).map tree = Param.trees params := by
    rw [List.map_map]
    rfl
  have htype (type : Option (TypeExpr α)) : (type.map Node.type).toList.map tree = (type.map (·.tree)).toList := by
    cases type <;> rfl
  have hvalue (value : Option (Value α)) : (value.map Value.node).toList.map tree = (value.map (·.tree)).toList := by
    cases value with
    | none => rfl
    | some v => exact congrArg (fun t => [t]) v.tree_node
  cases n with
  | literal l =>
    cases l with
    | list _ items => rw [tree, Literal.tree, Literal.trees_eq_map, below, List.map_map]; rfl
    | tuple _ items => rw [tree, Literal.tree, Literal.trees_eq_map, below, List.map_map]; rfl
    | dict _ entries => rw [tree, Literal.tree, Literal.entryTrees_eq_flatMap, below, List.map_flatMap]; rfl
    | _ => rfl
  | expr e =>
    cases e with
    | call _ _ args => rw [tree, Expr.tree, Expr.trees_eq_map, below, List.map_map]; rfl
    | _ => rfl
  | type t =>
    cases t with
    | tuple _ elements => rw [tree, TypeExpr.tree, TypeExpr.trees_eq_map, below, List.map_map]; rfl
    | _ => rfl
  | interface d =>
    rw [tree, below, List.map_map]
    exact congrArg _ (List.map_congr_left fun m _ => m.tree_node.symm)
  | fn d => rw [tree, Fn.tree, below, List.map_append, hparams, htype]
  | emit d => rw [tree, Member.tree, below, hparams]
  | prop d => rw [tree, Member.tree, below, hparams]
  | struct d => rw [tree, below, List.map_map]; rfl
  | field d => rw [tree, Field.tree, below, List.map_cons, hvalue]; rfl
  | const d =>
    rw [tree, below, List.map_append, htype]
    exact congrArg (fun t => Tree.node _ (_ ++ [t])) d.value.tree_node.symm
  | enum d => rw [tree, below, List.map_map]; rfl
  | enumItem d =>
    rw [tree, EnumItem.tree, below]
    cases d.meaning with
    | const v => exact congrArg (fun t => Tree.node _ [t]) v.tree_node.symm
    | type t => rfl
  | object o =>
    cases o with
    | property _ _ value => exact congrArg (fun t => Tree.node _ [t]) value.tree_node.symm
    | connect _ sender receiver =>
      rw [tree, ObjectItem.tree, ← sender.tree_node, ← receiver.tree_node]
      rfl
    | object _ type nameTag name body =>
      rw [tree, ObjectItem.tree, ObjectItem.trees_eq_map, below, List.map_cons, List.map_cons, List.map_map]
      rfl
  | var d => rw [tree, below, List.map_append, htype, hvalue]
  | _ => rfl

theorem Node.label_tree (n : Node α) : n.tree.label = n := by
  rw [tree_eq, Tree.label]

theorem Node.children_eq (n : Node α) : n.children = n.below := by
  rw [children, tree_eq, Tree.children, List.map_map]
  exact List.map_id'' label_tree _

/-- What passes from the nodes right below to a node holds of every node. -/
theorem Node.induct {P : Node α → Prop} (h : ∀ n, (∀ child ∈ n.below, P child) → P n) (n : Node α) : P n := by
  generalize ht : n.tree = t
  induction t using Tree.induct generalizing n with
  | h b ts ih =>
    refine h n fun child hchild => ih child.tree ?_ child rfl
    rw [tree_eq, Tree.node.injEq] at ht
    exact ht.2 ▸ List.mem_map_of_mem hchild

/-! ## A node from its parts -/

namespace Node

/-- The literal that a node is. -/
def literal? : Node α → Option (Literal α)
  | literal l => some l
  | _ => none

def expr? : Node α → Option (Expr α)
  | expr e => some e
  | _ => none

def type? : Node α → Option (TypeExpr α)
  | type t => some t
  | _ => none

def value? : Node α → Option (Value α)
  | literal l => some (.literal l)
  | expr e => some (.expr e)
  | _ => none

def member? : Node α → Option (Member α)
  | fn d => some (.fn d)
  | emit d => some (.emit d)
  | prop d => some (.prop d)
  | _ => none

def field? : Node α → Option (Field α)
  | field d => some d
  | _ => none

def enumItem? : Node α → Option (EnumItem α)
  | enumItem d => some d
  | _ => none

def object? : Node α → Option (ObjectItem α)
  | object o => some o
  | _ => none

/-- Literals two by two. -/
def paired : List (Literal α) → List (Literal α × Literal α)
  | key :: value :: rest => (key, value) :: paired rest
  | _ => []

/-- The node without tags that has a sort, a payload and some nodes right below it. -/
def ofParts (below : List (Node Unit)) : NodeSort → Payload → Option (Node Unit)
  | .boolLiteral, .bool v => some (literal (.bool () v))
  | .intLiteral, .int v => some (literal (.int () v))
  | .floatLiteral, .float v => some (literal (.float () v))
  | .stringLiteral, .text v => some (literal (.string () v))
  | .listLiteral, _ => some (literal (.list () (below.filterMap literal?)))
  | .tupleLiteral, _ => some (literal (.tuple () (below.filterMap literal?)))
  | .dictLiteral, _ => some (literal (.dict () (paired (below.filterMap literal?))))
  | .binary, .operator op => do return expr (.binary () op (← below[0]?.bind expr?) (← below[1]?.bind expr?))
  | .unary, .operator op => do return expr (.unary () op (← below[0]?.bind expr?))
  | .var, .text name => some (expr (.var () name))
  | .literalExpr, _ => do return expr (.literal () (← below[0]?.bind literal?))
  | .call, .text name => some (expr (.call () name (below.filterMap expr?)))
  | .builtinType, .builtin b => some (type (.builtin () b))
  | .customType, .text name => some (type (.custom () name))
  | .listType, _ => do return type (.list () (← below[0]?.bind type?))
  | .mapType, _ => do return type (.map () (← below[0]?.bind type?) (← below[1]?.bind type?))
  | .tupleType, _ => some (type (.tuple () (below.filterMap type?)))
  | .interface, .inheriting name doc inherits => some (interface ⟨(), name, inherits, below.filterMap member?, doc⟩)
  | .fn, .taking name doc names =>
    let types := below.filterMap type?
    some (fn ⟨(), name, names.zipWith Param.mk types, types[names.length]?, doc⟩)
  | .emit, .taking name doc names => some (emit ⟨(), name, names.zipWith Param.mk (below.filterMap type?), doc⟩)
  | .prop, .taking name doc names => some (prop ⟨(), name, names.zipWith Param.mk (below.filterMap type?), doc⟩)
  | .struct, .inheriting name doc inherits => some (struct ⟨(), name, inherits, below.filterMap field?, doc⟩)
  | .field, .declared name _ => do return field ⟨(), name, ← below[0]?.bind type?, below[1]?.bind value?⟩
  | .const, .declared name _ => do return const ⟨(), name, below[0]?.bind type?, ← below.getLast?.bind value?⟩
  | .typedef, .declared name _ => do return typedef ⟨(), name, ← below[0]?.bind type?⟩
  | .enum, .declared name doc => some (enum ⟨(), name, below.filterMap enumItem?, doc⟩)
  | .enumItem, .meaning name true => do return enumItem ⟨(), name, .type (← below[0]?.bind type?)⟩
  | .enumItem, .meaning name false => do return enumItem ⟨(), name, .const (← below[0]?.bind value?)⟩
  | .package, .text name => some (package () name)
  | .imports, .imports name scope => some (imports ⟨(), name, scope⟩)
  | .property, .text name => do return object (.property () name (← below[0]?.bind value?))
  | .connect, _ => do return object (.connect () (← below[0]?.bind value?) (← below[1]?.bind value?))
  | .object, _ => match below with
    | type t :: literal (.string _ name) :: body => some (object (.object () t () name (body.filterMap object?)))
    | _ => none
  | .varDef, .var name _ _ => some (var ⟨(), name, below[0]?.bind type?, below.getLast?.bind value?⟩)
  | .comment, .text text => some (comment () text)
  | _, _ => none

theorem paired_flatMap (es : List (Literal α × Literal α)) :
    paired ((es.flatMap fun e => [literal e.1, literal e.2]).filterMap literal?) = es := by
  induction es with
  | nil => rfl
  | cons e es ih =>
    rw [List.flatMap_cons, List.filterMap_append, List.filterMap_cons]
    exact congrArg (e :: ·) ih

theorem value?_node (v : Value α) : v.node.value? = some v := by
  cases v <;> rfl

theorem type?_node (v : Value α) : v.node.type? = none := by
  cases v <;> rfl

theorem value?_type (t : TypeExpr α) : (type t).value? = none := rfl

theorem member?_node (m : Member α) : m.node.member? = some m := by
  cases m <;> rfl

theorem zipWith_params (ps : List (Param α)) (rest : List (TypeExpr α)) :
    (ps.map (·.name)).zipWith Param.mk (ps.map (·.type) ++ rest) = ps := by
  induction ps with
  | nil => rfl
  | cons p ps ih => simp [ih]

/-- A node without tags is known from its sort, its payload and the nodes right below it. -/
theorem ofParts_eq (n : Node Unit) : ofParts n.below n.sort n.payload = some n := by
  cases n with
  | literal l =>
    cases l <;> simp [ofParts, below, sort, payload, Literal.sort, Literal.payload, Function.comp_def, literal?,
      paired_flatMap]
  | expr e =>
    cases e <;> simp [ofParts, below, sort, payload, Expr.sort, Expr.payload, Function.comp_def, literal?, expr?]
  | type t =>
    cases t <;> simp [ofParts, below, sort, payload, TypeExpr.sort, TypeExpr.payload, Function.comp_def, type?]
  | interface d => simp [ofParts, below, sort, payload, member?_node]
  | fn d =>
    obtain ⟨_, _, params, ret, _⟩ := d
    have hparams := zipWith_params params []
    rw [List.append_nil] at hparams
    cases ret <;> simp [ofParts, below, sort, payload, Function.comp_def, type?, hparams, zipWith_params]
  | emit d | prop d =>
    have hparams := zipWith_params d.params []
    rw [List.append_nil] at hparams
    simp [ofParts, below, sort, payload, Function.comp_def, type?, hparams]
  | struct d => simp [ofParts, below, sort, payload, Function.comp_def, field?]
  | field d =>
    obtain ⟨_, _, _, initial⟩ := d
    cases initial <;> simp [ofParts, below, sort, payload, type?, value?_node]
  | const d =>
    obtain ⟨_, _, t, _⟩ := d
    cases t with
    | none => simp [ofParts, below, sort, payload, type?_node, value?_node]
    | some t => simp [ofParts, below, sort, payload, type?, value?_node]
  | typedef d => simp [ofParts, below, sort, payload, type?]
  | enum d => simp [ofParts, below, sort, payload, Function.comp_def, enumItem?]
  | enumItem d =>
    obtain ⟨_, _, meaning⟩ := d
    cases meaning <;> simp [ofParts, below, sort, payload, EnumMeaning.isType, type?, value?_node]
  | object o =>
    cases o <;> simp [ofParts, below, sort, payload, ObjectItem.sort, ObjectItem.payload, Function.comp_def, object?,
      value?_node]
  | var d =>
    obtain ⟨_, _, t, value⟩ := d
    have htype (t : TypeExpr Unit) : (type t).type? = some t := rfl
    cases t <;> cases value <;> simp [ofParts, below, sort, payload, htype, type?_node, value?_node, value?_type]
  | package | imports | comment => rfl

theorem eq_of_below {x y : Node Unit} (hsort : x.sort = y.sort) (hpayload : x.payload = y.payload)
    (hbelow : x.below = y.below) : x = y := by
  have hparts := x.ofParts_eq
  rw [hsort, hpayload, hbelow, y.ofParts_eq] at hparts
  exact (Option.some.inj hparts).symm

end Node

end QiIdl
