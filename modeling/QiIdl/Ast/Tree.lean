import QiIdl.Ast.Node

/-!
# The uniform view of a syntax tree

Traversals do not care what a node is, only what stands below it. `Node.tree` shows any node as an ordered tree
whose labels are nodes: each label is followed by the trees of its children, in source order.
-/

namespace QiIdl

/-- An ordered tree. -/
inductive Tree (β : Type) where
  | node (label : β) (children : List (Tree β))

namespace Tree

variable {β : Type}

def label : Tree β → β
  | node b _ => b

/-- The trees right below the top. -/
def children : Tree β → List (Tree β)
  | node _ ts => ts

mutual

/-- Whether two trees have the same shape and labels that agree. -/
def agree (same : β → β → Bool) : Tree β → Tree β → Bool
  | node a as, node b bs => same a b && agreeAll same as bs

/-- Whether two lists of trees are equally long and agree one by one. -/
def agreeAll (same : β → β → Bool) : List (Tree β) → List (Tree β) → Bool
  | [], [] => true
  | a :: as, b :: bs => agree same a b && agreeAll same as bs
  | _, _ => false

end

end Tree

variable {α : Type}

mutual

/-- The tree below a literal. A dictionary has its keys and values as children, alternating. -/
def Literal.tree : Literal α → Tree (Node α)
  | .list t items => .node (.literal (.list t items)) (Literal.trees items)
  | .tuple t items => .node (.literal (.tuple t items)) (Literal.trees items)
  | .dict t entries => .node (.literal (.dict t entries)) (Literal.entryTrees entries)
  | .bool t v => .node (.literal (.bool t v)) []
  | .int t v => .node (.literal (.int t v)) []
  | .float t v => .node (.literal (.float t v)) []
  | .string t v => .node (.literal (.string t v)) []

def Literal.trees : List (Literal α) → List (Tree (Node α))
  | [] => []
  | l :: ls => l.tree :: Literal.trees ls

/-- The trees below the entries of a dictionary. -/
def Literal.entryTrees : List (Literal α × Literal α) → List (Tree (Node α))
  | [] => []
  | (key, value) :: rest => key.tree :: value.tree :: Literal.entryTrees rest

end

mutual

def Expr.tree : Expr α → Tree (Node α)
  | .binary t op left right => .node (.expr (.binary t op left right)) [left.tree, right.tree]
  | .unary t op operand => .node (.expr (.unary t op operand)) [operand.tree]
  | .var t name => .node (.expr (.var t name)) []
  | .literal t l => .node (.expr (.literal t l)) [l.tree]
  | .call t name args => .node (.expr (.call t name args)) (Expr.trees args)

def Expr.trees : List (Expr α) → List (Tree (Node α))
  | [] => []
  | e :: es => e.tree :: Expr.trees es

end

mutual

def TypeExpr.tree : TypeExpr α → Tree (Node α)
  | .builtin t type => .node (.type (.builtin t type)) []
  | .custom t name => .node (.type (.custom t name)) []
  | .list t element => .node (.type (.list t element)) [element.tree]
  | .map t key value => .node (.type (.map t key value)) [key.tree, value.tree]
  | .tuple t elements => .node (.type (.tuple t elements)) (TypeExpr.trees elements)

def TypeExpr.trees : List (TypeExpr α) → List (Tree (Node α))
  | [] => []
  | t :: ts => t.tree :: TypeExpr.trees ts

end

def Value.tree : Value α → Tree (Node α)
  | .literal l => l.tree
  | .expr e => e.tree

/-- The trees below some parameters: those of their types. -/
def Param.trees (params : List (Param α)) : List (Tree (Node α)) := params.map (·.type.tree)

/-- The tree below a function: the types of its parameters, then what it returns. -/
def Fn.tree (d : Fn α) : Tree (Node α) :=
  .node (.fn d) (Param.trees d.params ++ (d.ret.map (·.tree)).toList)

def Member.tree : Member α → Tree (Node α)
  | .fn d => d.tree
  | .emit d => .node (.emit d) (Param.trees d.params)
  | .prop d => .node (.prop d) (Param.trees d.params)

/-- The tree below a field: its type, then its initial value. -/
def Field.tree (d : Field α) : Tree (Node α) :=
  .node (.field d) (d.type.tree :: (d.initial.map (·.tree)).toList)

/-- The tree below an entry of an enumeration. -/
def EnumItem.tree (d : EnumItem α) : Tree (Node α) :=
  .node (.enumItem d) [match d.meaning with | .const value => value.tree | .type type => type.tree]

mutual

/-- The tree below an object or a line of its body. An object has its type, its name and then its body. -/
def ObjectItem.tree : ObjectItem α → Tree (Node α)
  | .property t name value => .node (.object (.property t name value)) [value.tree]
  | .connect t sender receiver =>
    .node (.object (.connect t sender receiver)) [sender.tree, receiver.tree]
  | .object t type nameTag name body =>
    .node (.object (.object t type nameTag name body))
      (type.tree :: (Literal.string nameTag name).tree :: ObjectItem.trees body)

/-- The trees below the lines of a body. -/
def ObjectItem.trees : List (ObjectItem α) → List (Tree (Node α))
  | [] => []
  | o :: os => o.tree :: ObjectItem.trees os

end

namespace Node

def tree : Node α → Tree (Node α)
  | literal l => l.tree
  | expr e => e.tree
  | type t => t.tree
  | interface d => .node (.interface d) (d.members.map (·.tree))
  | fn d => d.tree
  | emit d => (Member.emit d).tree
  | prop d => (Member.prop d).tree
  | struct d => .node (.struct d) (d.fields.map (·.tree))
  | field d => d.tree
  | const d => .node (.const d) ((d.type.map (·.tree)).toList ++ [d.value.tree])
  | typedef d => .node (.typedef d) [d.type.tree]
  | enum d => .node (.enum d) (d.items.map (·.tree))
  | enumItem d => d.tree
  | package t name => .node (.package t name) []
  | imports s => .node (.imports s) []
  | object s => s.tree
  | var s => .node (.var s) ((s.type.map (·.tree)).toList ++ (s.value.map (·.tree)).toList)
  | comment t text => .node (.comment t text) []

/-- The nodes right below a node, in source order. -/
def children (n : Node α) : List (Node α) := n.tree.children.map (·.label)

/-- Whether two nodes are of one sort and say the same, whatever stands below them. -/
def alike (a b : Node α) : Bool := a.sort == b.sort && a.payload == b.payload

/-- Whether two nodes are the same syntax: alike, with children that are the same syntax. Tags do not count. -/
def same (a b : Node α) : Bool := a.tree.agree alike b.tree

end Node
end QiIdl
