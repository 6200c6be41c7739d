import QiIdl.Ast.Tree

/-!
# Walking a tree

A walk goes through a tree depth first. It enters a node before it visits what is below, in order, and leaves
it after that; it may pass over what is below a node, which is then entered and left all the same.
-/

namespace QiIdl

/-- A moment of a walk: a node is entered or left, below its parent or at the top. -/
structure Visit (β : Type) where
  entering : Bool
  parent : Option β
  node : β

namespace Tree

variable {β : Type}

mutual

/-- The visits of a walk through a tree, down from those nodes that `descend` lets through. -/
def walk (descend : β → Bool) (parent : Option β) : Tree β → List (Visit β)
  | node b ts =>
    ⟨true, parent, b⟩ :: ((if descend b then walkAll descend (some b) ts else []) ++ [⟨false, parent, b⟩])

/-- The visits of a walk through some trees, one after the other. -/
def walkAll (descend : β → Bool) (parent : Option β) : List (Tree β) → List (Visit β)
  | [] => []
  | t :: ts => walk descend parent t ++ walkAll descend parent ts

end

/-- The labels of some trees that satisfy a test, with their parents, in the order a walk enters them. -/
def find (p : β → Bool) (ts : List (Tree β)) : List (Option β × β) :=
  ((walkAll (fun _ => true) none ts).filter fun v => v.entering && p v.node).map fun v => (v.parent, v.node)

end Tree
end QiIdl
