import QiIdl.Ast.Walk
import QiIdl.Source.Position

/-!
# Arenas

The nodes of a file are numbered, so that other tables can speak about them. A node gets its number when it has been
read, and is entered in the arena then. So numbers go from the leaves up and from left to right: a node comes after
everything below it. A literal that stands where an expression may stand is read as an expression first, and that
expression keeps a number of its own right after the literal, even where the tree holds the bare literal.
-/

namespace QiIdl

/-- The number of a node, and the bytes it was read from. -/
structure Mark where
  id : Nat
  span : Span
deriving DecidableEq, Repr

/-- Nodes by number. -/
abbrev Arena := Array (Node Mark)

/-- The nodes of a file by number, and those at the top, in source order. Where the lines of the text start is
kept to show places. -/
structure Ast where
  file : String
  lines : LineIndex
  nodes : Arena
  roots : List (Node Mark)

/-- How the nodes that are read are kept: each gets a tag, made of the span it was read from and of what is kept so
far. -/
class Keeping (σ : Type) (α : outParam Type) where
  keep : Span → (α → Node α) → σ → α × σ
  span : α → Span

/-- In an arena, a node is entered under the next number. -/
instance : Keeping Arena Mark where
  keep span node nodes :=
    let mark := ⟨nodes.size, span⟩
    (mark, nodes.push (node mark))
  span := Mark.span

/-- Where nothing is kept, trees are all there is, and their tags are spans. -/
instance : Keeping Unit Span where
  keep span _ kept := (span, kept)
  span := id

namespace Ast

/-- The same arena with other nodes at the top, given by number. Numbers that no node has are left out. -/
def withRoots (ast : Ast) (ids : List Nat) : Ast :=
  { ast with roots := ids.filterMap (ast.nodes[·]?) }

/-- Where a stretch of the file is. -/
def locate (ast : Ast) (span : Span) : Location :=
  ⟨some ast.file, ast.lines.position span.start, ast.lines.position span.stop⟩

/-- Where a node of the file is. -/
def location (ast : Ast) (n : Node Mark) : Location := ast.locate n.tag.span

def trees (ast : Ast) : List (Tree (Node Mark)) := ast.roots.map (·.tree)

/-- Whether two files are the same syntax, whatever their numbers and spans. -/
def same (a b : Ast) : Bool := Tree.agreeAll Node.alike a.trees b.trees

/-- The references to custom types below the top, in source order. -/
def customTypes (ast : Ast) : List (Node Mark) :=
  (Tree.find (fun n => n.sort == .customType) ast.trees).map (·.2)

/-- The top-level interfaces, in source order. -/
def interfaces (ast : Ast) : List (Interface Mark) :=
  ast.roots.filterMap fun | .interface d => some d | _ => none

end Ast
end QiIdl
