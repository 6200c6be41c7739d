import Mathlib.Logic.Relation
import QiIdl.Proofs.Ast.Forest

/-!
# Nodes from the top down

The nodes that the top of a file leads to, one child after the other, are those that a walk enters
(`Ast.mem_preorder_iff`), and it enters each node before what stands below it, from left to right.
-/

namespace QiIdl

namespace Tree

variable {β : Type}

/-- A walk enters a tree at its label, and then the trees below. -/
theorem entered_walkAll (parent : Option β) (ts : List (Tree β)) :
    ((walkAll (fun _ => true) parent ts).filter (·.entering)).map (·.node) = (subtreesAll ts).map label := by
  induction ts using inductForest generalizing parent with
  | nil => rfl
  | cons b ts us hts hus =>
    rw [walkAll, walk, subtreesAll, subtrees, List.map_append, List.map_cons, ← hts (some b), ← hus parent]
    simp [label]

end Tree

namespace Ast

variable {ast : Ast} {n : Node Mark}

/-- The nodes that the top leads to, each before what stands below it, from left to right. -/
def preorder (ast : Ast) : List (Node Mark) := (Tree.subtreesAll ast.trees).map Tree.label

theorem map_find_true (ast : Ast) : (Tree.find (fun _ => true) ast.trees).map (·.2) = ast.preorder := by
  rw [preorder, ← Tree.entered_walkAll none, Tree.find, List.map_map]
  simp only [Bool.and_true]
  rfl

theorem mem_preorder : n ∈ ast.preorder ↔ ast.Reaches n := by
  rw [reaches_iff, preorder, (Tree.perm_map_labelAll ast.trees).mem_iff]

/-- The node stands at the top of the file, or below a node there, step by step. -/
def Descends (ast : Ast) (n : Node Mark) : Prop :=
  ∃ root ∈ ast.roots, Relation.ReflTransGen (fun a b => b ∈ a.children) root n

theorem descends_of_reaches (h : ast.Reaches n) : ast.Descends n := by
  -- the trees of nodes have trees of nodes below them, so what passes to children passes to all
  have hsub : ∀ t ∈ Tree.subtreesAll ast.trees, t = t.label.tree ∧ ast.Descends t.label := by
    refine Tree.forall_subtreesAll ?_ _ (List.forall_mem_map.mpr fun root hroot => ?_)
    · rintro t ⟨ht, root, hroot, hdown⟩ u hu
      have hchild : u.label ∈ t.label.children := by
        rw [Node.children, ← ht]
        exact List.mem_map_of_mem hu
      rw [ht, Node.tree_eq] at hu
      obtain ⟨child, -, rfl⟩ := List.mem_map.mp hu
      exact ⟨by rw [Node.label_tree], root, hroot, hdown.tail hchild⟩
    · rw [Node.label_tree]
      exact ⟨rfl, root, hroot, .refl⟩
  have hn := (hsub n.tree (tree_mem_subtreesAll h)).2
  rwa [Node.label_tree] at hn

theorem every_of_descends {P : Node Mark → Prop} (h : ∀ root ∈ ast.roots, root.tree.Every P) (hn : ast.Descends n) :
    n.tree.Every P := by
  obtain ⟨root, hroot, hdown⟩ := hn
  induction hdown with
  | refl => exact h root hroot
  | tail _ hchild ih =>
    rw [Node.tree_eq, ← Node.children_eq] at ih
    exact (Tree.every_node.mp ih).2 _ (List.mem_map_of_mem hchild)

/-- A walk enters just what the top leads to. -/
theorem mem_preorder_iff : n ∈ ast.preorder ↔ ast.Descends n := by
  rw [mem_preorder]
  refine ⟨descends_of_reaches, fun h => ?_⟩
  have hn := (every_of_descends (every_of_reaches fun _ hn => hn) h).label
  rwa [Node.label_tree] at hn

end Ast
end QiIdl
