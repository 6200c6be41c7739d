import QiIdl.Proofs.Format.RoundTrip
import QiIdl.Proofs.Format.Unambiguous

/-!
# The same syntax is written alike

Two nodes are the same syntax just if they are one and the same without their tags (`Node.same_iff`), so being the
same syntax is an equivalence. Neither canonical forms nor dumps show tags (`Node.written_erase`): files that are the
same syntax are written in one way, whatever the width of an indent.

The comparison goes down a node as a tree. In an arena the nodes below are also known by their numbers, and
these lead to the same nodes (`Ast.Linked`).
-/

namespace QiIdl

variable {α : Type}

/-! ## The same syntax, the same text -/

theorem Ast.canonical_congr {a b : Ast} (h : a.roots.map Node.erase = b.roots.map Node.erase) (width : Nat) :
    a.canonical width = b.canonical width := by
  have hshown (ast : Ast) : ast.roots.flatMap Node.canonicalTop = (ast.roots.map Node.erase).flatMap Node.canonicalTop := by
    simp only [List.flatMap_map, Node.canonicalTop_erase]
  rw [Ast.canonical, Ast.canonical, hshown a, hshown b, h]

theorem Ast.dump_congr {a b : Ast} (h : a.roots.map Node.erase = b.roots.map Node.erase) (width : Nat) :
    a.dump width = b.dump width := by
  have hshown (ast : Ast) : ast.roots.flatMap Node.dump = (ast.roots.map Node.erase).flatMap Node.dump := by
    simp only [List.flatMap_map, Node.written_erase]
  rw [Ast.dump, Ast.dump, hshown a, hshown b, h]

/-! ## Comparing files -/

/-- The numbers in an arena lead to the nodes that have them: those at the top, and those below any node. -/
structure Ast.Linked (ast : Ast) : Prop where
  roots : ∀ n ∈ ast.roots, ast.nodes[n.tag.id]? = some n
  below : ∀ n ∈ ast.nodes, ∀ child ∈ n.children, ast.nodes[child.tag.id]? = some child

theorem Ast.linked_of_laid {ast : Ast} (h : Laid ast.nodes ast.trees) : ast.Linked where
  roots _ hn := h.getElem?_of_mem (Ast.mem_nodes_of_mem_roots h hn)
  below n hn child hchild := h.getElem?_of_mem (h.below n hn child hchild).1

/-- What is compared by what a function makes of it is an equivalence. -/
theorem equivalence_of_iff {β γ : Type} {same : β → β → Bool} {view : β → γ}
    (h : ∀ b c, same b c = true ↔ view b = view c) : Equivalence fun b c => same b c = true where
  refl b := (h b b).mpr rfl
  symm hbc := (h _ _).mpr ((h _ _).mp hbc).symm
  trans hbc hcd := (h _ _).mpr (((h _ _).mp hbc).trans ((h _ _).mp hcd))

/-- In files that were read, the numbers lead to the nodes below. Two nodes are the same syntax exactly if they are
equal trees but for their tags, which makes an equivalence of it. Files are the same syntax exactly if this holds of
what is at their tops; then they have the same canonical form and the same dump, whatever the width of an indent. -/
theorem same_iff_erase_eq {source source' file file' : String} {a b : Ast} (ha : parseSource source file = .ok a)
    (hb : parseSource source' file' = .ok b) :
    (a.Linked ∧ b.Linked) ∧
    (∀ x ∈ a.nodes, ∀ y ∈ b.nodes, x.same y = true ↔ x.erase = y.erase) ∧
    (Equivalence fun x y : Node Mark => x.same y = true) ∧
    (a.same b = true ↔ a.roots.map Node.erase = b.roots.map Node.erase) ∧
    (Equivalence fun a b : Ast => a.same b = true) ∧
    (a.same b = true → ∀ width, a.canonical width = b.canonical width ∧ a.dump width = b.dump width) := by
  refine ⟨⟨Ast.linked_of_laid (laid_of_parseSource ha), Ast.linked_of_laid (laid_of_parseSource hb)⟩,
    fun x _ y _ => Node.same_iff, equivalence_of_iff fun _ _ => Node.same_iff, Ast.same_iff,
    equivalence_of_iff fun _ _ => Ast.same_iff, fun h width => ?_⟩
  have hsyntax := Ast.same_iff.mp h
  exact ⟨Ast.canonical_congr hsyntax width, Ast.dump_congr hsyntax width⟩

/-- Spaces, line ends, grouping brackets and the base of a number make no difference. A parameter and a return value
do, though the types are the same. -/
theorem same_iff_erase_eq_set :
    let spaced := "fn set(int) -> str\nconst c = 0x10\n"
    let packed := "fn set( int )->str\n\nconst c=(16)"
    let other := "fn set(int, str)\nconst c = 16\n"
    ∃ a b c, parseSource spaced "a.qi" = .ok a ∧ parseSource packed "b.qi" = .ok b ∧
      parseSource other "c.qi" = .ok c ∧ a.same b = true ∧ a.canonical 2 = b.canonical 2 ∧ a.dump 4 = b.dump 4 ∧
      a.same c = false ∧ a.roots.map Node.erase ≠ c.roots.map Node.erase := by
  intro spaced packed other
  have hread : (parseSource spaced "a.qi").toOption.any (fun a => (parseSource packed "b.qi").toOption.any fun b =>
      (parseSource other "c.qi").toOption.any fun c => a.same b && !a.same c) = true := by
    decide +kernel
  obtain ⟨a, ha, hread⟩ := exists_ok_of_any hread
  obtain ⟨b, hb, hread⟩ := exists_ok_of_any hread
  obtain ⟨c, hc, hread⟩ := exists_ok_of_any hread
  simp only [Bool.and_eq_true, Bool.not_eq_true'] at hread
  obtain ⟨hsame, hother⟩ := hread
  obtain ⟨-, -, -, -, -, hwritten⟩ := same_iff_erase_eq ha hb
  obtain ⟨-, -, -, hiff, -, -⟩ := same_iff_erase_eq ha hc
  refine ⟨a, b, c, ha, hb, hc, hsame, (hwritten hsame 2).1, (hwritten hsame 4).2, hother, ?_⟩
  rw [ne_eq, ← hiff, hother]
  exact Bool.false_ne_true

end QiIdl
