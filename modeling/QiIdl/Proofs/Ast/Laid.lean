import QiIdl.Proofs.Ast.Erase

/-!
# Trees in an arena

Reading works like a machine with a stack of trees. Reading a part of the syntax puts its tree on the stack;
entering a node takes the trees of its children off and puts the tree of the node on. At each moment the stack
is *laid out* in the arena: every label is a node of the arena, and in the order from the leaves up and from left
to right the numbers of the labels increase (`Laid`). What a reader does is seen on top of any stack (`Grows`).

So in an arena each node stands at its own number (`Laid.getElem?`), and no two places below the top share one.
-/

namespace QiIdl

namespace Tree

variable {β : Type}

mutual

/-- The labels of a tree, from the leaves up and from left to right. -/
def post : Tree β → List β
  | node b ts => postAll ts ++ [b]

/-- The labels of some trees, from the leaves up and from left to right. -/
def postAll : List (Tree β) → List β
  | [] => []
  | t :: ts => post t ++ postAll ts

end

theorem postAll_append (ts us : List (Tree β)) : postAll (ts ++ us) = postAll ts ++ postAll us := by
  induction ts with
  | nil => rfl
  | cons t ts ih => rw [List.cons_append, postAll, postAll, ih, List.append_assoc]

theorem postAll_singleton (t : Tree β) : postAll [t] = post t := by
  rw [postAll, postAll, List.append_nil]

/-- The labels at the top are among the labels. -/
theorem labels_sublist_postAll (ts : List (Tree β)) : List.Sublist (ts.map label) (postAll ts) := by
  induction ts with
  | nil => exact .slnil
  | cons t ts ih =>
    obtain ⟨b, us⟩ := t
    rw [List.map_cons, postAll, post, label]
    exact (List.sublist_append_right (postAll us) [b]).append ih

/-- A walk visits labels only. -/
theorem mem_postAll_of_walkAll {p : β → Bool} {parent : Option β} {ts : List (Tree β)} {v : Visit β}
    (h : v ∈ walkAll p parent ts) : v.node ∈ postAll ts := by
  induction ts using inductForest generalizing parent with
  | nil => cases h
  | cons b ts us hts hus =>
    rw [walkAll, walk, List.mem_append, List.mem_cons, List.mem_append, List.mem_singleton] at h
    rw [postAll, post, List.mem_append, List.mem_append, List.mem_singleton]
    rcases h with (rfl | h | rfl) | h
    · exact .inl (.inr rfl)
    · split at h
      · exact .inl (.inl (hts h))
      · cases h
    · exact .inl (.inr rfl)
    · exact .inr (hus h)

end Tree

/-- A node and what stands below it, without spans. -/
def Node.outline (n : Node Mark) : Tree (Nat × NodeSort × Payload) := n.sketch Mark.id

/-! ## The stack -/

/-- Trees are laid out in an arena: each node of the arena stands at its number, the labels of the trees are among
them, and their numbers increase from the leaves up and from left to right. What stands below a node of the arena is
in the arena, under a smaller number. Besides the labels of the trees the arena holds only expressions that a literal
among the labels was read as; these have the span of the literal. -/
structure Laid (nodes : Arena) (ts : List (Tree (Node Mark))) : Prop where
  numbered : ∀ (i : Nat) (n : Node Mark), nodes[i]? = some n → n.tag.id = i
  mem : ∀ n ∈ Tree.postAll ts, n ∈ nodes
  increasing : (Tree.postAll ts).Pairwise fun a b => a.tag.id < b.tag.id
  below : ∀ n ∈ nodes, ∀ child ∈ n.children, child ∈ nodes ∧ child.tag.id < n.tag.id
  known : ∀ n ∈ nodes, n ∈ Tree.postAll ts ∨ ∃ m l, n = .expr (.literal m l) ∧ .literal l ∈ Tree.postAll ts
  wrapped : ∀ m l, .expr (.literal m l) ∈ nodes → m.span = l.tag.span

namespace Laid

variable {nodes : Arena} {F ts : List (Tree (Node Mark))} {n : Node Mark}

theorem nil : Laid #[] [] := ⟨nofun, nofun, .nil, nofun, nofun, nofun⟩

/-- A node of the arena stands at its number. -/
theorem getElem?_of_mem (h : Laid nodes ts) (hn : n ∈ nodes) : nodes[n.tag.id]? = some n := by
  obtain ⟨i, hi⟩ := Array.mem_iff_getElem?.mp hn
  rw [h.numbered i n hi, hi]

theorem getElem? (h : Laid nodes ts) (hn : n ∈ Tree.postAll ts) : nodes[n.tag.id]? = some n :=
  h.getElem?_of_mem (h.mem n hn)

theorem id_lt (h : Laid nodes ts) (hn : n ∈ Tree.postAll ts) : n.tag.id < nodes.size :=
  (Array.getElem?_eq_some_iff.mp (h.getElem? hn)).1

/-- A node that gets the next number is laid out above the trees on top. -/
theorem push (h : Laid nodes (F ++ ts)) (hn : n.tag.id = nodes.size) (htree : n.tree = .node n ts)
    (hwrap : ∀ m l, n = .expr (.literal m l) → m.span = l.tag.span) : Laid (nodes.push n) (F ++ [n.tree]) := by
  have hpost : Tree.postAll (F ++ [n.tree]) = Tree.postAll (F ++ ts) ++ [n] := by
    rw [htree, Tree.postAll_append, Tree.postAll_singleton, Tree.post, Tree.postAll_append, List.append_assoc]
  have hstay {a : Node Mark} (ha : a ∈ Tree.postAll (F ++ ts)) : a ∈ Tree.postAll (F ++ [n.tree]) := by
    rw [hpost]
    exact List.mem_append_left _ ha
  constructor
  case numbered =>
    intro i a ha
    rw [Array.getElem?_push] at ha
    split at ha
    · next hi =>
      cases ha
      exact hn.trans hi.symm
    · exact h.numbered i a ha
  case mem =>
    intro a ha
    rw [hpost, List.mem_append, List.mem_singleton] at ha
    rcases ha with ha | rfl
    · exact Array.mem_push_of_mem n (h.mem a ha)
    · exact Array.mem_push_self
  case increasing =>
    rw [hpost, List.pairwise_append]
    refine ⟨h.increasing, List.pairwise_singleton _ _, ?_⟩
    intro a ha b hb
    rw [List.mem_singleton.mp hb, hn]
    exact h.id_lt ha
  case below =>
    intro a ha child hchild
    rcases Array.mem_push.mp ha with ha | rfl
    · exact ⟨Array.mem_push_of_mem n (h.below a ha child hchild).1, (h.below a ha child hchild).2⟩
    · -- the children of the new node are the labels of the trees it takes off the stack
      have hmem : child ∈ Tree.postAll (F ++ ts) := by
        rw [Node.children, htree] at hchild
        rw [Tree.postAll_append]
        exact List.mem_append_right _ ((Tree.labels_sublist_postAll ts).subset hchild)
      exact ⟨Array.mem_push_of_mem a (h.mem child hmem), hn ▸ h.id_lt hmem⟩
  case known =>
    intro a ha
    rcases Array.mem_push.mp ha with ha | rfl
    · rcases h.known a ha with hlabel | ⟨m, l, rfl, hl⟩
      · exact .inl (hstay hlabel)
      · exact .inr ⟨m, l, rfl, hstay hl⟩
    · rw [hpost]
      exact .inl (List.mem_append_right _ (List.mem_singleton_self _))
  case wrapped =>
    intro m l hml
    rcases Array.mem_push.mp hml with hml | heq
    · exact h.wrapped m l hml
    · exact hwrap m l heq.symm

/-- A literal is laid out where the expression it was read as is. The expression stays in the arena. -/
theorem unwrap {m : Mark} {l : Literal Mark} (h : Laid nodes (F ++ [(Expr.literal m l).tree])) :
    Laid nodes (F ++ [l.tree]) := by
  have hpost : Tree.postAll (F ++ [(Expr.literal m l).tree]) =
      Tree.postAll (F ++ [l.tree]) ++ [.expr (.literal m l)] := by
    rw [Tree.postAll_append, Tree.postAll_singleton, Expr.tree, Tree.post, Tree.postAll_append, List.append_assoc]
  have hsub : List.Sublist (Tree.postAll (F ++ [l.tree])) (Tree.postAll (F ++ [(Expr.literal m l).tree])) := by
    rw [hpost]
    exact List.sublist_append_left _ _
  have hliteral : .literal l ∈ Tree.postAll (F ++ [l.tree]) := by
    rw [Tree.postAll_append]
    refine List.mem_append_right _ ((Tree.labels_sublist_postAll [l.tree]).subset ?_)
    exact List.mem_singleton.mpr (Node.label_tree (.literal l)).symm
  refine ⟨h.numbered, fun n hn => h.mem n (hsub.subset hn), h.increasing.sublist hsub, h.below, ?_, h.wrapped⟩
  intro n hn
  rcases h.known n hn with hlabel | ⟨m', l', rfl, hl'⟩
  · rw [hpost, List.mem_append, List.mem_singleton] at hlabel
    rcases hlabel with hlabel | rfl
    · exact .inl hlabel
    · exact .inr ⟨m, l, rfl, hliteral⟩
  · rw [hpost, List.mem_append, List.mem_singleton] at hl'
    rcases hl' with hl' | heq
    · exact .inr ⟨m', l', rfl, hl'⟩
    · cases heq

end Laid

/-- The arena has grown: on top of any stack that was laid out, some trees are. -/
def Grows (nodes : Arena) (ts : List (Tree (Node Mark))) (nodes' : Arena) : Prop :=
  ∀ F, Laid nodes F → Laid nodes' (F ++ ts)

namespace Grows

variable {nodes nodes' nodes'' : Arena} {ts us : List (Tree (Node Mark))}

theorem refl (nodes : Arena) : Grows nodes [] nodes := fun F h => (List.append_nil F).symm ▸ h

theorem trans (h : Grows nodes ts nodes') (h' : Grows nodes' us nodes'') : Grows nodes (ts ++ us) nodes'' := by
  intro F hF
  rw [← List.append_assoc]
  exact h' _ (h F hF)

/-- A node is entered above the trees on top. -/
theorem push {n : Node Mark} (h : Grows nodes ts nodes') (hn : n.tag.id = nodes'.size) (htree : n.tree = .node n ts)
    (hwrap : ∀ m l, n = .expr (.literal m l) → m.span = l.tag.span) : Grows nodes [n.tree] (nodes'.push n) :=
  fun F hF => (h F hF).push hn htree hwrap

theorem unwrap {m : Mark} {l : Literal Mark} (h : Grows nodes [(Expr.literal m l).tree] nodes') :
    Grows nodes [l.tree] nodes' :=
  fun F hF => (h F hF).unwrap

end Grows

namespace Ast

variable {ast : Ast} {n : Node Mark}

/-- A reference to a custom type is in the arena, at its number. -/
theorem getElem?_of_mem_customTypes (h : Laid ast.nodes ast.trees) (hn : n ∈ ast.customTypes) :
    ast.nodes[n.tag.id]? = some n := by
  obtain ⟨found, hfound, rfl⟩ := List.mem_map.mp hn
  obtain ⟨v, hv, rfl⟩ := List.mem_map.mp hfound
  exact h.getElem? (Tree.mem_postAll_of_walkAll (List.mem_filter.mp hv).1)

theorem map_label_trees : ast.trees.map Tree.label = ast.roots := by
  rw [trees, List.map_map]
  exact List.map_id'' Node.label_tree _

/-- What is at the top is in the arena. -/
theorem mem_nodes_of_mem_roots (h : Laid ast.nodes ast.trees) (hn : n ∈ ast.roots) : n ∈ ast.nodes := by
  rw [← map_label_trees] at hn
  exact h.mem n ((Tree.labels_sublist_postAll ast.trees).subset hn)

/-- No two nodes at the top share a number. -/
theorem nodup_ids_roots (h : Laid ast.nodes ast.trees) : (ast.roots.map (·.tag.id)).Nodup := by
  have hsub : List.Sublist ast.roots (Tree.postAll ast.trees) := map_label_trees ▸ Tree.labels_sublist_postAll ast.trees
  exact List.pairwise_map.mpr ((h.increasing.sublist hsub).imp Nat.ne_of_lt)

end Ast

end QiIdl
