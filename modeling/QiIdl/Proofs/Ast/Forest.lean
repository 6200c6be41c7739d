import QiIdl.Proofs.Grammar.Twins

/-!
# Arenas are forests

In the arena of a file that was read, every node that the top leads to hangs in exactly one place: it stands at the
top, once, or below one other such node, once (`Ast.placed`). The argument counts labels. Those of some trees are, in
another order, the labels at the top and the labels right below the top of each subtree (`Tree.perm_postAll`); numbers
increase along the one list, so no number comes twice in the other.

What may hang where is a table: `Node.slots` says what a node holds, place by place, and `Slot.Fits` what fits there.
-/

namespace QiIdl

namespace Tree

variable {β : Type} {P : β → Prop}

mutual

/-- A tree and all trees below its top. -/
def subtrees : Tree β → List (Tree β)
  | node b ts => node b ts :: subtreesAll ts

/-- Some trees and all trees below their tops. -/
def subtreesAll : List (Tree β) → List (Tree β)
  | [] => []
  | t :: ts => subtrees t ++ subtreesAll ts

end

/-- What passes from a tree to those right below its top holds of all subtrees. -/
theorem forall_subtreesAll {Q : Tree β → Prop} (hstep : ∀ t, Q t → ∀ u ∈ t.children, Q u) (ts : List (Tree β))
    (h : ∀ t ∈ ts, Q t) : ∀ u ∈ subtreesAll ts, Q u := by
  induction ts using inductForest with
  | nil => exact List.forall_mem_nil _
  | cons b ts us hts hus =>
    obtain ⟨ht, hrest⟩ := List.forall_mem_cons.mp h
    rw [subtreesAll, subtrees, List.cons_append, List.forall_mem_cons, List.forall_mem_append]
    exact ⟨ht, hts (hstep _ ht), hus hrest⟩

/-- The labels right below the tops of some trees. -/
def childLabels (ts : List (Tree β)) : List β := ts.flatMap fun t => t.children.map label

/-- The labels of some trees are those at the top and those right below the tops of the subtrees. -/
theorem perm_postAll (ts : List (Tree β)) : List.Perm (postAll ts) (ts.map label ++ childLabels (subtreesAll ts)) := by
  induction ts using inductForest with
  | nil => exact .nil
  | cons b ts us hts hus =>
    have htop := (List.perm_append_singleton b (postAll ts)).trans (hts.cons b)
    rw [postAll, subtreesAll, List.map_cons, List.cons_append, childLabels, List.flatMap_append]
    -- the labels at the top of `us` move in front of those below the tops of the subtrees of the first tree
    refine (htop.append hus).trans (.cons _ ?_)
    exact List.perm_append_comm_assoc _ _ _

/-- Each label is at the top of a subtree. -/
theorem perm_map_labelAll (ts : List (Tree β)) : List.Perm (postAll ts) ((subtreesAll ts).map label) := by
  induction ts using inductForest with
  | nil => exact .nil
  | cons b ts us hts hus =>
    rw [postAll, subtreesAll, List.map_append]
    exact ((List.perm_append_singleton b (postAll ts)).trans (hts.cons b)).append hus

theorem forall_postAll {ts : List (Tree β)} (h : ∀ t ∈ ts, t.Every P) : ∀ b ∈ postAll ts, P b := by
  induction ts using inductForest with
  | nil => exact List.forall_mem_nil _
  | cons b ts us hts hus =>
    obtain ⟨⟨hb, hbelow⟩, hrest⟩ := List.forall_mem_cons.mp h
    rw [postAll, post, List.forall_mem_append, List.forall_mem_append, List.forall_mem_singleton]
    exact ⟨⟨hts hbelow, hb⟩, hus hrest⟩

end Tree

/-! ## Places -/

variable {α : Type} {ast : Ast} {n : Node Mark}

/-- The subtrees of the trees of nodes are trees of nodes. -/
theorem Node.eq_tree_of_mem_subtreesAll (ns : List (Node α)) :
    ∀ t ∈ Tree.subtreesAll (ns.map tree), t = t.label.tree := by
  refine Tree.forall_subtreesAll ?_ _ (List.forall_mem_map.mpr fun n _ => by rw [label_tree])
  intro t ht u hu
  rw [ht, tree_eq] at hu
  obtain ⟨child, -, rfl⟩ := List.mem_map.mp hu
  rw [label_tree]

/-- A place for a node: at the top, or below the node of a number. Either has many, in order. -/
inductive Place where
  | top (index : Nat)
  | below (parent : Nat) (index : Nat)
deriving DecidableEq, Repr

/-- The node of a number is in a place. Below a node that the top does not lead to there are no places. -/
def Ast.Holds (ast : Ast) (id : Nat) : Place → Prop
  | .top index => (ast.roots.map (·.tag.id))[index]? = some id
  | .below parent index =>
    ∃ n, ast.Reaches n ∧ n.tag.id = parent ∧ (n.children.map (·.tag.id))[index]? = some id

namespace Ast

theorem reaches_iff : ast.Reaches n ↔ n ∈ Tree.postAll ast.trees := by
  constructor
  · rintro ⟨v, hv, rfl⟩
    exact Tree.mem_postAll_of_walkAll hv
  · refine Tree.forall_postAll (P := ast.Reaches) ?_ n
    exact List.forall_mem_map.mpr (every_of_reaches fun _ h => h)

/-- The tree of a node that the top leads to is a subtree. -/
theorem tree_mem_subtreesAll (h : ast.Reaches n) : n.tree ∈ Tree.subtreesAll ast.trees := by
  have hn := (Tree.perm_map_labelAll ast.trees).mem_iff.mp (reaches_iff.mp h)
  obtain ⟨t, ht, rfl⟩ := List.mem_map.mp hn
  rw [← Node.eq_tree_of_mem_subtreesAll ast.roots t ht]
  exact ht

theorem reaches_of_mem_subtreesAll {t : Tree (Node Mark)} (h : t ∈ Tree.subtreesAll ast.trees) :
    ast.Reaches t.label :=
  reaches_iff.mpr ((Tree.perm_map_labelAll ast.trees).mem_iff.mpr (List.mem_map_of_mem h))

/-- The numbers of what the top leads to: those at the top, and those below each node in turn. -/
theorem perm_ids : List.Perm ((Tree.postAll ast.trees).map (·.tag.id))
    (ast.roots.map (·.tag.id) ++
      (Tree.subtreesAll ast.trees).flatMap fun t => t.label.children.map (·.tag.id)) := by
  have hchildren : ∀ t ∈ Tree.subtreesAll ast.trees, t.children.map Tree.label = t.label.children := by
    intro t ht
    rw [Node.children, ← Node.eq_tree_of_mem_subtreesAll ast.roots t ht]
  have hperm := (Tree.perm_postAll ast.trees).map (·.tag.id)
  rw [List.map_append, map_label_trees, Tree.childLabels, List.map_flatMap] at hperm
  rwa [List.flatMap_congr fun t ht => congrArg (List.map (·.tag.id)) (hchildren t ht)] at hperm

/-- Whatever the top leads to has a place. -/
theorem exists_holds (h : ast.Reaches n) : ∃ place, ast.Holds n.tag.id place := by
  have hid := perm_ids.mem_iff.mp (List.mem_map_of_mem (reaches_iff.mp h))
  rcases List.mem_append.mp hid with hroot | hchild
  · obtain ⟨index, hindex⟩ := List.mem_iff_getElem?.mp hroot
    exact ⟨.top index, hindex⟩
  · obtain ⟨t, ht, hid⟩ := List.mem_flatMap.mp hchild
    obtain ⟨index, hindex⟩ := List.mem_iff_getElem?.mp hid
    exact ⟨.below t.label.tag.id index, t.label, reaches_of_mem_subtreesAll ht, rfl, hindex⟩

/-- No number is in two places. -/
theorem Holds.unique (h : Laid ast.nodes ast.trees) {id : Nat} {place place' : Place} (hplace : ast.Holds id place)
    (hplace' : ast.Holds id place') : place = place' := by
  have hnodup := perm_ids.nodup_iff.mp (List.pairwise_map.mpr (h.increasing.imp Nat.ne_of_lt))
  obtain ⟨hroots, hbelow, hdisjoint⟩ := List.nodup_append'.mp hnodup
  obtain ⟨hchildren, happart⟩ := List.nodup_flatMap.mp hbelow
  have hmem {n : Node Mark} {index : Nat} (hid : (n.children.map (·.tag.id))[index]? = some id) :
      id ∈ n.tree.label.children.map (·.tag.id) := by
    rw [Node.label_tree]
    exact List.mem_of_getElem? hid
  have hflat {n : Node Mark} {index : Nat} (hn : ast.Reaches n) (hid : (n.children.map (·.tag.id))[index]? = some id) :
      id ∈ (Tree.subtreesAll ast.trees).flatMap fun t => t.label.children.map (·.tag.id) :=
    List.mem_flatMap.mpr ⟨n.tree, tree_mem_subtreesAll hn, hmem hid⟩
  match place, place', hplace, hplace' with
  | .top i, .top j, hi, hj =>
    have hlt := (List.getElem?_eq_some_iff.mp hi).1
    rw [(List.getElem?_inj hlt hroots).mp (hi.trans hj.symm)]
  | .top _, .below _ _, hi, ⟨n, hn, _, hj⟩ => exact absurd (hflat hn hj) (hdisjoint (List.mem_of_getElem? hi))
  | .below _ _, .top _, ⟨n, hn, _, hi⟩, hj => exact absurd (hflat hn hi) (hdisjoint (List.mem_of_getElem? hj))
  | .below _ i, .below _ j, ⟨n, hn, rfl, hi⟩, ⟨n', hn', rfl, hj⟩ =>
    -- numbers below different subtrees differ, so this one is below the same subtree twice
    have htree : n.tree = n'.tree := by
      by_contra hne
      have : Std.Symm (Function.onFun List.Disjoint fun t : Tree (Node Mark) => t.label.children.map (·.tag.id)) :=
        ⟨fun _ _ h => h.symm⟩
      exact happart.forall (tree_mem_subtreesAll hn) (tree_mem_subtreesAll hn') hne (hmem hi) (hmem hj)
    obtain rfl : n = n' := by rw [← n.label_tree, htree, n'.label_tree]
    have hnodup := hchildren n.tree (tree_mem_subtreesAll hn)
    rw [Node.label_tree] at hnodup
    have hlt := (List.getElem?_eq_some_iff.mp hi).1
    rw [(List.getElem?_inj hlt hnodup).mp (hi.trans hj.symm)]

end Ast

/-! ## Sorts -/

/-- What can be asked of a node by the place it is in. -/
inductive Slot where
  | type
  | value
  | operand
  | literal
  | member
  | field
  | item
  | label
  | line
deriving DecidableEq, Repr

/-- A node fits: types and literals are such; a value is a literal, or an expression that is more than one; an operand
is any expression; members, fields, entries and lines are of their sorts; a label is a string. -/
def Slot.Fits (n : Node α) : Slot → Prop
  | .type => n.family = .type
  | .value => n.family = .literal ∨ n.family = .expr ∧ n.sort ≠ .literalExpr
  | .operand => n.family = .expr
  | .literal => n.family = .literal
  | .member => n.sort = .fn ∨ n.sort = .emit ∨ n.sort = .prop
  | .field => n.sort = .field
  | .item => n.sort = .enumItem
  | .label => n.sort = .stringLiteral
  | .line => n.sort = .property ∨ n.sort = .connect ∨ n.sort = .object

/-- What a node asks of those right below it, in order. -/
def Node.slots : Node α → List Slot
  | .literal (.list _ items) | .literal (.tuple _ items) => items.map fun _ => .literal
  | .literal (.dict _ entries) => entries.flatMap fun _ => [.literal, .literal]
  | .literal _ => []
  | .expr (.binary ..) => [.operand, .operand]
  | .expr (.unary ..) => [.operand]
  | .expr (.var ..) => []
  | .expr (.literal ..) => [.literal]
  | .expr (.call _ _ args) => args.map fun _ => .operand
  | .type (.list ..) => [.type]
  | .type (.map ..) => [.type, .type]
  | .type (.tuple _ elements) => elements.map fun _ => .type
  | .type _ => []
  | .interface d => d.members.map fun _ => .member
  | .fn d => (d.params.map fun _ => .type) ++ (d.ret.map fun _ => .type).toList
  | .emit d | .prop d => d.params.map fun _ => .type
  | .struct d => d.fields.map fun _ => .field
  | .field d => .type :: (d.initial.map fun _ => .value).toList
  | .const d => (d.type.map fun _ => .type).toList ++ [.value]
  | .typedef _ => [.type]
  | .enum d => d.items.map fun _ => .item
  | .enumItem d => [if d.meaning.isType then .type else .value]
  | .package .. | .imports _ | .comment .. => []
  | .object (.property ..) => [.value]
  | .object (.connect ..) => [.value, .value]
  | .object (.object _ _ _ _ body) => .type :: .label :: body.map fun _ => .line
  | .var d => (d.type.map fun _ => .type).toList ++ (d.value.map fun _ => .value).toList

/-- The operator of a node is one for its sort. -/
def Node.Operates : Node α → Prop
  | .expr (.binary _ op _ _) => op.isInfix = true ∨ op = .fetch
  | .expr (.unary _ op _) => op.isPrefix = true
  | _ => True

/-- Those right below a node are as many as it asks for and each fits, and so does its operator. -/
structure Node.WellSorted (n : Node α) : Prop where
  children : List.Forall₂ (fun slot child => slot.Fits child) n.slots n.children
  operator : n.Operates

theorem TypeExpr.family_node (t : TypeExpr α) : (Node.type t).family = .type := by
  cases t <;> rfl

theorem Literal.family_node (l : Literal α) : (Node.literal l).family = .literal := by
  cases l <;> rfl

theorem Expr.family_node (e : Expr α) : (Node.expr e).family = .expr := by
  cases e <;> rfl

theorem Value.Proper.fits {v : Value α} (h : v.Proper) : Slot.value.Fits v.node := by
  match v, h with
  | .literal l, _ => exact .inl l.family_node
  | .expr (.binary ..), _ | .expr (.unary ..), _ | .expr (.var ..), _ | .expr (.call ..), _ => exact .inr ⟨rfl, nofun⟩

section Fits

variable {β : Type} {slot : Slot}

/-- Slots that ask the same of each thing of a list. -/
theorem fits_map {node : β → Node α} {bs : List β} (h : ∀ b ∈ bs, slot.Fits (node b)) :
    List.Forall₂ (fun slot child => slot.Fits child) (bs.map fun _ => slot) (bs.map node) := by
  rw [List.forall₂_map_left_iff, List.forall₂_map_right_iff, List.forall₂_same]
  exact h

theorem fits_option {node : β → Node α} {o : Option β} (h : ∀ b ∈ o, slot.Fits (node b)) :
    List.Forall₂ (fun slot child => slot.Fits child) (o.map fun _ => slot).toList (o.map node).toList := by
  cases o with
  | none => exact .nil
  | some b => exact .cons (h b rfl) .nil

end Fits

theorem Node.Sound.wellSorted {n : Node α} (h : n.Sound) : n.WellSorted := by
  have hparams (params : List (Param α)) : List.Forall₂ (fun slot child => slot.Fits child)
      (params.map fun _ => Slot.type) (params.map fun p => Node.type p.type) :=
    fits_map fun p _ => p.type.family_node
  have htype (type : Option (TypeExpr α)) : List.Forall₂ (fun slot child => slot.Fits child)
      (type.map fun _ => Slot.type).toList (type.map Node.type).toList :=
    fits_option fun t _ => t.family_node
  constructor
  · rw [Node.children_eq]
    cases n with
    | literal l =>
      cases l with
      | list _ items => exact fits_map fun l _ => l.family_node
      | tuple _ items => exact fits_map fun l _ => l.family_node
      | dict _ entries =>
        change List.Forall₂ _ (entries.flatMap _) (entries.flatMap _)
        induction entries with
        | nil => exact .nil
        | cons e entries ih => exact .cons e.1.family_node (.cons e.2.family_node (ih trivial))
      | _ => exact .nil
    | expr e =>
      cases e with
      | binary _ _ left right => exact .cons left.family_node (.cons right.family_node .nil)
      | unary _ _ operand => exact .cons operand.family_node .nil
      | var _ _ => exact .nil
      | literal _ l => exact .cons l.family_node .nil
      | call _ _ args => exact fits_map fun e _ => e.family_node
    | type t =>
      cases t with
      | list _ element => exact .cons element.family_node .nil
      | map _ key value => exact .cons key.family_node (.cons value.family_node .nil)
      | tuple _ elements => exact fits_map fun t _ => t.family_node
      | _ => exact .nil
    | interface d =>
      refine fits_map fun m _ => ?_
      cases m with
      | fn _ => exact .inl rfl
      | emit _ => exact .inr (.inl rfl)
      | prop _ => exact .inr (.inr rfl)
    | fn d => exact List.rel_append (hparams d.params) (htype d.ret)
    | emit d => exact hparams d.params
    | prop d => exact hparams d.params
    | struct d => exact fits_map fun _ _ => rfl
    | field d => exact .cons d.type.family_node (fits_option fun v hv => (h.2 v hv).fits)
    | const d => exact List.rel_append (htype d.type) (.cons h.2.fits .nil)
    | typedef d => exact .cons d.type.family_node .nil
    | enum d => exact fits_map fun _ _ => rfl
    | enumItem d =>
      obtain ⟨tag, name, meaning⟩ := d
      cases meaning with
      | const v => exact .cons (Value.Proper.fits h.2) .nil
      | type t => exact .cons t.family_node .nil
    | object o =>
      cases o with
      | property _ _ value => exact .cons (Value.Proper.fits h.2) .nil
      | connect _ sender receiver => exact .cons (Value.Proper.fits h.1) (.cons (Value.Proper.fits h.2) .nil)
      | object _ type nameTag name body =>
        refine .cons type.family_node (.cons rfl (fits_map fun o _ => ?_))
        cases o with
        | property _ _ _ => exact .inl rfl
        | connect _ _ _ => exact .inr (.inl rfl)
        | object _ _ _ _ _ => exact .inr (.inr rfl)
    | var d => exact List.rel_append (htype d.type) (fits_option fun v hv => (h.2 v hv).fits)
    | _ => exact .nil
  · cases n with
    | expr e =>
      cases e with
      | binary _ _ _ _ => exact h
      | unary _ _ _ => exact h
      | _ => trivial
    | _ => trivial

/-! ## Files -/

/-- The arena is a forest in which each node fits its place. Every node stands at its number, and what stands below it
has smaller numbers. What the top leads to, itself included, is in the arena, and each such node is in one place. -/
structure Ast.IsForest (ast : Ast) : Prop where
  numbered : ∀ n ∈ ast.nodes, ast.nodes[n.tag.id]? = some n
  below : ∀ n ∈ ast.nodes, ∀ child ∈ n.children, child ∈ ast.nodes ∧ child.tag.id < n.tag.id
  reached : ∀ n, ast.Reaches n → n ∈ ast.nodes
  placed : ∀ n, ast.Reaches n → ∃! place, ast.Holds n.tag.id place
  sorted : ∀ n ∈ ast.nodes, n.WellSorted

/-- The arena of a file that was read is a forest in which each node fits its place. -/
theorem isForest_of_parseSource {source file : String} {ast : Ast} (h : parseSource source file = .ok ast) :
    ast.IsForest := by
  have hlaid := laid_of_parseSource h
  have hsound : ∀ n ∈ Tree.postAll ast.trees, n.Sound :=
    Tree.forall_postAll (List.forall_mem_map.mpr fun n hn => (parseSource_sound h n hn).2)
  refine ⟨fun n hn => hlaid.getElem?_of_mem hn, hlaid.below, ?_, ?_, ?_⟩
  · intro n hn
    exact hlaid.mem n (Ast.reaches_iff.mp hn)
  · intro n hn
    obtain ⟨place, hplace⟩ := Ast.exists_holds hn
    exact ⟨place, hplace, fun place' hplace' => Ast.Holds.unique hlaid hplace' hplace⟩
  · intro n hn
    rcases hlaid.known n hn with hlabel | ⟨m, l, rfl, -⟩
    · exact (hsound n hlabel).wellSorted
    · -- an expression that a literal was read as, where the tree holds the literal alone
      exact Node.Sound.wellSorted trivial

/-- Operators, a call, a tuple whose elements were read as expressions, an object and a struct. -/
theorem isForest_of_parseSource_garage :
    let source := "struct Car\n seats []int = [4]\n size (int, int) = (1, 2)\nend\n"
      ++ "object Robot \"r\"\n prop p -v[0] + f(1)\n at a b\nend\n"
    ∃ ast, parseSource source "garage.qi" = .ok ast ∧ ast.nodes.size = 33 ∧ ast.IsForest := by
  intro source
  have hcheck : (parseSource source "garage.qi").toOption.any (fun ast => ast.nodes.size == 33) = true := by
    decide +kernel
  obtain ⟨ast, hread, hsize⟩ := exists_ok_of_any hcheck
  exact ⟨ast, hread, beq_iff_eq.mp hsize, isForest_of_parseSource hread⟩

end QiIdl
