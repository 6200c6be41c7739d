import Mathlib.Data.List.Nodup
import QiIdl.Proofs.Ast.Preorder
import QiIdl.Proofs.Ast.Spanned

/-!
# Visits of a walk

A walk through the trees of a file that was read, passing over what stands below nodes of some sorts, visits each node
that it can get to exactly once: it enters the node, visits what is below, and leaves the node, each time with the one
parent the node has. It enters nodes in the order in which they start in the source (`visits_of_parseSource`).

What a walk enters is part of what the walk that passes over nothing enters. So that no node is entered twice, and that
the order is that of the source, need only be known of the nodes from the top down (`Ast.preorder`).
-/

namespace QiIdl

/-! ## Walks through trees -/

namespace Tree

variable {β : Type} {descend : β → Bool} {parent : Option β}

/-- Visits that are properly nested below a parent: a node is left right after all that is visited below it. -/
inductive Nested : Option β → List (Visit β) → Prop where
  | nil {parent : Option β} : Nested parent []
  | node {parent : Option β} {b : β} {inner rest : List (Visit β)} : Nested (some b) inner → Nested parent rest →
    Nested parent (⟨true, parent, b⟩ :: (inner ++ ⟨false, parent, b⟩ :: rest))

theorem Nested.append {visits more : List (Visit β)} (h : Nested parent visits) (hmore : Nested parent more) :
    Nested parent (visits ++ more) := by
  induction h with
  | nil => exact hmore
  | node hinner _ _ ih =>
    rw [List.cons_append, List.append_assoc, List.cons_append]
    exact .node hinner (ih hmore)

/-- Nodes are left as often as they are entered. -/
theorem Nested.countP_leaving {visits : List (Visit β)} (h : Nested parent visits) (p : β → Bool) :
    visits.countP (fun v => !v.entering && p v.node) = visits.countP fun v => v.entering && p v.node := by
  induction h with
  | nil => rfl
  | node _ _ ihinner ihrest =>
    simp only [List.countP_cons, List.countP_append, ihinner, ihrest]
    simp
    omega

theorem nested_walkAll (parent : Option β) (ts : List (Tree β)) : Nested parent (walkAll descend parent ts) := by
  induction ts using inductForest generalizing parent with
  | nil => exact .nil
  | cons b ts us hts hus =>
    rw [walkAll, walk]
    refine .append ?_ (hus parent)
    split
    · exact .node (hts (some b)) .nil
    · exact .node .nil .nil

/-- The nodes that a walk enters, with their parents. -/
def entered (visits : List (Visit β)) : List (Option β × β) :=
  (visits.filter (·.entering)).map fun v => (v.parent, v.node)

theorem mem_entered {visits : List (Visit β)} {b : β} : (parent, b) ∈ entered visits ↔ ⟨true, parent, b⟩ ∈ visits := by
  simp only [entered, List.mem_map, List.mem_filter, Prod.mk.injEq]
  constructor
  · rintro ⟨⟨_, _, _⟩, ⟨hv, rfl⟩, rfl, rfl⟩
    exact hv
  · intro hv
    exact ⟨_, ⟨hv, rfl⟩, rfl, rfl⟩

theorem countP_entering (visits : List (Visit β)) (p : β → Bool) :
    visits.countP (fun v => v.entering && p v.node) = (entered visits).countP fun e => p e.2 := by
  rw [entered, List.countP_map, List.countP_filter]
  exact List.countP_congr fun v _ => by simp [Bool.and_comm]

/-- A search goes through the nodes that are entered. -/
theorem find_eq_filter (p : β → Bool) (ts : List (Tree β)) :
    find p ts = (entered (walkAll (fun _ => true) none ts)).filter fun e => p e.2 := by
  rw [find, entered, List.filter_map, List.filter_filter]
  simp only [Function.comp_apply, Bool.and_comm]

theorem entered_append (visits more : List (Visit β)) : entered (visits ++ more) = entered visits ++ entered more := by
  rw [entered, List.filter_append, List.map_append]
  rfl

/-- A walk enters no more than the one that passes over nothing. -/
theorem entered_sublist_walkAll (parent : Option β) (ts : List (Tree β)) :
    List.Sublist (entered (walkAll descend parent ts)) (entered (walkAll (fun _ => true) parent ts)) := by
  induction ts using inductForest generalizing parent with
  | nil => exact .slnil
  | cons b ts us hts hus =>
    have hinner : List.Sublist (entered (if descend b then walkAll descend (some b) ts else []))
        (entered (walkAll (fun _ => true) (some b) ts)) := by
      split
      · exact hts (some b)
      · exact List.nil_sublist _
    rw [walkAll, walkAll, entered_append, entered_append]
    exact .append (by simpa [walk, entered] using hinner) (hus parent)

theorem mem_walkAll {v : Visit β} {ts : List (Tree β)} :
    v ∈ walkAll descend parent ts ↔ ∃ t ∈ ts, v ∈ walk descend parent t := by
  induction ts with
  | nil => simp [walkAll]
  | cons t ts ih => simp [walkAll, ih]

end Tree

/-! ## Starts of trees on tokens -/

namespace Tree

variable {β : Type} {span : β → Span} {toks : List Token}

/-- What starts where a token of the first stretch starts, starts before what starts in the second. -/
theorem start_le_of_bounds {a b : Span} {seg rest : List Token} (hordered : Ordered (seg ++ rest)) (ha : a.Bounds seg)
    (hb : b.Bounds rest) : a.start ≤ b.start := by
  obtain ⟨t, ht, hstart⟩ := ha.start
  obtain ⟨u, hu, hstart'⟩ := hb.start
  rw [hstart, hstart']
  calc t.span.start ≤ t.span.stop := hordered.forward t (List.mem_append_left rest ht)
    _ ≤ u.span.start := (List.pairwise_append.mp hordered.apart).2.2 t ht u hu

theorem Lies.exists_lies_subtrees {t : Tree β} (h : t.Lies span toks) :
    ∀ u ∈ subtrees t, ∃ seg, List.Sublist seg toks ∧ u.Lies span seg := by
  obtain ⟨b, ts⟩ := t
  rw [subtrees, List.forall_mem_cons]
  exact ⟨⟨toks, .refl _, h⟩, h.children.exists_lies_subtrees⟩

/-- From the top down and from left to right, trees on tokens start one after the other. -/
theorem LiesAll.pairwise_subtreesAll {ts : List (Tree β)} {toks : List Token} (hordered : Ordered toks)
    (h : LiesAll span ts toks) :
    (subtreesAll ts).Pairwise fun t u => (span t.label).start ≤ (span u.label).start := by
  induction ts using inductForest generalizing toks with
  | nil => exact .nil
  | cons b ts us ihbelow ihrest =>
    obtain ⟨gap, seg, rest, rfl, ht, hus⟩ := h
    have hafter := hordered.sublist (List.sublist_append_right gap _)
    have hrest := hafter.sublist (List.sublist_append_right seg rest)
    have hseg := hafter.sublist (List.sublist_append_left seg rest)
    rw [subtreesAll, List.pairwise_append]
    refine ⟨?_, ihrest hrest hus, fun a ha b hb => ?_⟩
    · obtain ⟨hcovers, hts⟩ := ht
      refine .cons (fun u hu => ?_) (ihbelow hseg hts)
      obtain ⟨part, hpart, hu⟩ := hts.exists_lies_subtrees u hu
      exact ((hu.bounds hpart hseg).within_of_subset (hseg.bounds hcovers) hpart.subset).1
    · obtain ⟨front, hfront, ha⟩ := ht.exists_lies_subtrees a ha
      obtain ⟨back, hback, hb⟩ := hus.exists_lies_subtrees b hb
      exact start_le_of_bounds (hafter.sublist (hfront.append hback)) (ha.bounds hfront hseg) (hb.bounds hback hrest)

end Tree

/-! ## Walks through nodes -/

namespace Node

variable {α : Type} {skip : NodeSort → Bool} {parent : Option (Node α)}

/-- From some nodes below a parent, a walk gets to a node below its parent: it is one of them, or stands below one that
is not of a sort to be passed over. -/
inductive Seen (skip : NodeSort → Bool) : Option (Node α) → List (Node α) → Option (Node α) → Node α → Prop where
  | here {parent : Option (Node α)} {ns : List (Node α)} {n : Node α} : n ∈ ns → Seen skip parent ns parent n
  | deeper {parent parent' : Option (Node α)} {ns : List (Node α)} {m n : Node α} : m ∈ ns → skip m.sort = false →
    Seen skip (some m) m.children parent' n → Seen skip parent ns parent' n

theorem seen_iff {ns : List (Node α)} {parent' : Option (Node α)} {n : Node α} : Seen skip parent ns parent' n ↔
    ∃ m ∈ ns, parent' = parent ∧ n = m ∨ skip m.sort = false ∧ Seen skip (some m) m.children parent' n := by
  constructor
  · rintro (hn | ⟨hm, hskip, hn⟩)
    · exact ⟨n, hn, .inl ⟨rfl, rfl⟩⟩
    · exact ⟨_, hm, .inr ⟨hskip, hn⟩⟩
  · rintro ⟨m, hm, ⟨rfl, rfl⟩ | ⟨hskip, hn⟩⟩
    · exact .here hm
    · exact .deeper hm hskip hn

theorem mem_walk_iff (n : Node α) (parent : Option (Node α)) (v : Visit (Node α)) :
    v ∈ n.tree.walk (fun n => !skip n.sort) parent ↔
      v.parent = parent ∧ v.node = n ∨ skip n.sort = false ∧ Seen skip (some n) n.children v.parent v.node := by
  induction n using Node.induct generalizing parent with
  | h n ih =>
    have hbelow : v ∈ Tree.walkAll (fun n => !skip n.sort) (some n) (n.below.map tree) ↔
        Seen skip (some n) n.below v.parent v.node := by
      rw [Tree.mem_walkAll, seen_iff]
      simp only [List.mem_map, exists_exists_and_eq_and]
      exact exists_congr fun m => and_congr_right fun hm => ih m hm (some n)
    rw [tree_eq, Tree.walk, children_eq, ← hbelow]
    obtain ⟨entering, parent', n'⟩ := v
    cases entering <;> cases skip n.sort <;> simp [or_comm]

/-- A walk visits just what it gets to, whether nodes are entered or left. -/
theorem mem_walkAll_iff {ns : List (Node α)} {v : Visit (Node α)} :
    v ∈ Tree.walkAll (fun n => !skip n.sort) parent (ns.map tree) ↔ Seen skip parent ns v.parent v.node := by
  rw [Tree.mem_walkAll, seen_iff]
  simp only [List.mem_map, exists_exists_and_eq_and]
  exact exists_congr fun m => and_congr_right fun _ => mem_walk_iff m parent v

end Node

namespace Ast

/-- The visits of a walk through a file that passes over what stands below nodes of some sorts. -/
def visits (skip : NodeSort → Bool) (ast : Ast) : List (Visit (Node Mark)) :=
  Tree.walkAll (fun n => !skip n.sort) none ast.trees

/-- A walk through a file gets to a node below its parent. -/
def Seen (skip : NodeSort → Bool) (ast : Ast) (parent : Option (Node Mark)) (n : Node Mark) : Prop :=
  Node.Seen skip none ast.roots parent n

/-- Visits of a file go once to each node that a walk gets to, in the order of the source. -/
structure Toured (skip : NodeSort → Bool) (ast : Ast) (visits : List (Visit (Node Mark))) : Prop where
  nested : Tree.Nested none visits
  seen : ∀ entering parent n, ⟨entering, parent, n⟩ ∈ visits ↔ ast.Seen skip parent n
  once : ∀ parent n, ast.Seen skip parent n → visits.countP (fun v => v.entering && v.node.tag.id == n.tag.id) = 1 ∧
    visits.countP (fun v => !v.entering && v.node.tag.id == n.tag.id) = 1
  parent : ∀ parent parent' n n', ast.Seen skip parent n → ast.Seen skip parent' n' → n.tag.id = n'.tag.id →
    parent = parent'
  ordered : (Tree.entered visits).Pairwise fun a b => a.2.tag.span.start ≤ b.2.tag.span.start

variable {skip : NodeSort → Bool} {ast : Ast}

/-- A walk that passes over nothing enters the nodes from the top down. -/
theorem map_entered (ast : Ast) :
    (Tree.entered (Tree.walkAll (fun _ => true) none ast.trees)).map (·.2) = ast.preorder := by
  rw [preorder, ← Tree.entered_walkAll none, Tree.entered, List.map_map]
  rfl

/-- No node is entered twice. -/
theorem nodup_entered (hlaid : Laid ast.nodes ast.trees) :
    ((Tree.entered (ast.visits skip)).map (·.2.tag.id)).Nodup := by
  have hall : (ast.preorder.map (·.tag.id)).Nodup := by
    rw [preorder]
    refine ((Tree.perm_map_labelAll ast.trees).map (·.tag.id)).nodup_iff.mp ?_
    exact List.pairwise_map.mpr (hlaid.increasing.imp Nat.ne_of_lt)
  rw [← map_entered, List.map_map] at hall
  exact hall.sublist ((Tree.entered_sublist_walkAll none ast.trees).map _)

theorem pairwise_entered {toks : List Token} (hordered : Ordered toks) (h : Tree.LiesAll (·.tag.span) ast.trees toks) :
    (Tree.entered (ast.visits skip)).Pairwise fun a b => a.2.tag.span.start ≤ b.2.tag.span.start := by
  have hall : ast.preorder.Pairwise fun a b => a.tag.span.start ≤ b.tag.span.start :=
    List.pairwise_map.mpr (Tree.LiesAll.pairwise_subtreesAll hordered h)
  rw [← map_entered, List.pairwise_map] at hall
  exact hall.sublist (Tree.entered_sublist_walkAll none ast.trees)

theorem mem_visits {entering : Bool} {parent : Option (Node Mark)} {n : Node Mark} :
    ⟨entering, parent, n⟩ ∈ ast.visits skip ↔ ast.Seen skip parent n := Node.mem_walkAll_iff

theorem mem_entered {e : Option (Node Mark) × Node Mark} :
    e ∈ Tree.entered (ast.visits skip) ↔ ast.Seen skip e.1 e.2 :=
  Tree.mem_entered.trans mem_visits

theorem countP_visits (hlaid : Laid ast.nodes ast.trees) {parent : Option (Node Mark)} {n : Node Mark}
    (hn : ast.Seen skip parent n) :
    (ast.visits skip).countP (fun v => v.entering && v.node.tag.id == n.tag.id) = 1 := by
  have hmem : n.tag.id ∈ (Tree.entered (ast.visits skip)).map (·.2.tag.id) :=
    List.mem_map_of_mem (mem_entered (e := (parent, n)).mpr hn)
  have hcount := List.count_eq_one_of_mem (nodup_entered hlaid) hmem
  rw [List.count, List.countP_map] at hcount
  exact (Tree.countP_entering _ fun m : Node Mark => m.tag.id == n.tag.id).trans hcount

theorem toured_visits {toks : List Token} (hlaid : Laid ast.nodes ast.trees) (hordered : Ordered toks)
    (h : Tree.LiesAll (·.tag.span) ast.trees toks) : ast.Toured skip (ast.visits skip) where
  nested := Tree.nested_walkAll none ast.trees
  seen _ _ _ := mem_visits
  once parent n hn := by
    have hnested : Tree.Nested none (ast.visits skip) := Tree.nested_walkAll none ast.trees
    refine ⟨countP_visits hlaid hn, ?_⟩
    rw [hnested.countP_leaving fun m : Node Mark => m.tag.id == n.tag.id]
    exact countP_visits hlaid hn
  parent parent parent' n n' hn hn' hid := by
    have heq := List.inj_on_of_nodup_map (nodup_entered hlaid) (mem_entered (e := (parent, n)).mpr hn)
      (mem_entered (e := (parent', n')).mpr hn') hid
    exact congrArg Prod.fst heq
  ordered := pairwise_entered hordered h

end Ast

/-- Walks through a file that was read, whatever sorts of nodes they pass over, visit each node they get to once and in
order, and a search finds just the nodes that match, in that order. -/
theorem visits_of_parseSource {source file : String} {ast : Ast} (h : parseSource source file = .ok ast) :
    (∀ skip, ast.Toured skip (ast.visits skip)) ∧
      ∀ p : Node Mark → Bool, ((Tree.find p ast.trees).map (·.2.tag.id)).Nodup ∧
        List.Sublist (Tree.find p ast.trees) (Tree.entered (ast.visits fun _ => false)) ∧
        ∀ e, e ∈ Tree.find p ast.trees ↔ ast.Seen (fun _ => false) e.1 e.2 ∧ p e.2 = true := by
  obtain ⟨toks, hlex, hread, -, -⟩ := parseSource_eq_ok h
  have hordered := ordered_of_lex hlex
  obtain ⟨hfiled, hlaid⟩ : Tree.Filed (·.tag.span) ast.trees toks ∧ Laid ast.nodes ast.trees :=
    parseTokens_filed hordered hread
  refine ⟨fun skip => Ast.toured_visits hlaid hordered hfiled.liesAll, fun p => ?_⟩
  have hfind : Tree.find p ast.trees = (Tree.entered (ast.visits fun _ => false)).filter fun e => p e.2 :=
    Tree.find_eq_filter p ast.trees
  rw [hfind]
  have hsub := List.filter_sublist (p := fun e => p e.2) (l := Tree.entered (ast.visits fun _ => false))
  refine ⟨(Ast.nodup_entered hlaid).sublist (hsub.map _), hsub, fun e => ?_⟩
  rw [List.mem_filter]
  exact and_congr_left' Ast.mem_entered

/-- A walk that passes over what is below lists, in a file with a list of tuples, and a tuple that was read as an
expression and is no expression. -/
theorem visits_of_parseSource_lists :
    let source := "typedef [](int, str) Rows\nconst c = [(1, 2)]\nconst d = (3, [4])\n"
    let skip := fun sort => sort == .listType || sort == .listLiteral
    ∃ ast, parseSource source "rows.qi" = .ok ast ∧ ast.nodes.size = 19 ∧
      (Tree.entered (ast.visits skip)).map (·.2.tag.id) = [4, 3, 10, 8, 18, 16, 11, 14] ∧
      ast.Toured skip (ast.visits skip) := by
  intro source skip
  have hcheck : (parseSource source "rows.qi").toOption.any (fun ast => ast.nodes.size == 19 &&
      (Tree.entered (ast.visits skip)).map (·.2.tag.id) == [4, 3, 10, 8, 18, 16, 11, 14]) = true := by
    decide +kernel
  obtain ⟨ast, hread, hcheck⟩ := exists_ok_of_any hcheck
  rw [Bool.and_eq_true, beq_iff_eq, beq_iff_eq] at hcheck
  exact ⟨ast, hread, hcheck.1, hcheck.2, (visits_of_parseSource hread).1 skip⟩

end QiIdl
