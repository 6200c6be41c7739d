import QiIdl.Cpp.Includes
import QiIdl.Proofs.Ast.Preorder

/-!
# The list of includes

What a file includes is settled by its nodes, one by one: a node calls for a header (`Scope.CallsFor`), whatever stands
around it. The list has every header that a node calls for and no other, none twice, and in the order in which a walk
from the top meets the first node that calls for it (`Scope.includes_exact`).

The order is stated without a count: of two headers in the list, every call for the second has a call for the first
before it.
-/

namespace QiIdl

/-- What stands at a place of a list splits it. -/
theorem exists_split {β : Type} {l : List β} {k : Nat} {b : β} (h : l[k]? = some b) :
    ∃ xs ys, l = xs ++ b :: ys ∧ xs.length = k := by
  obtain ⟨hlt, rfl⟩ := List.getElem?_eq_some_iff.mp h
  refine ⟨l.take k, l.drop (k + 1), ?_, List.length_take_of_le hlt.le⟩
  rw [← List.drop_eq_getElem_cons hlt, List.take_append_drop]

namespace Cpp

/-! ## Texts without repetition -/

/-- Each time the second text comes, the first has come before. -/
def Before (l : List String) (a b : String) : Prop := ∀ xs ys, l = xs ++ b :: ys → a ∈ xs

/-- A list with one more text is split at that text, or as before. -/
theorem split_snoc {l xs ys : List String} {t b : String} (h : l ++ [t] = xs ++ b :: ys) :
    l = xs ∧ b = t ∨ ∃ ys', l = xs ++ b :: ys' := by
  rcases List.eq_nil_or_concat' ys with rfl | ⟨ys', t', rfl⟩
  · have hinj := List.append_inj' h rfl
    exact .inl ⟨hinj.1, (List.singleton_inj.mp hinj.2).symm⟩
  · rw [← List.cons_append, ← List.append_assoc] at h
    exact .inr ⟨ys', List.append_inj_left' h rfl⟩

theorem before_snoc {l : List String} {a b t : String} (h : Before l a b) (ha : a ∈ l) : Before (l ++ [t]) a b := by
  intro xs ys hsplit
  rcases split_snoc hsplit with ⟨rfl, -⟩ | ⟨ys', hl⟩
  · exact ha
  · exact h xs ys' hl

theorem before_snoc_self {l : List String} {a t : String} (ha : a ∈ l) (ht : t ∉ l) : Before (l ++ [t]) a t := by
  intro xs ys hsplit
  rcases split_snoc hsplit with ⟨rfl, -⟩ | ⟨ys', hl⟩
  · exact ha
  · exact absurd (by simp [hl]) ht

theorem nodup_snoc {l : List String} {t : String} (h : l.Nodup) (ht : t ∉ l) : (l ++ [t]).Nodup := by
  rw [← List.concat_eq_append]
  exact h.concat ht

/-- The second list has the texts of the first, each once, in the order in which they come first. -/
structure Firsts (l firsts : List String) : Prop where
  nodup : firsts.Nodup
  mem_iff : ∀ t, t ∈ firsts ↔ t ∈ l
  ordered : firsts.Pairwise (Before l)

theorem distinct_snoc (l : List String) (t : String) :
    distinct (l ++ [t]) = if t ∈ distinct l then distinct l else distinct l ++ [t] := by
  simp only [distinct, List.foldl_append, List.foldl_cons, List.foldl_nil, List.contains_iff_mem]

theorem firsts_distinct (l : List String) : Firsts l (distinct l) := by
  induction l using List.reverseRecOn with
  | nil => exact ⟨.nil, fun _ => .rfl, .nil⟩
  | append_singleton l t ih =>
    rw [distinct_snoc]
    have hordered : (distinct l).Pairwise (Before (l ++ [t])) :=
      ih.ordered.imp_of_mem fun ha _ hab => before_snoc hab ((ih.mem_iff _).mp ha)
    split
    · next hknown =>
      refine ⟨ih.nodup, fun t' => ?_, hordered⟩
      rw [ih.mem_iff, List.mem_append, List.mem_singleton, or_iff_left_of_imp]
      rintro rfl
      exact (ih.mem_iff _).mp hknown
    · next hnew =>
      refine ⟨nodup_snoc ih.nodup hnew, fun t' => ?_, ?_⟩
      · rw [List.mem_append, ih.mem_iff, List.mem_append]
      · refine List.pairwise_append.mpr ⟨hordered, List.pairwise_singleton _ _, ?_⟩
        intro a ha b hb
        rw [List.mem_singleton] at hb
        subst hb
        exact before_snoc_self ((ih.mem_iff a).mp ha) fun hb => hnew ((ih.mem_iff b).mpr hb)

/-- A text put in front comes first, and does not come again. -/
theorem distinct_cons (t : String) (l : List String) : distinct (t :: l) = t :: (distinct l).filter (· ≠ t) := by
  induction l using List.reverseRecOn with
  | nil => rfl
  | append_singleton l t' ih =>
    rw [← List.cons_append, distinct_snoc, ih, distinct_snoc]
    by_cases hsame : t' = t
    · subst hsame
      rw [if_pos List.mem_cons_self]
      split <;> simp
    · have hmem : t' ∈ t :: (distinct l).filter (· ≠ t) ↔ t' ∈ distinct l := by simp [hsame]
      simp only [hmem]
      split
      · rfl
      · simp [List.filter_append, hsame]

end Cpp

/-! ## What a node calls for -/

/-- The builtin type is declared in a header. -/
inductive Builtin.In : Builtin → String → Prop where
  | sized {t : Builtin} : t ∈ [int8, uint8, int16, uint16, int32, uint32, int64, uint64] → In t "<qi/types.hpp>"
  | string {t : Builtin} : t.category = .string → In t "<string>"
  | value {t : Builtin} : t.category = .value → In t "<qi/anyvalue.hpp>"
  | object {t : Builtin} : t.category = .object → In t "<qi/anyobject.hpp>"
  | buffer {t : Builtin} : t.category = .buffer → In t "<qi/buffer.hpp>"
  | clock {t : Builtin} : t.category = .duration ∨ t.category = .timePoint → In t "<qi/clock.hpp>"

theorem Builtin.header?_eq_some_iff {t : Builtin} {h : String} : t.header? = some h ↔ t.In h := by
  constructor
  · intro hheader
    cases t <;> cases hheader
    all_goals
      constructor
      decide
  · rintro (hmem | hcategory | hcategory | hcategory | hcategory | hcategory)
    all_goals cases t <;> simp_all [header?, category]

namespace Cpp.Scope

variable {c : Scope} {n : Node Mark} {package name h : String} {k : Nat}

/-- A package exports the name, in another file, and the header is that of the file. -/
def Elsewhere (c : Scope) (package name header : String) : Prop :=
  ∃ e, c.manager.findExport package name = some e ∧ e.file.path ≠ c.file.path ∧ e.file.header = header

theorem Elsewhere.headerOf_eq (helsewhere : c.Elsewhere package name h) : c.headerOf package name = [h] := by
  obtain ⟨e, he, hpath, rfl⟩ := helsewhere
  simp [headerOf, he, hpath]

theorem elsewhere_of_mem (hmem : h ∈ c.headerOf package name) : c.Elsewhere package name h := by
  unfold headerOf at hmem
  split at hmem
  · next e he =>
    split at hmem
    · cases hmem
    · next hpath => exact ⟨e, he, hpath, (List.mem_singleton.mp hmem).symm⟩
  · cases hmem

/-- The node calls for the header. A list of names calls name by name; whatever else calls, calls once. -/
inductive CallsFor (c : Scope) : Node Mark → Nat → String → Prop where
  | builtin {t : Builtin} {h : String} (m : Mark) : t.In h → CallsFor c (.type (.builtin m t)) 0 h
  | list (m : Mark) (element : TypeExpr Mark) : CallsFor c (.type (.list m element)) 0 "<vector>"
  | map (m : Mark) (key value : TypeExpr Mark) : CallsFor c (.type (.map m key value)) 0 "<map>"
  | tuple (m : Mark) (elements : List (TypeExpr Mark)) : CallsFor c (.type (.tuple m elements)) 0 "<utility>"
  | custom {m : Mark} {r : Resolution} {h : String} (name : String) :
      c.manager.resolution? c.file.path m.id = some r → c.Elsewhere r.package r.name h →
      CallsFor c (.type (.custom m name)) 0 h
  | interface (d : Interface Mark) : CallsFor c (.interface d) 0 "<qi/anyobject.hpp>"
  | emit (d : Channel Mark) : CallsFor c (.emit d) 0 "<qi/signal.hpp>"
  | prop (d : Channel Mark) : CallsFor c (.prop d) 0 "<qi/property.hpp>"
  | imports {names : List String} {k : Nat} {name h : String} (m : Mark) (package : String) :
      names[k]? = some name → c.Elsewhere package name h → CallsFor c (.imports ⟨m, package, .names names⟩) k h

/-- What a node calls for at some place stands in the list of its headers behind what it calls for before. -/
theorem CallsFor.split (hcall : c.CallsFor n k h) :
    ∃ hs hs', c.nodeHeaders n = hs ++ h :: hs' ∧ ∀ g ∈ hs, ∃ j < k, c.CallsFor n j g := by
  cases hcall with
  | builtin m hin =>
    refine ⟨[], [], ?_, nofun⟩
    rw [nodeHeaders, Builtin.header?_eq_some_iff.mpr hin]
    rfl
  | custom name hr helsewhere =>
    refine ⟨[], [], ?_, nofun⟩
    simp only [nodeHeaders, hr]
    exact helsewhere.headerOf_eq
  | imports m package hname helsewhere =>
    obtain ⟨before, after, rfl, rfl⟩ := exists_split hname
    refine ⟨before.flatMap (c.headerOf package), after.flatMap (c.headerOf package), ?_, ?_⟩
    · rw [nodeHeaders, List.flatMap_append, List.flatMap_cons, helsewhere.headerOf_eq]
      rfl
    · intro g hg
      obtain ⟨name', hname', hmem⟩ := List.mem_flatMap.mp hg
      obtain ⟨j, hj⟩ := List.mem_iff_getElem?.mp hname'
      have hlt := (List.getElem?_eq_some_iff.mp hj).1
      exact ⟨j, hlt, .imports m package (by rwa [List.getElem?_append_left hlt]) (elsewhere_of_mem hmem)⟩
  | _ => exact ⟨[], [], rfl, nofun⟩

theorem mem_nodeHeaders : h ∈ c.nodeHeaders n ↔ ∃ k, c.CallsFor n k h := by
  constructor
  · intro hmem
    unfold nodeHeaders at hmem
    split at hmem
    case h_1 m t =>
      exact ⟨0, .builtin m (Builtin.header?_eq_some_iff.mp (Option.mem_toList.mp hmem))⟩
    case h_5 m name =>
      split at hmem
      · next r hr => exact ⟨0, .custom name hr (elsewhere_of_mem hmem)⟩
      · cases hmem
    case h_9 m package names =>
      obtain ⟨name, hname, hheader⟩ := List.mem_flatMap.mp hmem
      obtain ⟨k, hk⟩ := List.mem_iff_getElem?.mp hname
      exact ⟨k, .imports m package hk (elsewhere_of_mem hheader)⟩
    case h_10 => cases hmem
    all_goals
      rw [List.mem_singleton.mp hmem]
      exact ⟨0, by constructor⟩
  · rintro ⟨k, hcall⟩
    obtain ⟨hs, hs', heq, -⟩ := hcall.split
    simp [heq]

/-! ## The whole list -/

/-- At a place of the walk from the top, a node calls for the header. -/
def CallsAt (c : Scope) (i k : Nat) (h : String) : Prop :=
  ∃ n, c.file.ast.preorder[i]? = some n ∧ c.CallsFor n k h

/-- Every call for the second header has a call for the first before it: by a node that a walk enters before, or by a
name that the same list of names has before. -/
def CalledBefore (c : Scope) (h h' : String) : Prop :=
  ∀ i' k', c.CallsAt i' k' h' → ∃ i k, c.CallsAt i k h ∧ (i < i' ∨ i = i' ∧ k < k')

theorem nodes_eq_preorder (c : Scope) : c.nodes = c.file.ast.preorder := c.file.ast.map_find_true

theorem mem_calls : h ∈ c.nodes.flatMap c.nodeHeaders ↔ ∃ n, c.file.ast.Descends n ∧ ∃ k, c.CallsFor n k h := by
  simp only [nodes_eq_preorder, List.mem_flatMap, Ast.mem_preorder_iff, mem_nodeHeaders]

theorem mem_includes {own : Bool} : h ∈ c.includes own ↔
    own = true ∧ h = c.file.header ∨ ∃ n, c.file.ast.Descends n ∧ ∃ k, c.CallsFor n k h := by
  rw [includes, (firsts_distinct _).mem_iff, List.mem_append, mem_calls]
  cases own <;> simp

theorem calledBefore_of_before {h h' : String} (hbefore : Before (c.nodes.flatMap c.nodeHeaders) h h') :
    c.CalledBefore h h' := by
  rintro i' k' ⟨n, hn, hcall⟩
  obtain ⟨earlier, later, hsplit, rfl⟩ := exists_split hn
  obtain ⟨hs, hs', hheaders, hwithin⟩ := hcall.split
  have hmem : h ∈ earlier.flatMap c.nodeHeaders ++ hs := by
    refine hbefore _ (hs' ++ later.flatMap c.nodeHeaders) ?_
    rw [nodes_eq_preorder, hsplit, List.flatMap_append, List.flatMap_cons, hheaders]
    simp
  rcases List.mem_append.mp hmem with hmem | hmem
  · -- a node before this one
    obtain ⟨n', hn', hmem⟩ := List.mem_flatMap.mp hmem
    obtain ⟨i, hi⟩ := List.mem_iff_getElem?.mp hn'
    obtain ⟨k, hcall'⟩ := mem_nodeHeaders.mp hmem
    have hlt := (List.getElem?_eq_some_iff.mp hi).1
    exact ⟨i, k, ⟨n', by rwa [hsplit, List.getElem?_append_left hlt], hcall'⟩, .inl hlt⟩
  · -- a name before this one
    obtain ⟨k, hlt, hcall'⟩ := hwithin h hmem
    exact ⟨_, k, ⟨n, hn, hcall'⟩, .inr ⟨rfl, hlt⟩⟩

/-- The includes of a file, behind its own header or not, have no header twice. They have the own header if it is asked
for, every header that a node calls for to which the top of the file leads, and no other. The own header stands first,
and the others stand in the order of the first calls for them. -/
theorem includes_exact (c : Scope) (own : Bool) :
    (c.includes own).Nodup ∧
    (∀ h, h ∈ c.includes own ↔
      own = true ∧ h = c.file.header ∨ ∃ n, c.file.ast.Descends n ∧ ∃ k, c.CallsFor n k h) ∧
    (c.includes false).Pairwise c.CalledBefore ∧
    c.includes true = c.file.header :: (c.includes false).filter (· ≠ c.file.header) := by
  refine ⟨(firsts_distinct _).nodup, fun _ => mem_includes, ?_, distinct_cons _ _⟩
  exact (firsts_distinct _).ordered.imp calledBefore_of_before

end Cpp.Scope
end QiIdl
