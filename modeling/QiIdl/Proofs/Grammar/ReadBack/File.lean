import QiIdl.Proofs.Grammar.ReadBack.Declarations

/-!
# Files are read back

The nodes at the top of a file are read one after the other, each behind its documentation. No fault is found on
the way, so the whole reading succeeds (`parseTokens_kinds`).
-/

namespace QiIdl

open Takes

variable {α : Type} {next : List TokenKind}

namespace Node

/-- The node is no comment. -/
def IsPlain : Node α → Prop
  | .comment .. => False
  | _ => True

/-- A declaration or statement is read back behind its documentation. -/
theorem takes_parseItem {n : Node α} (htop : n.IsTop) (hplain : n.IsPlain) (hn : n.tree.Every Node.Sound)
    (hapart : n.tree.Every Node.Apart) :
    Takes (σ := Arena) (Node.parseItem n.doc?) n.kinds next fun n' => n'.erase = n.erase := by
  rw [← List.append_nil n.kinds]
  refine .peek look fun t ht => ?_
  cases n with
  | literal | expr | type | emit | prop | field | enumItem => exact htop.elim
  | comment => exact hplain.elim
  | interface d =>
    have hk : t.kind = .keyword .interface := ht
    simp only [hk]
    exact .bind (Interface.takes_parse hn) fun d' hd => .pure hd
  | fn d =>
    have hk : t.kind = .keyword .fn := ht
    simp only [hk]
    exact .bind (Fn.takes_parse hn) fun d' hd => .pure (congrArg Node.fn hd)
  | struct d =>
    have hk : t.kind = .keyword .struct := ht
    simp only [hk]
    exact .bind (Struct.takes_parse hn) fun d' hd => .pure hd
  | enum d =>
    have hk : t.kind = .keyword .enum := ht
    simp only [hk]
    exact .bind (Enum.takes_parse hn) fun d' hd => .pure hd
  | const d =>
    have hk : t.kind = .keyword .const := ht
    simp only [hk]
    exact .bind (Const.takes_parse hn) fun d' hd => .pure hd
  | typedef d =>
    have hk : t.kind = .keyword .typedef := ht
    simp only [hk]
    exact .bind (Typedef.takes_parse ((Tree.every_node.mp hn).2 _ (by simp))) fun d' hd => .pure hd
  | package tag name =>
    have hk : t.kind = .keyword .package := ht
    simp only [hk, List.append_nil]
    exact takes_parsePackage tag name
  | imports d =>
    have hread : Takes (σ := Arena) (do let d ← Import.parse; Pure.pure (Node.imports d)) (d.kinds ++ []) next
        fun n' => n'.erase = (Node.imports d).erase :=
      .bind (Import.takes_parse hn.label.2) fun d' hd => .pure hd
    obtain ⟨tag, package, scope⟩ := d
    cases scope with
    | package =>
      have hk : t.kind = .keyword .importKw := ht
      simp only [hk]
      exact hread
    | all | names =>
      have hk : t.kind = .keyword .fromKw := ht
      simp only [hk]
      exact hread
  | object o =>
    cases o with
    | property | connect => exact htop.elim
    | object tag type nameTag name body =>
      have hk : t.kind = .keyword .object := ht
      simp only [hk]
      exact .bind (ObjectItem.takes_parse hn hapart) fun o ho => .pure (congrArg Node.object ho)
  | var d =>
    have hk : t.kind = .keyword .var := ht
    simp only [hk]
    exact .bind (Var.takes_parse hn) fun d' hd => .pure hd

theorem startsItem_kinds {n : Node α} (htop : n.IsTop) (hplain : n.IsPlain) :
    n.kinds ≠ [] ∧ (headKind n.kinds).StartsItem := by
  cases n with
  | literal | expr | type | emit | prop | field | enumItem => exact htop.elim
  | comment => exact hplain.elim
  | imports d =>
    obtain ⟨tag, package, scope⟩ := d
    cases scope <;> exact ⟨List.cons_ne_nil _ _, TokenKind.startsItem_keyword (by simp)⟩
  | object o => exact o.startsItem_kinds
  | _ => exact ⟨List.cons_ne_nil _ _, TokenKind.startsItem_keyword (by simp)⟩

theorem kinds_ne_nil {n : Node α} (htop : n.IsTop) : n.kinds ≠ [] := by
  by_cases hplain : n.IsPlain
  · exact (startsItem_kinds htop hplain).1
  · cases n with
    | comment => exact List.cons_ne_nil _ _
    | _ => exact absurd trivial hplain

theorem takes_parseComment (tag : α) (text : String) :
    Takes (σ := Arena) (parseComment text) (Node.comment tag text).kinds next
      fun n => n.erase = (Node.comment tag text).erase :=
  .step (advance (by simp)) fun _ _ => .step lineEnd fun _ _ => .enter fun _ => rfl

/-- What stands at the top of a file is read back, up to the end of the file. -/
theorem takes_parseItems : ∀ (roots : List (Node α)) (count : Nat), roots.length < count →
    (∀ n ∈ roots, n.IsTop ∧ n.tree.Every Node.Sound ∧ n.tree.Every Node.Apart) →
    Takes (σ := Arena) (parseItems count none) (roots.flatMap fun n => docKinds n.doc? ++ n.kinds) [.eof]
      fun ns => ns.map Node.erase = roots.map Node.erase
  | [], count + 1, _, _ => by
    exact .peek (layout_solid ⟨by simp [headKind], by simp [headKind], by simp⟩ none) fun _ _ =>
      .onKind rfl (.pure rfl)
  | n :: roots, count + 1, hlt, hroots => by
    have ih := takes_parseItems roots count (Nat.lt_of_succ_lt_succ hlt) fun n hn => hroots n (by simp [hn])
    obtain ⟨htop, hn, hapart⟩ := hroots n (by simp)
    rw [List.flatMap_cons, ← List.append_nil (roots.flatMap _), List.append_assoc]
    by_cases hplain : n.IsPlain
    · obtain ⟨hne, hstart⟩ := startsItem_kinds htop hplain
      have hhead (js : List TokenKind) : headKind (n.kinds ++ js ++ [.eof]) = headKind n.kinds := by
        rw [List.append_assoc, headKind_append hne]
      refine .bind (takes_layout ?_ n.doc?) fun d hd => .onKind (hhead _) ?_
      · rw [hhead]
        exact ⟨hstart.newline, hstart.docComment, by simp⟩
      subst hd
      split
      · rename_i hk
        exact absurd hk hstart.eof
      · rename_i hk
        exact absurd hk (hstart.comment rfl _)
      · refine .bind (recover (takes_parseItem htop hplain hn hapart)) fun o ho => .bind ih fun ns hns => .pure ?_
        obtain ⟨b, rfl, hb⟩ := ho
        simp [hb, hns]
    · cases n with
      | comment tag text =>
        show Takes _ ((Node.comment tag text).kinds ++ _) _ _
        refine .peek (layout_solid ⟨by simp [headKind, kinds], by simp [headKind, kinds], by simp⟩ none) fun d hd =>
          .onKind (k := .comment text) rfl ?_
        subst hd
        refine .bind (recover (takes_parseComment tag text)) fun o ho => .bind ih fun ns hns => .pure ?_
        obtain ⟨b, rfl, hb⟩ := ho
        simp [hb, hns]
      | _ => exact absurd trivial hplain

end Node

/-- Tokens of the kinds of some nodes are read as these nodes. -/
theorem parseTokens_kinds {toks : List Token} {roots : List (Node α)}
    (hroots : ∀ n ∈ roots, n.IsTop ∧ n.tree.Every Node.Sound ∧ n.tree.Every Node.Apart)
    (htoks : toks.map Token.kind = roots.flatMap (fun n => docKinds n.doc? ++ n.kinds) ++ [.eof]) :
    ∃ trees nodes, parseTokens (#[] : Arena) toks = .ok (trees, nodes) ∧
      trees.map Node.erase = roots.map Node.erase := by
  have hlen : roots.length < toks.length + 1 := by
    have hle : roots.length ≤ (roots.flatMap fun n => docKinds n.doc? ++ n.kinds).length :=
      length_le_flatMap fun n hn => by simp [Node.kinds_ne_nil (hroots n hn).1]
    rw [← List.length_map Token.kind, htoks, List.length_append]
    omega
  obtain ⟨toks, rest, rfl, hks, hrest⟩ := List.map_eq_append_iff.mp htoks
  obtain ⟨trees, last, nodes, hok, htrees⟩ :=
    Node.takes_parseItems roots _ hlen hroots toks rest (.point 0) [] #[] hks hrest
  refine ⟨trees, nodes, ?_, htrees⟩
  simp only [parseTokens, hok, List.isEmpty_nil, if_true]

end QiIdl
