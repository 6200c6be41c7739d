import QiIdl.Format.Canonical
import QiIdl.Proofs.Ast.Below

/-!
# Syntax without tags

Two trees are the same syntax when they differ in their tags alone. `erase` puts the one tag there is, `()`,
in place of every tag, so "the same syntax" becomes an equation. It can be checked one level at a time: nodes have one
erasure just if they are of one sort and payload, and the nodes right below them have one erasure
(`Node.erase_eq_of_below`). That is what `Node.same` looks at, so files are the same syntax just if they have the same
erasure (`Ast.same_iff`).

Every function below is the plain structural one, with a twin for lists where the type holds lists of itself.
The twins are maps, and the first lemma about each says so; after that nobody unfolds them.
-/

namespace QiIdl

variable {α β : Type}

/-! ## Erasing -/

mutual

/-- A literal without its tags. -/
def Literal.erase : Literal α → Literal Unit
  | .bool _ v => .bool () v
  | .int _ v => .int () v
  | .float _ v => .float () v
  | .string _ v => .string () v
  | .list _ items => .list () (Literal.eraseAll items)
  | .tuple _ items => .tuple () (Literal.eraseAll items)
  | .dict _ entries => .dict () (Literal.eraseEntries entries)

def Literal.eraseAll : List (Literal α) → List (Literal Unit)
  | [] => []
  | l :: ls => l.erase :: Literal.eraseAll ls

def Literal.eraseEntries : List (Literal α × Literal α) → List (Literal Unit × Literal Unit)
  | [] => []
  | (key, value) :: rest => (key.erase, value.erase) :: Literal.eraseEntries rest

end

mutual

def Expr.erase : Expr α → Expr Unit
  | .binary _ op left right => .binary () op left.erase right.erase
  | .unary _ op operand => .unary () op operand.erase
  | .var _ name => .var () name
  | .literal _ l => .literal () l.erase
  | .call _ name args => .call () name (Expr.eraseAll args)

def Expr.eraseAll : List (Expr α) → List (Expr Unit)
  | [] => []
  | e :: es => e.erase :: Expr.eraseAll es

end

mutual

def TypeExpr.erase : TypeExpr α → TypeExpr Unit
  | .builtin _ type => .builtin () type
  | .custom _ name => .custom () name
  | .list _ element => .list () element.erase
  | .map _ key value => .map () key.erase value.erase
  | .tuple _ elements => .tuple () (TypeExpr.eraseAll elements)

def TypeExpr.eraseAll : List (TypeExpr α) → List (TypeExpr Unit)
  | [] => []
  | t :: ts => t.erase :: TypeExpr.eraseAll ts

end

def Value.erase : Value α → Value Unit
  | .literal l => .literal l.erase
  | .expr e => .expr e.erase

def Param.erase (p : Param α) : Param Unit := ⟨p.name, p.type.erase⟩

def Fn.erase (d : Fn α) : Fn Unit := ⟨(), d.name, d.params.map Param.erase, d.ret.map TypeExpr.erase, d.doc⟩

/-- A signal or a property without its tags. -/
def Channel.erase (d : Channel α) : Channel Unit := ⟨(), d.name, d.params.map Param.erase, d.doc⟩

def Member.erase : Member α → Member Unit
  | .fn d => .fn d.erase
  | .emit d => .emit d.erase
  | .prop d => .prop d.erase

def Field.erase (d : Field α) : Field Unit := ⟨(), d.name, d.type.erase, d.initial.map Value.erase⟩

/-- What an entry of an enumeration stands for, without its tags. -/
def EnumMeaning.erase : EnumMeaning α → EnumMeaning Unit
  | .const v => .const v.erase
  | .type t => .type t.erase

/-- An entry of an enumeration without its tags. -/
def EnumItem.erase (d : EnumItem α) : EnumItem Unit := ⟨(), d.name, d.meaning.erase⟩

mutual

/-- An object or a line of its body without its tags. -/
def ObjectItem.erase : ObjectItem α → ObjectItem Unit
  | .property _ name value => .property () name value.erase
  | .connect _ sender receiver => .connect () sender.erase receiver.erase
  | .object _ type _ name body => .object () type.erase () name (ObjectItem.eraseAll body)

/-- Some lines of a body without their tags. -/
def ObjectItem.eraseAll : List (ObjectItem α) → List (ObjectItem Unit)
  | [] => []
  | o :: os => o.erase :: ObjectItem.eraseAll os

end

def Node.erase : Node α → Node Unit
  | .literal l => .literal l.erase
  | .expr e => .expr e.erase
  | .type t => .type t.erase
  | .interface d => .interface ⟨(), d.name, d.inherits, d.members.map Member.erase, d.doc⟩
  | .fn d => .fn d.erase
  | .emit d => .emit d.erase
  | .prop d => .prop d.erase
  | .struct d => .struct ⟨(), d.name, d.inherits, d.fields.map Field.erase, d.doc⟩
  | .field d => .field d.erase
  | .const d => .const ⟨(), d.name, d.type.map TypeExpr.erase, d.value.erase⟩
  | .typedef d => .typedef ⟨(), d.name, d.type.erase⟩
  | .enum d => .enum ⟨(), d.name, d.items.map EnumItem.erase, d.doc⟩
  | .enumItem d => .enumItem d.erase
  | .package _ name => .package () name
  | .imports d => .imports ⟨(), d.package, d.scope⟩
  | .object o => .object o.erase
  | .var d => .var ⟨(), d.name, d.type.map TypeExpr.erase, d.value.map Value.erase⟩
  | .comment _ text => .comment () text

theorem Literal.eraseAll_eq_map (ls : List (Literal α)) : Literal.eraseAll ls = ls.map Literal.erase :=
  eq_map_of_cons rfl (fun _ _ => rfl) ls

theorem Literal.eraseEntries_eq_map (es : List (Literal α × Literal α)) :
    Literal.eraseEntries es = es.map fun e => (e.1.erase, e.2.erase) := eq_map_of_cons rfl (fun _ _ => rfl) es

theorem Expr.eraseAll_eq_map (es : List (Expr α)) : Expr.eraseAll es = es.map Expr.erase :=
  eq_map_of_cons rfl (fun _ _ => rfl) es

theorem TypeExpr.eraseAll_eq_map (ts : List (TypeExpr α)) : TypeExpr.eraseAll ts = ts.map TypeExpr.erase :=
  eq_map_of_cons rfl (fun _ _ => rfl) ts

theorem ObjectItem.eraseAll_eq_map (os : List (ObjectItem α)) :
    ObjectItem.eraseAll os = os.map ObjectItem.erase := eq_map_of_cons rfl (fun _ _ => rfl) os

/-! ## One level of an erasure -/

theorem Node.sort_erase (n : Node α) : n.erase.sort = n.sort := by
  cases n with
  | literal l => cases l <;> rfl
  | expr e => cases e <;> rfl
  | type t => cases t <;> rfl
  | object o => cases o <;> rfl
  | _ => rfl

theorem Param.name_erase (params : List (Param α)) :
    (params.map Param.erase).map (·.name) = params.map (·.name) := by
  rw [List.map_map]
  rfl

theorem Node.payload_erase (n : Node α) : n.erase.payload = n.payload := by
  cases n with
  | literal l => cases l <;> rfl
  | expr e => cases e <;> rfl
  | type t => cases t <;> rfl
  | object o => cases o <;> rfl
  | fn d => exact congrArg (Payload.taking d.name d.doc) (Param.name_erase d.params)
  | emit d => exact congrArg (Payload.taking d.name d.doc) (Param.name_erase d.params)
  | prop d => exact congrArg (Payload.taking d.name d.doc) (Param.name_erase d.params)
  | enumItem d =>
    obtain ⟨t, name, meaning⟩ := d
    cases meaning <;> rfl
  | var d => simp only [Node.erase, Node.payload, Option.isSome_map]
  | _ => rfl

theorem Value.erase_node (v : Value α) : v.node.erase = v.erase.node := by
  cases v <;> rfl

theorem Member.erase_node (m : Member α) : m.node.erase = m.erase.node := by
  cases m <;> rfl

/-- Below a node without tags are the nodes below it without their tags. -/
theorem Node.below_erase (n : Node α) : n.erase.below = n.below.map erase := by
  have htype (type : Option (TypeExpr α)) :
      ((type.map TypeExpr.erase).map Node.type).toList = (type.map Node.type).toList.map erase := by
    cases type <;> rfl
  have hvalue (value : Option (Value α)) :
      ((value.map Value.erase).map Value.node).toList = (value.map Value.node).toList.map erase := by
    cases value with
    | none => rfl
    | some v => exact congrArg (fun n => [n]) v.erase_node.symm
  cases n with
  | literal l =>
    cases l with
    | list _ items | tuple _ items => simp [erase, Literal.erase, below, Literal.eraseAll_eq_map]
    | dict _ entries =>
      simp [erase, Literal.erase, below, Literal.eraseEntries_eq_map, List.flatMap_map, List.map_flatMap]
    | _ => rfl
  | expr e =>
    cases e with
    | call _ name args => simp [erase, Expr.erase, below, Expr.eraseAll_eq_map]
    | _ => rfl
  | type t =>
    cases t with
    | tuple _ elements => simp [erase, TypeExpr.erase, below, TypeExpr.eraseAll_eq_map]
    | _ => rfl
  | interface d =>
    rw [erase, below, below, List.map_map, List.map_map]
    exact List.map_congr_left fun m _ => m.erase_node.symm
  | fn d =>
    rw [erase, Fn.erase, below, below, htype, List.map_append, List.map_map, List.map_map]
    rfl
  | emit d | prop d => simp [erase, Channel.erase, Param.erase, below]
  | struct d => simp [erase, below]
  | field d =>
    rw [erase, Field.erase, below, below, hvalue]
    rfl
  | const d =>
    rw [erase, below, below, htype, List.map_append, List.map_singleton, Value.erase_node]
  | enum d => simp [erase, below]
  | enumItem d =>
    obtain ⟨_, _, meaning⟩ := d
    cases meaning with
    | const v => exact congrArg (fun n => [n]) v.erase_node.symm
    | type t => rfl
  | object o =>
    cases o with
    | property _ name value => exact congrArg (fun n => [n]) value.erase_node.symm
    | connect _ sender receiver =>
      rw [erase, ObjectItem.erase, below, below, ← sender.erase_node, ← receiver.erase_node]
      rfl
    | object _ type nameTag name body =>
      simp [erase, ObjectItem.erase, Literal.erase, below, ObjectItem.eraseAll_eq_map]
  | var d => rw [erase, below, below, htype, hvalue, List.map_append]
  | _ => rfl

/-- The tree of an erased node is the tree of the node with every label erased. -/
theorem Node.tree_erase (n : Node α) : n.erase.tree = n.tree.map erase := by
  induction n using Node.induct with
  | h n ih =>
    rw [tree_eq, n.tree_eq, Tree.map_node, below_erase, List.map_map, List.map_map]
    exact congrArg (Tree.node n.erase) (List.map_congr_left ih)

/-! ## The same syntax -/

/-- What is seen of a node, whatever stands below it. -/
def Node.face (n : Node α) : NodeSort × Payload := (n.sort, n.payload)

theorem Node.alike_iff (a b : Node α) : a.alike b = true ↔ a.face = b.face := by
  simp [alike, face]

/-- Nodes that look the same have one erasure if the nodes right below them do. -/
theorem Node.erase_eq_of_below {a : Node α} {b : Node β} (hlook : a.face = b.face)
    (hbelow : a.below.map erase = b.below.map erase) : a.erase = b.erase := by
  obtain ⟨hsort, hpayload⟩ := Prod.mk.inj hlook
  refine eq_of_below ?_ ?_ ?_
  · rw [sort_erase, sort_erase, hsort]
  · rw [payload_erase, payload_erase, hpayload]
  · rw [below_erase, below_erase, hbelow]

/-- Nodes have one erasure just if they look the same all the way down. -/
theorem Node.erase_eq_iff {a : Node α} {b : Node β} : a.erase = b.erase ↔ a.tree.map face = b.tree.map face := by
  constructor
  · have hlook {γ : Type} (n : Node γ) : n.erase.tree.map face = n.tree.map face := by
      rw [tree_erase, Tree.map_map]
      refine congrArg (n.tree.map ·) (funext fun k => ?_)
      rw [Function.comp_apply, face, face, sort_erase, payload_erase]
    intro h
    rw [← hlook, h, hlook]
  · intro h
    induction a using Node.induct generalizing b with
    | h a ih =>
      rw [a.tree_eq, b.tree_eq, Tree.map_node, Tree.map_node, Tree.node.injEq, List.map_map, List.map_map] at h
      exact erase_eq_of_below h.1 (map_eq_of_map h.2 fun child hchild _ _ => ih child hchild)

/-- A node and what stands below it, with what is seen of the tags. -/
def Node.sketch {ι : Type} (view : α → ι) (n : Node α) : Tree (ι × NodeSort × Payload) :=
  n.tree.map fun n => (view n.tag, n.face)

theorem Node.sketch_eq {ι : Type} (view : α → ι) (n : Node α) :
    n.sketch view = .node (view n.tag, n.face) (n.below.map (sketch view)) := by
  rw [sketch, n.tree_eq, Tree.map_node, List.map_map]
  rfl

/-- Nodes have one sketch if they look the same, and so do the nodes right below them. -/
theorem Node.sketch_eq_of_below {ι : Type} {view : α → ι} {view' : β → ι} {a : Node α} {b : Node β}
    (htag : view a.tag = view' b.tag) (hlook : a.face = b.face)
    (hbelow : a.below.map (sketch view) = b.below.map (sketch view')) : a.sketch view = b.sketch view' := by
  rw [a.sketch_eq, b.sketch_eq, htag, hlook, hbelow]

/-- Sketches show the whole syntax. -/
theorem Node.erase_eq_of_sketch {ι : Type} {view : α → ι} {view' : β → ι} {a : Node α} {b : Node β}
    (h : a.sketch view = b.sketch view') : a.erase = b.erase := by
  have hlook {γ : Type} (n : Node γ) (view : γ → ι) : n.tree.map face = (n.sketch view).map Prod.snd := by
    rw [sketch, Tree.map_map]
    rfl
  rw [erase_eq_iff, hlook, hlook, h]

/-- What has the sketch of a literal is one. -/
theorem Expr.literal_of_sketch {ι : Type} {view : α → ι} {view' : β → ι} {t : α} {l : Literal α} {e : Expr β}
    (h : (Node.expr (.literal t l)).sketch view = (Node.expr e).sketch view') :
    ∃ t' l', e = .literal t' l' ∧ (Node.literal l).sketch view = (Node.literal l').sketch view' := by
  cases e with
  | literal t' l' =>
    rw [Node.sketch_eq, Node.sketch_eq, Tree.node.injEq] at h
    exact ⟨t', l', rfl, (List.cons.inj h.2).1⟩
  | _ => cases Node.expr.inj (Node.erase_eq_of_sketch h)

/-- Two nodes are the same syntax just if they are the same without tags. -/
theorem Node.same_iff {a b : Node α} : a.same b = true ↔ a.erase = b.erase := by
  rw [same, Tree.agree_iff alike_iff, erase_eq_iff]

/-- Two files are the same syntax just if they are the same without tags. -/
theorem Ast.same_iff {a b : Ast} : a.same b = true ↔ a.roots.map Node.erase = b.roots.map Node.erase := by
  rw [same, Tree.agreeAll_iff Node.alike_iff, trees, trees, List.map_map, List.map_map]
  exact ⟨fun h => map_eq_of_map h fun _ _ _ _ => Node.erase_eq_iff.mpr,
    fun h => map_eq_of_map h fun _ _ _ _ => Node.erase_eq_iff.mp⟩

end QiIdl
