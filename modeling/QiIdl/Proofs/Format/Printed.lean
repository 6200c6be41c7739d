import QiIdl.Proofs.Format.Kinds
import QiIdl.Proofs.Output.Writes

/-!
# The tokens of canonical declarations

Declarations are printed as steps of a writer, which adds margins and line feeds. `Prints steps ks` says that
these steps, taken at the start of a line and at any level, write lines that become tokens of the kinds `ks`.
It is closed under everything a canonical form is made of: one step after the other, a line, a scope.

A declaration with documentation is printed as the lines of the documentation and then itself. The two are kept
apart (`docKinds` and `Node.kinds`), since the parser reads the first before it knows what follows.
-/

namespace QiIdl

open Lexeme

/-! ## Steps that print lines -/

/-- At the start of a line, these steps write lines that become tokens of some kinds. -/
def Prints (steps : List Step) (ks : List TokenKind) : Prop := Writes steps (Lines · ks)

namespace Prints

variable {steps more : List Step} {ks js : List TokenKind}

theorem nil : Prints [] [] := Writes.nil .nil

theorem append (hs : Prints steps ks) (hm : Prints more js) : Prints (steps ++ more) (ks ++ js) :=
  Writes.append hs hm fun _ _ => Lines.append

theorem flatMap {ι : Type} {items : List ι} {print : ι → List Step} {kinds : ι → List TokenKind}
    (h : ∀ i ∈ items, Prints (print i) (kinds i)) : Prints (items.flatMap print) (items.flatMap kinds) := by
  induction items with
  | nil => exact nil
  | cons i items ih =>
    rw [List.flatMap_cons, List.flatMap_cons]
    exact (h i (by simp)).append (ih fun j hj => h j (by simp [hj]))

/-- An empty line. -/
theorem newline : Prints [.newline] [] := Writes.newline .empty

/-- What stands in a scope becomes the same tokens. -/
theorem scope (hs : Prints steps ks) : Prints [.scope steps] ks := Writes.scope hs

/-- A line of text. -/
theorem writeLine {text : String} (hne : text ≠ "")
    (h : ∀ margin, Lines (List.replicate margin ' ' ++ text.toList ++ ['\n']) ks) :
    Prints [.writeLine text] ks :=
  Writes.writeLine hne h

/-- A line of tokens. -/
theorem code {text : String} {k : TokenKind} (hk : Layout.depthAfter 1 k = 1) (hb : Balanced ks)
    (h : ∀ rest, Reads ('\n' :: rest) text.toList (k :: ks)) : Prints [.writeLine text] (k :: ks ++ [.newline]) := by
  refine writeLine ?_ fun margin => .code h (List.cons_ne_nil k ks) (.cons hk hb) margin
  rintro rfl
  cases h []

/-- A plain comment. -/
theorem comment {text : String} (h : IsRemark text.toList) :
    Prints [.writeLine ("# " ++ text)] [.comment text, .newline] := by
  refine writeLine (by simp [← String.toList_inj]) fun margin => ?_
  have hlines := Lines.comment h margin
  rw [String.ofList_toList] at hlines
  simpa [String.toList_append] using hlines

end Prints

/-- The tokens of a documentation text. -/
def docKinds (doc : Option String) : List TokenKind :=
  match doc with
  | some text => (Text.pieces '\n' text.toList).flatMap fun line => [.docComment (String.ofList line), .newline]
  | none => []

theorem Prints.docLines {doc : Option String} (h : IsDoc doc) : Prints (docLines doc) (docKinds doc) := by
  cases doc with
  | none => exact .nil
  | some text =>
    rw [QiIdl.docLines, List.map_eq_flatMap]
    refine .flatMap fun line hline => .writeLine (by simp [← String.toList_inj]) fun margin => ?_
    simpa [String.toList_append] using Lines.docComment (h text rfl line hline) margin

/-! ## Kinds -/

variable {α : Type}

def Param.kinds (p : Param α) : List TokenKind :=
  match p.name with
  | some name => .ident name :: p.type.kinds
  | none => p.type.kinds

def Param.kindsAll (params : List (Param α)) : List TokenKind :=
  .lparen :: (commaKinds (params.map Param.kinds) ++ [.rparen])

def inheritsKinds (names : List String) : List TokenKind :=
  if names.isEmpty then [] else .lparen :: (commaKinds (names.map dottedKinds) ++ [.rparen])

/-- The tokens of a type that may be missing. -/
def optionalTypeKinds (type : Option (TypeExpr α)) : List TokenKind := (type.map TypeExpr.kinds).getD []

/-- The tokens of an initial value that may be missing. -/
def initialKinds (value : Option (Value α)) : List TokenKind := (value.map fun v => .eq :: v.kinds).getD []

/-- The tokens of a block. -/
def blockKinds (heading body : List TokenKind) : List TokenKind :=
  heading ++ .newline :: (body ++ [.keyword .endKw, .newline])

/-- The tokens of a function, without its documentation. -/
def Fn.kinds (d : Fn α) : List TokenKind :=
  .keyword .fn :: .ident d.name :: (Param.kindsAll d.params ++ optionalTypeKinds d.ret) ++ [.newline]

/-- The tokens of a signal or a property, without its documentation. -/
def Channel.kinds (keyword : Keyword) (d : Channel α) : List TokenKind :=
  .keyword keyword :: .ident d.name :: Param.kindsAll d.params ++ [.newline]

def Member.kinds : Member α → List TokenKind
  | .fn d => d.kinds
  | .emit d => d.kinds .emit
  | .prop d => d.kinds .prop

/-- The documentation of a member of an interface. -/
def Member.doc : Member α → Option String
  | .fn d => d.doc
  | .emit d | .prop d => d.doc

def Field.kinds (d : Field α) : List TokenKind :=
  .ident d.name :: (d.type.kinds ++ initialKinds d.initial) ++ [.newline]

def EnumItem.kinds (d : EnumItem α) : List TokenKind :=
  match d.meaning with
  | .const value => .keyword .const :: .ident d.name :: .eq :: value.kinds ++ [.newline]
  | .type type => .keyword .typedef :: (type.kinds ++ [.ident d.name]) ++ [.newline]

def Import.kinds (d : Import α) : List TokenKind :=
  match d.scope with
  | .package => .keyword .importKw :: dottedKinds d.package ++ [.newline]
  | .names names => .keyword .fromKw :: (dottedKinds d.package ++ .keyword .importKw ::
      commaKinds (names.map fun name => [.ident name])) ++ [.newline]
  | .all => .keyword .fromKw :: (dottedKinds d.package ++ [.keyword .importKw, .operator .multiply]) ++ [.newline]

mutual

/-- The tokens of an object or a line of its body. -/
def ObjectItem.kinds : ObjectItem α → List TokenKind
  | .property _ name value => .keyword .prop :: .ident name :: value.kinds ++ [.newline]
  | .connect _ sender receiver => .keyword .atKw :: (sender.kinds ++ receiver.kinds) ++ [.newline]
  | .object _ type _ name body =>
    blockKinds (.keyword .object :: (type.kinds ++ [.string name])) (ObjectItem.kindsAll body)

def ObjectItem.kindsAll : List (ObjectItem α) → List TokenKind
  | [] => []
  | o :: os => o.kinds ++ ObjectItem.kindsAll os

end

/-- The tokens of a node that stands at the top of a file, without its documentation. -/
def Node.kinds : Node α → List TokenKind
  | interface d => blockKinds (.keyword .interface :: .ident d.name :: inheritsKinds d.inherits)
      (d.members.flatMap fun m => docKinds m.doc ++ m.kinds)
  | fn d => d.kinds
  | struct d => blockKinds (.keyword .struct :: .ident d.name :: inheritsKinds d.inherits)
      (d.fields.flatMap Field.kinds)
  | const d => .keyword .const :: .ident d.name :: (optionalTypeKinds d.type ++ .eq :: d.value.kinds) ++ [.newline]
  | typedef d => .keyword .typedef :: (d.type.kinds ++ [.ident d.name]) ++ [.newline]
  | enum d => blockKinds [.keyword .enum, .ident d.name] (d.items.flatMap EnumItem.kinds)
  | package _ name => .keyword .package :: dottedKinds name ++ [.newline]
  | imports d => d.kinds
  | object o => o.kinds
  | var d => .keyword .var :: .ident d.name :: (optionalTypeKinds d.type ++ initialKinds d.value) ++ [.newline]
  | comment _ text => [.comment text, .newline]
  | _ => []

/-! ## Parts of a line -/

variable {rest : List Char}

/-- A keyword and the blank behind it. -/
theorem Lexeme.Reads.lead {text : List Char} (keyword : Keyword) (h : text = keyword.spelling.toList ++ [' ']) :
    Reads rest text [.keyword keyword] := by
  rw [h]
  refine .append (.keyword keyword ?_) .space
  rfl

/-- A name where a boundary follows. -/
theorem Lexeme.Reads.nameBefore {name : String} (hn : IsName name) (h : Ends rest) :
    Reads rest name.toList [.ident name] := .name hn h.stops_isWordPart

theorem ends_feed (rest : List Char) : Ends ('\n' :: rest) := rfl

theorem Lexeme.Reads.equals : Reads rest [' ', '=', ' '] [.eq] := by
  refine Reads.space.append (.append (.sign (c := '=') rfl fun d hd => ?_) .space)
  cases hd
  rfl

theorem reads_optionalType {type : Option (TypeExpr α)} (ht : ∀ t ∈ type, t.tree.Every Node.Legible) (h : Ends rest) :
    Reads rest ( canonicalAnnotation type).toList (optionalTypeKinds type) := by
  cases type with
  | none => exact .nil
  | some t =>
    rw [ canonicalAnnotation, String.toList_append]
    exact .append .space (t.reads (ht t rfl) h)

theorem ends_optionalType (type : Option (TypeExpr α)) (h : Ends rest) :
    Ends (( canonicalAnnotation type).toList ++ rest) := by
  cases type with
  | none => exact h
  | some t =>
    rw [ canonicalAnnotation, String.toList_append]
    rfl

theorem balanced_optionalType (type : Option (TypeExpr α)) : Balanced (optionalTypeKinds type) := by
  cases type with
  | none => exact .nil
  | some t => exact t.balanced

theorem reads_initial {value : Option (Value α)} (hv : ∀ v ∈ value, v.tree.Every Node.Legible) (h : Ends rest) :
    Reads rest (canonicalInitial value).toList (initialKinds value) := by
  cases value with
  | none => exact .nil
  | some v =>
    rw [canonicalInitial, String.toList_append]
    exact .append .equals (v.reads (hv v rfl) h)

theorem ends_initial (value : Option (Value α)) (h : Ends rest) :
    Ends ((canonicalInitial value).toList ++ rest) := by
  cases value with
  | none => exact h
  | some v =>
    rw [canonicalInitial, String.toList_append]
    rfl

theorem balanced_initial (value : Option (Value α)) : Balanced (initialKinds value) := by
  cases value with
  | none => exact .nil
  | some v => exact .cons rfl v.balanced

/-- Parameters are read as their tokens. -/
theorem Param.reads {params : List (Param α)} (hn : Param.Named params)
    (ht : ∀ p ∈ params, p.type.tree.Every Node.Legible) :
    Reads rest (Param.canonicalAll params).toList (Param.kindsAll params) := by
  have hread : ∀ p ∈ params, ∀ rest, Ends rest → Reads rest p.canonical.toList p.kinds := by
    intro p hp rest h
    have hname := hn p hp
    unfold Param.canonical Param.kinds
    cases hpn : p.name with
    | none => exact p.type.reads (ht p hp) h
    | some name =>
      simp only [String.toList_append, List.append_assoc]
      refine .append (.nameBefore (hname name hpn) ?_) (Reads.space.append (p.type.reads (ht p hp) h))
      rfl
  simp only [Param.canonicalAll, Param.kindsAll, String.toList_append, List.append_assoc]
  exact .append .lparen (.append (.commaList hread rfl) .rparen)

theorem Param.ends_canonicalAll (params : List (Param α)) :
    Ends ((Param.canonicalAll params).toList ++ rest) := by
  rw [Param.canonicalAll, String.toList_append, String.toList_append]
  rfl

theorem Param.balanced_kindsAll (params : List (Param α)) : Balanced (Param.kindsAll params) := by
  refine .parens (balanced_commaKinds fun p _ => ?_)
  unfold Param.kinds
  split
  · exact .cons rfl p.type.balanced
  · exact p.type.balanced

theorem reads_inherits {names : List String} (hn : ∀ name ∈ names, IsDotted name) :
    Reads rest (canonicalInherits names).toList (inheritsKinds names) := by
  unfold canonicalInherits inheritsKinds
  split
  · exact .nil
  · simp only [String.toList_append, List.append_assoc]
    have hread : ∀ name ∈ names, ∀ rest, Ends rest → Reads rest (id name).toList (dottedKinds name) :=
      fun name h rest hrest => .dotted (hn name h) hrest
    have hlist := Reads.commaList hread (show Ends (")".toList ++ rest) from rfl)
    rw [List.map_id] at hlist
    exact .append .lparen (.append hlist .rparen)

theorem ends_inherits (names : List String) (h : Ends rest) : Ends ((canonicalInherits names).toList ++ rest) := by
  unfold canonicalInherits
  split
  · exact h
  · rw [String.toList_append, String.toList_append]
    rfl

theorem balanced_inherits (names : List String) : Balanced (inheritsKinds names) := by
  unfold inheritsKinds
  split
  · exact .nil
  · exact .parens (balanced_commaKinds fun name _ => balanced_dottedKinds name)

/-! ## Declarations -/

/-- A block prints its heading, its body and its end. -/
theorem Prints.block {heading : String} {k : TokenKind} {hks bks : List TokenKind} {body : List Step}
    (hk : Layout.depthAfter 1 k = 1) (hb : Balanced hks) (hbody : Prints body bks)
    (hh : ∀ rest, Reads ('\n' :: rest) heading.toList (k :: hks)) :
    Prints (canonicalBlock heading body) (blockKinds (k :: hks) bks) := by
  have hend : Prints [.writeLine "end"] [.keyword .endKw, .newline] := .code rfl .nil fun rest => .keyword .endKw rfl
  have h := (Prints.code hk hb hh).append (hbody.scope.append hend)
  rw [List.append_assoc, List.singleton_append] at h
  exact h

theorem Fn.prints {d : Fn α} (h : d.tree.Every Node.Legible) : Prints d.canonical (docKinds d.doc ++ d.kinds) := by
  obtain ⟨⟨⟨hn, hp, hdoc⟩, -⟩, hparams, hret⟩ := Fn.every_tree.mp h
  refine (Prints.docLines hdoc).append (.code rfl
    (.cons rfl ((Param.balanced_kindsAll _).append (balanced_optionalType _))) fun rest => ?_)
  show Reads _ ("fn " ++ d.name ++ Param.canonicalAll d.params ++ canonicalAnnotation d.ret).toList _
  simp only [String.toList_append, List.append_assoc]
  refine .append (.lead .fn rfl) (.append (.nameBefore hn ?_)
    (.append (Param.reads hp hparams) (reads_optionalType hret (ends_feed rest))))
  rw [List.append_assoc]
  exact Param.ends_canonicalAll _

theorem Channel.prints (keyword : Keyword) {d : Channel α} (hn : IsName d.name) (hp : Param.Named d.params)
    (hdoc : IsDoc d.doc) (hbelow : ∀ t ∈ Param.trees d.params, t.Every Node.Legible) :
    Prints (d.canonical keyword.spelling) (docKinds d.doc ++ d.kinds keyword) := by
  have hparams : ∀ p ∈ d.params, p.type.tree.Every Node.Legible := fun p hp =>
    hbelow _ (List.mem_map_of_mem hp)
  refine (Prints.docLines hdoc).append (.code rfl (.cons rfl (Param.balanced_kindsAll _)) fun rest => ?_)
  simp only [String.toList_append, List.append_assoc]
  refine .append (.keyword keyword ?_) (Reads.space.append (.append
    (.nameBefore hn (Param.ends_canonicalAll _)) (Param.reads hp hparams)))
  rfl

theorem Member.prints {d : Member α} (h : d.tree.Every Node.Legible) :
    Prints d.canonical (docKinds d.doc ++ d.kinds) := by
  cases d with
  | fn d => exact Fn.prints h
  | emit d =>
    obtain ⟨⟨⟨hn, hp, hdoc⟩, -⟩, hbelow⟩ := Tree.every_node.mp h
    exact Channel.prints .emit hn hp hdoc hbelow
  | prop d =>
    obtain ⟨⟨⟨hn, hp, hdoc⟩, -⟩, hbelow⟩ := Tree.every_node.mp h
    exact Channel.prints .prop hn hp hdoc hbelow

theorem Field.prints {d : Field α} (h : d.tree.Every Node.Legible) : Prints d.canonical d.kinds := by
  obtain ⟨⟨⟨hn, -⟩, -⟩, htype, hvalue⟩ := Field.every_tree.mp h
  refine .code rfl (d.type.balanced.append (balanced_initial _)) fun rest => ?_
  simp only [String.toList_append, List.append_assoc]
  refine .append (.nameBefore hn ?_) (Reads.space.append (.append
    (d.type.reads htype (ends_initial _ rfl)) (reads_initial hvalue rfl)))
  rfl

theorem EnumItem.prints {d : EnumItem α} (h : d.tree.Every Node.Legible) : Prints d.canonical d.kinds := by
  obtain ⟨⟨⟨hn, -⟩, -⟩, hbelow⟩ := Tree.every_node.mp h
  obtain ⟨tag, name, meaning⟩ := d
  cases meaning with
  | const v =>
    refine .code rfl (.cons rfl (.cons rfl v.balanced)) fun rest => ?_
    simp only [String.toList_append, List.append_assoc]
    refine .append (.lead .const rfl) (.append (.nameBefore hn ?_)
      (.append .equals (v.reads (hbelow _ (by simp)) rfl)))
    rfl
  | type t =>
    refine .code rfl (t.balanced.append (.single rfl)) fun rest => ?_
    simp only [String.toList_append, List.append_assoc]
    refine .append (.lead .typedef rfl) (.append (t.reads (hbelow _ (by simp)) ?_)
      (Reads.space.append (.nameBefore hn rfl)))
    rfl

theorem Import.prints {d : Import α} (hp : IsDotted d.package) (hs : d.scope.Sound) :
    Prints [.writeLine d.canonical] d.kinds := by
  obtain ⟨tag, package, scope⟩ := d
  cases scope with
  | package =>
    refine .code rfl (balanced_dottedKinds _) fun rest => ?_
    show Reads _ ("import " ++ package).toList _
    rw [String.toList_append]
    exact .append (.lead .importKw rfl) (.dotted hp rfl)
  | names names =>
    have hread : ∀ name ∈ names, ∀ rest, Ends rest → Reads rest (id name).toList [.ident name] :=
      fun name h rest hrest => .nameBefore (hs.2 name h) hrest
    refine .code rfl ((balanced_dottedKinds _).append (.cons rfl (balanced_commaKinds fun _ _ => .single rfl)))
      fun rest => ?_
    have hlist := Reads.commaList hread (show Ends ('\n' :: rest) from rfl)
    rw [List.map_id] at hlist
    show Reads _ ("from " ++ package ++ " import " ++ commaList names).toList _
    simp only [String.toList_append, List.append_assoc]
    refine .append (.lead .fromKw rfl) (.append (.dotted hp ?_)
      (.append (Reads.space.append (.lead .importKw rfl)) hlist))
    rfl
  | all =>
    refine .code rfl ((balanced_dottedKinds _).append (.cons rfl (.single rfl))) fun rest => ?_
    show Reads _ ("from " ++ package ++ " import *").toList _
    simp only [String.toList_append, List.append_assoc]
    refine .append (.lead .fromKw rfl) (.append (.dotted hp ?_)
      (.append (Reads.space.append (.lead .importKw rfl)) (.bracket (c := '*') rfl fun _ => rfl)))
    rfl

theorem ObjectItem.kindsAll_eq_flatMap (os : List (ObjectItem α)) :
    ObjectItem.kindsAll os = os.flatMap ObjectItem.kinds := by
  induction os with
  | nil => rfl
  | cons o os ih => rw [kindsAll, ih, List.flatMap_cons]

theorem ObjectItem.canonicalAll_eq_flatMap (os : List (ObjectItem α)) :
    ObjectItem.canonicalAll os = os.flatMap ObjectItem.canonical := by
  induction os with
  | nil => rfl
  | cons o os ih => rw [canonicalAll, ih, List.flatMap_cons]

theorem ObjectItem.prints : ∀ {o : ObjectItem α}, o.tree.Every Node.Legible → Prints o.canonical o.kinds
  | .property _ name value, h => by
    obtain ⟨⟨⟨hn, -⟩, -⟩, hv⟩ := every_property.mp h
    refine .code rfl (.cons rfl value.balanced) fun rest => ?_
    simp only [String.toList_append, List.append_assoc]
    refine .append (.lead .prop rfl) (.append (.nameBefore hn ?_) (Reads.space.append (value.reads hv rfl)))
    rfl
  | .connect _ sender receiver, h => by
    obtain ⟨-, hs, hr⟩ := every_connect.mp h
    refine .code rfl (sender.balanced.append receiver.balanced) fun rest => ?_
    simp only [String.toList_append, List.append_assoc]
    refine .append (.lead .atKw rfl) (.append (sender.reads hs ?_) (Reads.space.append (receiver.reads hr rfl)))
    rfl
  | .object _ type _ name body, h => by
    obtain ⟨-, ht, -, hbody⟩ := every_object.mp h
    rw [canonical, kinds, canonicalAll_eq_flatMap, kindsAll_eq_flatMap]
    refine .block rfl (type.balanced.append (.single rfl)) (.flatMap fun o ho => prints (hbody o ho)) fun rest => ?_
    simp only [String.toList_append, List.append_assoc]
    refine .append (.lead .object rfl) (.append (type.reads ht ?_) (Reads.space.append (.quoted name)))
    rfl

/-! ## Nodes -/

/-- A node at the top of a file is printed as its documentation and itself. -/
theorem Node.prints {n : Node α} (htop : n.IsTop) (h : n.tree.Every Node.Legible) :
    Prints n.canonical (docKinds n.doc? ++ n.kinds) := by
  cases n with
  | literal | expr | type | emit | prop | field | enumItem => exact htop.elim
  | interface d =>
    obtain ⟨⟨⟨hn, hi, hdoc⟩, -⟩, hbelow⟩ := Tree.every_node.mp h
    refine (Prints.docLines hdoc).append (.block rfl (.cons rfl (balanced_inherits _)) (.flatMap fun m hm =>
      Member.prints (hbelow _ (List.mem_map_of_mem hm))) fun rest => ?_)
    simp only [String.toList_append, List.append_assoc]
    exact .append (.lead .interface rfl)
      (.append (.nameBefore hn (ends_inherits _ (ends_feed rest))) (reads_inherits hi))
  | fn d => exact Fn.prints h
  | struct d =>
    obtain ⟨⟨⟨hn, hi, hdoc⟩, -⟩, hbelow⟩ := Tree.every_node.mp h
    refine (Prints.docLines hdoc).append (.block rfl (.cons rfl (balanced_inherits _)) (.flatMap fun m hm =>
      Field.prints (hbelow _ (List.mem_map_of_mem hm))) fun rest => ?_)
    simp only [String.toList_append, List.append_assoc]
    exact .append (.lead .struct rfl)
      (.append (.nameBefore hn (ends_inherits _ (ends_feed rest))) (reads_inherits hi))
  | enum d =>
    obtain ⟨⟨⟨hn, hdoc⟩, -⟩, hbelow⟩ := Tree.every_node.mp h
    refine (Prints.docLines hdoc).append (.block rfl (.single rfl) (.flatMap fun m hm => EnumItem.prints (hbelow _
      (List.mem_map_of_mem hm))) fun rest => ?_)
    rw [String.toList_append]
    exact .append (.lead .enum rfl) (.nameBefore hn rfl)
  | const d =>
    obtain ⟨⟨⟨hn, -⟩, -⟩, ht, hv⟩ := Node.every_const.mp h
    refine .code rfl (.cons rfl ((balanced_optionalType _).append (.cons rfl d.value.balanced))) fun rest => ?_
    simp only [String.toList_append, List.append_assoc]
    refine .append (.lead .const rfl) (.append (.nameBefore hn ?_) (.append (reads_optionalType ht ?_)
      (.append .equals (d.value.reads hv (ends_feed rest)))))
    · rw [List.append_assoc]
      exact ends_optionalType _ rfl
    · rfl
  | typedef d =>
    obtain ⟨⟨hn, -⟩, hbelow⟩ := Tree.every_node.mp h
    refine .code rfl (d.type.balanced.append (.single rfl)) fun rest => ?_
    simp only [String.toList_append, List.append_assoc]
    refine .append (.lead .typedef rfl) (.append (d.type.reads (hbelow _ (by simp)) ?_)
      (Reads.space.append (.nameBefore hn rfl)))
    rfl
  | package _ name =>
    refine .code rfl (balanced_dottedKinds _) fun rest => ?_
    rw [String.toList_append]
    exact .append (.lead .package rfl) (.dotted h.label.1 rfl)
  | imports d => exact Import.prints h.label.1.1 h.label.1.2
  | object o => exact ObjectItem.prints h
  | var d =>
    obtain ⟨⟨⟨hn, -⟩, -⟩, ht, hv⟩ := Node.every_var.mp h
    refine .code rfl (.cons rfl ((balanced_optionalType _).append (balanced_initial _))) fun rest => ?_
    simp only [String.toList_append, List.append_assoc]
    have hend := ends_initial d.value (ends_feed rest)
    refine .append (.lead .var rfl) (.append (.nameBefore hn ?_)
      (.append (reads_optionalType ht hend) (reads_initial hv (ends_feed rest))))
    rw [List.append_assoc]
    exact ends_optionalType _ hend
  | comment _ text => exact .comment h.label.1

theorem Node.prints_top {n : Node α} (htop : n.IsTop) (h : n.tree.Every Node.Legible) :
    Prints n.canonicalTop (docKinds n.doc? ++ n.kinds) := by
  have hprint := Node.prints htop h
  unfold Node.canonicalTop
  split
  · have hblank := hprint.append .newline
    rwa [List.append_nil] at hblank
  · rwa [List.append_nil]

/-- The canonical form of a file is read, whatever the width of a level, as the tokens of its nodes. -/
theorem Ast.lex_canonical {ast : Ast} (htop : ∀ n ∈ ast.roots, n.IsTop)
    (h : ∀ n ∈ ast.roots, n.tree.Every Node.Legible) (width : Nat) :
    ∃ toks, lex (ast.canonical width) = .ok toks ∧
      toks.map Token.kind = ast.roots.flatMap (fun n => docKinds n.doc? ++ n.kinds) ++ [.eof] := by
  have hprint : Prints (ast.roots.flatMap Node.canonicalTop) (ast.roots.flatMap fun n => docKinds n.doc? ++ n.kinds) :=
    .flatMap fun n hn => Node.prints_top (htop n hn) (h n hn)
  exact lex_of_lines (hprint.render width)

end QiIdl
