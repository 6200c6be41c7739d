import QiIdl.Proofs.Cpp.Includes
import QiIdl.Proofs.Cpp.Rows
import QiIdl.Proofs.Cpp.Supported
import QiIdl.Proofs.Output.Shown
import QiIdl.Proofs.Package.Ends

/-!
# What a header mentions and what it includes

A header writes types that the file declares, types that it infers from values, and the names of bases. Includes are
collected by another walk, which looks at types and at lists of imported names. For declared types the two agree: what
a declared type is written with is included. An inferred type and a base call for nothing by themselves, so what they
need is included only if something else in the file calls for it (`includes_of_header`).
-/

namespace QiIdl

variable {n : Node Mark} {text : String}

/-! ## Types that are declared and inferred -/

/-- A header writes the type for the node, which declares it. -/
inductive Node.Declares : Node Mark → TypeExpr Mark → Prop where
  | var {d : Var Mark} {t : TypeExpr Mark} : d.type = some t → Declares (.var d) t
  | const {d : Const Mark} {t : TypeExpr Mark} : d.type = some t → Declares (.const d) t
  | typedef (d : Typedef Mark) : Declares (.typedef d) d.type
  | field {d : Struct Mark} {f : Field Mark} : f ∈ d.fields → Declares (.struct d) f.type
  | param {f : Fn Mark} {p : Param Mark} : p ∈ f.params → Declares (.fn f) p.type
  | ret {f : Fn Mark} {t : TypeExpr Mark} : f.ret = some t → Declares (.fn f) t
  | method {d : Interface Mark} {f : Fn Mark} {t : TypeExpr Mark} : f ∈ d.methods → Declares (.fn f) t →
      Declares (.interface d) t
  | signal {d : Interface Mark} {m : Channel Mark} {p : Param Mark} : m ∈ d.signals → p ∈ m.params →
      Declares (.interface d) p.type
  | property {d : Interface Mark} {m : Channel Mark} {p : Param Mark} : m ∈ d.properties → p ∈ m.params →
      Declares (.interface d) p.type

/-- A header writes a type for the node, which has a value and declares none. -/
inductive Node.Infers : Node Mark → Value Mark → Prop where
  | var {d : Var Mark} {v : Value Mark} : d.type = none → d.value = some v → Infers (.var d) v
  | const {d : Const Mark} : d.type = none → Infers (.const d) d.value

/-- The value that a header infers a type from. -/
def Node.inferring? : Node Mark → Option (Value Mark)
  | .var d => if d.type.isNone then d.value else none
  | .const d => if d.type.isNone then some d.value else none
  | _ => none

theorem Node.infers_of_inferring? {v : Value Mark} (h : n.inferring? = some v) : n.Infers v := by
  cases n with
  | var d =>
    obtain ⟨htype, hvalue⟩ := Option.ite_none_right_eq_some.mp h
    exact .var (Option.isNone_iff_eq_none.mp htype) hvalue
  | const d =>
    obtain ⟨htype, hvalue⟩ := Option.ite_none_right_eq_some.mp h
    cases hvalue
    exact .const (Option.isNone_iff_eq_none.mp htype)
  | _ => cases h

/-- The bases of what the node declares. -/
def Node.bases : Node Mark → List String
  | .interface d => d.inherits
  | .struct d => d.inherits
  | _ => []

/-- The node with other bases. -/
def Node.rebased (change : List String → List String) : Node Mark → Node Mark
  | .interface d => .interface { d with inherits := change d.inherits }
  | .struct d => .struct { d with inherits := change d.inherits }
  | n => n

/-- A type that is declared stands below the node. -/
theorem Node.Declares.every {t : TypeExpr Mark} {P : Node Mark → Prop} (h : n.Declares t) (hn : n.tree.Every P) :
    t.tree.Every P := by
  induction h with
  | var htype => exact (Node.every_var.mp hn).2.1 _ htype
  | const htype => exact (Node.every_const.mp hn).2.1 _ htype
  | typedef d => exact (Node.every_typedef.mp hn).2
  | field hf => exact (Field.every_tree.mp ((Node.every_struct.mp hn).2 _ hf)).2.1
  | param hp => exact (Fn.every_tree.mp hn).2.1 _ hp
  | ret hret => exact (Fn.every_tree.mp hn).2.2 _ hret
  | method hf _ ih => exact ih (Cpp.Scope.every_methods hn _ hf)
  | signal hm hp => exact Cpp.Scope.every_signals hn _ hm _ hp
  | property hm hp => exact Cpp.Scope.every_properties hn _ hm _ hp

/-- A type of the standard library that a header can write. -/
inductive StdType where
  | string
  | vector
  | map
  | pair
deriving DecidableEq

/-- The name of a type of the standard library. -/
def StdType.word : StdType → String
  | string => "std::string"
  | vector => "std::vector"
  | map => "std::map"
  | pair => "std::pair"

def StdType.header : StdType → String
  | string => "<string>"
  | vector => "<vector>"
  | map => "<map>"
  | pair => "<utility>"

namespace StdType

theorem no_separator (w : StdType) : ' ' ∉ w.word.toList ∧ ',' ∉ w.word.toList := by
  cases w <;> decide

/-- The name of a type is that of a template, or stands in what the template is applied to. -/
theorem within_template {w : StdType} (template : StdType) {head text : String} (hhead : head = template.word ++ "< ")
    (h : Within w.word (head ++ text ++ " >")) : w = template ∨ Within w.word text := by
  have hspace := w.no_separator.1
  have heq : head ++ text ++ " >" =
      (template.word ++ "<") ++ (String.singleton ' ' ++ (text ++ (String.singleton ' ' ++ ">"))) := by
    apply String.toList_injective
    simp [hhead]
  rw [heq] at h
  rcases h.of_separated hspace with h | h
  · exact .inl (by cases w <;> cases template <;> revert h <;> decide)
  · rcases h.of_separated hspace with h | h
    · exact .inr h
    · exact absurd h (by cases w <;> decide)

theorem within_comma {w : StdType} {text text' : String} (h : Within w.word (text ++ ", " ++ text')) :
    Within w.word text ∨ Within w.word text' := by
  have heq : text ++ ", " ++ text' = text ++ (String.singleton ',' ++ ("" ++ (String.singleton ' ' ++ text'))) := by
    apply String.toList_injective
    simp
  rw [heq] at h
  rcases h.of_separated w.no_separator.2 with h | h
  · exact .inl h
  · rcases h.of_separated w.no_separator.1 with h | h
    · exact .inr (h.of_empty _)
    · exact .inr h

theorem within_template_pair {w : StdType} (template : StdType) {head text text' : String}
    (hhead : head = template.word ++ "< ") (h : Within w.word (head ++ text ++ ", " ++ text' ++ " >")) :
    w = template ∨ Within w.word text ∨ Within w.word text' := by
  have hassoc : head ++ text ++ ", " ++ text' = head ++ (text ++ ", " ++ text') := by simp only [String.append_assoc]
  rw [hassoc] at h
  exact (within_template template hhead h).imp_right within_comma

/-- Of the builtin types only that of strings is a type of the standard library. -/
theorem eq_string_of_builtin {w : StdType} {t : Builtin} (h : Within w.word t.cpp) : w = .string ∧ t = .string := by
  have hspace : Within "std::" t.cpp := by
    refine .trans ?_ h
    cases w <;> decide
  have ht : t = .string := by cases t <;> revert hspace <;> decide
  subst ht
  refine ⟨?_, rfl⟩
  cases w <;> revert h <;> decide

end StdType

namespace Cpp.Scope

variable {p : Param Mark} {d : Interface Mark} {c : Scope} {s : Guards} {t : TypeExpr Mark} {steps : List Step}

/-! ## In the header -/

theorem within_passed (s : Guards) (t : TypeExpr Mark) (text : String) : Within text (passed s t text) := by
  unfold passed
  split
  · exact ((Within.refl _).right _).left _
  · exact .refl _

/-- The type is written by value somewhere in the text. -/
def WritesIn (c : Scope) (t : TypeExpr Mark) (text : String) : Prop := ∃ plain, c.ByValue t plain ∧ Within plain text

theorem WritesIn.within {text whole : String} (h : c.WritesIn t text) (hwhole : Within text whole) :
    c.WritesIn t whole := by
  obtain ⟨plain, hplain, hin⟩ := h
  exact ⟨plain, hplain, hin.trans hwhole⟩

theorem writesIn_of_plain (h : c.plain t = .ok text) : c.WritesIn t text :=
  ⟨text, plain_eq_ok_iff.mp h, .refl _⟩

/-- A type that can be written is written by value, with or without a reference around it. -/
theorem writesIn_of_typeName (h : c.typeName s t = .ok text) : c.WritesIn t text := by
  obtain ⟨plain, hplain, rfl⟩ := typeName_eq_ok_iff.mp h
  exact ⟨plain, hplain, within_passed s t plain⟩

theorem writesIn_params {ps : List (Param Mark)} (h : c.params s .full ps = .ok text) (hp : p ∈ ps) :
    c.WritesIn p.type text := by
  obtain ⟨texts, htexts, hjoin⟩ := bind_eq_ok_iff.mp h
  cases hjoin
  have htypes : ((ps.map (·.type)).zip (Param.names ps)).map Prod.fst = ps.map (·.type) :=
    List.map_fst_zip (by simp [Param.names])
  have hmem : p.type ∈ ((ps.map (·.type)).zip (Param.names ps)).map Prod.fst := by
    rw [htypes]
    exact List.mem_map_of_mem hp
  obtain ⟨⟨_, name⟩, hpair, rfl⟩ := List.mem_map.mp hmem
  obtain ⟨text, htext, hparam⟩ := exists_of_mapM htexts hpair
  obtain ⟨type, htype, heq⟩ := bind_eq_ok_iff.mp hparam
  cases heq
  exact (writesIn_of_typeName htype).within ((((Within.refl _).left _).left _).trans (.of_mem htext))

theorem writesIn_valueTypes {ps : List (Param Mark)} (h : c.valueTypes s ps = .ok text) (hp : p ∈ ps) :
    c.WritesIn p.type text := by
  rw [valueTypes_eq] at h
  obtain ⟨texts, htexts, hjoin⟩ := bind_eq_ok_iff.mp h
  cases hjoin
  obtain ⟨text, htext, hplain⟩ := exists_of_mapM htexts hp
  exact (writesIn_of_plain hplain).within (.of_mem htext)

/-- What a function declares is written in its return type or in its parameters. -/
theorem writesIn_method {f : Fn Mark} {m : Method} (h : c.method f = .ok m) (ht : (Node.fn f).Declares t) :
    c.WritesIn t m.ret ∨ c.WritesIn t m.params := by
  obtain ⟨ret, hret, h⟩ := bind_eq_ok_iff.mp h
  obtain ⟨params, hparams, h⟩ := bind_eq_ok_iff.mp h
  obtain ⟨types, -, h⟩ := bind_eq_ok_iff.mp h
  obtain ⟨names, -, h⟩ := bind_eq_ok_iff.mp h
  cases h
  cases ht with
  | param hp => exact .inr (writesIn_params hparams hp)
  | ret heq =>
    rw [heq, returnType_some] at hret
    exact .inl (writesIn_of_plain hret)

/-- What a signal or a property carries is written in its type. -/
theorem writesIn_channels {template : String} {ms : List (Channel Mark)} {fields : List (String × String)}
    (h : c.channels template ms = .ok fields) {m : Channel Mark} (hm : m ∈ ms) (hp : p ∈ m.params) :
    ∃ field ∈ fields, c.WritesIn p.type field.1 := by
  obtain ⟨field, hfield, hchannel⟩ := exists_of_mapM h hm
  obtain ⟨types, htypes, heq⟩ := bind_eq_ok_iff.mp hchannel
  cases heq
  exact ⟨_, hfield, (writesIn_valueTypes htypes hp).within (((Within.refl _).right _).left _)⟩

/-- The type is written by value in a line. -/
def WritesLine (c : Scope) (t : TypeExpr Mark) (steps : List Step) : Prop :=
  ∃ plain, c.ByValue t plain ∧ Step.Shown plain steps

theorem WritesIn.line {line : String} (h : c.WritesIn t line) (hmem : .writeLine line ∈ steps) :
    c.WritesLine t steps := by
  obtain ⟨plain, hplain, hin⟩ := h
  exact ⟨plain, hplain, .of_line hin hmem⟩

theorem WritesLine.mono {more : List Step} (h : c.WritesLine t steps) (hsub : steps ⊆ more) : c.WritesLine t more := by
  obtain ⟨plain, hplain, hshown⟩ := h
  exact ⟨plain, hplain, hshown.mono hsub⟩

theorem WritesLine.scope {more : List Step} (h : c.WritesLine t steps) (hmem : .scope steps ∈ more) :
    c.WritesLine t more := by
  obtain ⟨plain, hplain, hshown⟩ := h
  exact ⟨plain, hplain, hshown.scope hmem⟩

/-- The class of an interface has a constructor, a destructor, a line for each method and one for each field. -/
theorem syncClass_eq_ok (h : c.syncClass d = .ok steps) :
    ∃ signals properties methods, c.channels "qi::Signal" d.signals = .ok signals ∧
      c.channels "qi::Property" d.properties = .ok properties ∧ c.methods d = .ok methods ∧
      steps = classBody (classHeading d "") (constructor d.name (signals ++ properties)
        ++ [.writeLine s!"virtual ~{d.name}() \x7b\x7d"]
        ++ methods.map (fun m => .writeLine s!"virtual {m.ret} {m.name}({m.params}) = 0;")
        ++ (signals ++ properties).map fun field => .writeLine s!"{field.1}& {field.2};") := by
  obtain ⟨signals, hsignals, h⟩ := bind_eq_ok_iff.mp h
  obtain ⟨properties, hproperties, h⟩ := bind_eq_ok_iff.mp h
  obtain ⟨methods, hmethods, h⟩ := bind_eq_ok_iff.mp h
  cases h
  exact ⟨signals, properties, methods, hsignals, hproperties, hmethods, rfl⟩

theorem scope_mem_classBody (heading : String) (members : List Step) : .scope members ∈ classBody heading members :=
  List.mem_of_getElem? (i := 3) rfl

theorem writesLine_syncClass (h : c.syncClass d = .ok steps) (ht : (Node.interface d).Declares t) :
    c.WritesLine t steps := by
  obtain ⟨signals, properties, methods, hsignals, hproperties, hmethods, rfl⟩ := syncClass_eq_ok h
  refine WritesLine.scope ?_ (scope_mem_classBody _ _)
  -- a field is declared in a line of its own
  have hfield {field : String × String} (hmem : field ∈ signals ++ properties) (hin : c.WritesIn t field.1) :
      c.WritesLine t ((signals ++ properties).map fun field => .writeLine s!"{field.1}& {field.2};") :=
    (hin.within ((((Within.refl _).left _).left _).left _)).line (List.mem_map_of_mem hmem)
  cases ht with
  | method hf ht =>
    obtain ⟨m, hm, hmethod⟩ := exists_of_mapM hmethods hf
    have hline : c.WritesIn t s!"virtual {m.ret} {m.name}({m.params}) = 0;" := by
      rcases writesIn_method hmethod ht with hin | hin
      · exact hin.within (((((((Within.refl _).right _).left _).left _).left _).left _).left _)
      · exact hin.within (((Within.refl _).right _).left _)
    exact hline.line (List.mem_append_left _ (List.mem_append_right _ (List.mem_map_of_mem hm)))
  | signal hm hp =>
    obtain ⟨field, hmem, hin⟩ := writesIn_channels hsignals hm hp
    exact (hfield (List.mem_append_left _ hmem) hin).mono (List.subset_append_right _ _)
  | property hm hp =>
    obtain ⟨field, hmem, hin⟩ := writesIn_channels hproperties hm hp
    exact (hfield (List.mem_append_right _ hmem) hin).mono (List.subset_append_right _ _)

/-- The class of an interface is part of what becomes of the interface. -/
theorem exists_syncClass (h : c.headerItem (.interface d) = .ok steps) :
    ∃ sync, c.syncClass d = .ok sync ∧ sync ⊆ steps := by
  obtain ⟨sync, hsync, h⟩ := bind_eq_ok_iff.mp h
  obtain ⟨async, -, h⟩ := bind_eq_ok_iff.mp h
  cases h
  refine ⟨sync, hsync, ?_⟩
  rw [List.append_assoc, List.append_assoc]
  exact List.subset_append_left _ _

theorem writesLine_fieldLine {d : Field Mark} {step : Step} (h : c.fieldLine d = .ok step) :
    c.WritesLine d.type [step] := by
  obtain ⟨type, htype, h⟩ := bind_eq_ok_iff.mp h
  cases hinitial : d.initial with
  | none =>
    rw [hinitial] at h
    cases h
    exact ((writesIn_of_typeName htype).within ((((Within.refl _).left _).left _).left _)).line
      (List.mem_singleton_self _)
  | some initial =>
    rw [hinitial] at h
    obtain ⟨value, -, h⟩ := bind_eq_ok_iff.mp h
    cases h
    exact ((writesIn_of_typeName htype).within ((((((Within.refl _).left _).left _).left _).left _).left _)).line
      (List.mem_singleton_self _)

/-- The line of a variable has a type in it, which is inferred only if there is a value. -/
theorem within_variableLine {d : Var Mark} {line : String} (h : c.variableLine d = .ok line) :
    ∃ type, Within type line ∧ ((∃ v, d.value = some v ∧ c.declaredType d.type v = .ok type) ∨
      ∃ t, d.type = some t ∧ c.typeName .fresh t = .ok type) := by
  unfold variableLine at h
  split at h
  · next v hvalue =>
    obtain ⟨type, htype, h⟩ := bind_eq_ok_iff.mp h
    obtain ⟨value, -, h⟩ := bind_eq_ok_iff.mp h
    cases h
    exact ⟨type, (((((Within.refl _).left _).left _).left _).left _).left _, .inl ⟨v, hvalue, htype⟩⟩
  · next t heq _ =>
    obtain ⟨type, htype, h⟩ := bind_eq_ok_iff.mp h
    cases h
    exact ⟨type, (((Within.refl _).left _).left _).left _, .inr ⟨t, heq, htype⟩⟩
  · cases h

theorem within_constantLine {d : Const Mark} {line : String} (h : c.constantLine d = .ok line) :
    ∃ type, Within type line ∧ c.declaredType d.type d.value = .ok type := by
  obtain ⟨value, -, h⟩ := bind_eq_ok_iff.mp h
  obtain ⟨type, htype, h⟩ := bind_eq_ok_iff.mp h
  cases h
  exact ⟨type, ((((((Within.refl _).right _).left _).left _).left _).left _).left _, htype⟩

/-- What a function at the top declares is written in its line. -/
theorem writesIn_functionLine {f : Fn Mark} {line : String} (h : c.functionLine f = .ok line)
    (ht : (Node.fn f).Declares t) : c.WritesIn t line := by
  obtain ⟨m, hm, h⟩ := bind_eq_ok_iff.mp h
  cases h
  rcases writesIn_method hm ht with hin | hin
  · exact hin.within ((((((Within.refl _).left _).left _).left _).left _).left _)
  · exact hin.within (((Within.refl _).right _).left _)

/-- What a node at the top declares is written in a line of the header. -/
theorem writesLine_headerItem (h : c.headerItem n = .ok steps) (ht : n.Declares t) : c.WritesLine t steps := by
  -- what one step writes is a line
  have hline {x : Except GenError String} (h : (do let line ← x; pure [Step.writeLine line]) = .ok steps)
      (hx : ∀ line, x = .ok line → c.WritesIn t line) : c.WritesLine t steps := by
    obtain ⟨line, heq, h⟩ := bind_eq_ok_iff.mp h
    cases h
    exact (hx line heq).line (List.mem_singleton_self _)
  cases n with
  | var d =>
    refine hline h fun line heq => ?_
    obtain ⟨type, hin, hdeclared⟩ := within_variableLine heq
    cases ht with
    | var htype =>
      refine (writesIn_of_typeName (s := .fresh) ?_).within hin
      rcases hdeclared with ⟨v, -, hdeclared⟩ | ⟨t', htype', hdeclared⟩
      · rwa [htype] at hdeclared
      · rw [htype] at htype'
        cases htype'
        exact hdeclared
  | const d =>
    refine hline h fun line heq => ?_
    obtain ⟨type, hin, hdeclared⟩ := within_constantLine heq
    cases ht with
    | const htype =>
      rw [htype] at hdeclared
      exact (writesIn_of_typeName hdeclared).within hin
  | typedef d =>
    obtain ⟨type, htype, h⟩ := bind_eq_ok_iff.mp h
    cases h
    cases ht
    exact ((writesIn_of_typeName htype).within (((((Within.refl _).right _).left _).left _).left _)).line
      (List.mem_singleton_self _)
  | struct d =>
    obtain ⟨fields, hfields, h⟩ := bind_eq_ok_iff.mp h
    cases h
    cases ht with
    | field hf =>
      obtain ⟨step, hstep, hfield⟩ := exists_of_mapM hfields hf
      refine WritesLine.scope ?_ (List.mem_of_getElem? (i := 2) rfl)
      exact (writesLine_fieldLine hfield).mono (List.cons_subset.mpr ⟨hstep, List.nil_subset _⟩)
  | fn f => exact hline h fun line heq => writesIn_functionLine heq ht
  | interface d =>
    obtain ⟨sync, hsync, hsub⟩ := exists_syncClass h
    exact (writesLine_syncClass hsync ht).mono hsub
  | _ => cases ht

/-- The type that a node at the top infers is written in a line of the header. -/
theorem shown_inferredType {v : Value Mark} (h : c.headerItem n = .ok steps) (hv : n.Infers v) :
    ∃ text, c.inferredType v.node = .ok text ∧ Step.Shown text steps := by
  obtain ⟨line, hline, hsteps⟩ : ∃ line, (∃ text, c.inferredType v.node = .ok text ∧ Within text line) ∧
      steps = [.writeLine line] := by
    cases hv with
    | var htype hvalue =>
      obtain ⟨line, heq, h⟩ := bind_eq_ok_iff.mp h
      cases h
      obtain ⟨type, hin, ⟨v', hvalue', hdeclared⟩ | ⟨t, htype', -⟩⟩ := within_variableLine heq
      · rw [hvalue] at hvalue'
        cases hvalue'
        rw [htype] at hdeclared
        exact ⟨line, ⟨type, hdeclared, hin⟩, rfl⟩
      · rw [htype] at htype'
        cases htype'
    | const htype =>
      obtain ⟨line, heq, h⟩ := bind_eq_ok_iff.mp h
      cases h
      obtain ⟨type, hin, hdeclared⟩ := within_constantLine heq
      rw [htype] at hdeclared
      exact ⟨line, ⟨type, hdeclared, hin⟩, rfl⟩
  obtain ⟨text, hinferred, hin⟩ := hline
  exact ⟨text, hinferred, .of_line hin (hsteps ▸ List.mem_singleton_self _)⟩

theorem within_withBases {heading access base : String} {bases : List String} (h : base ∈ bases) :
    Within base (withBases heading access bases) := by
  have hempty : ¬bases.isEmpty = true := by
    rw [List.isEmpty_iff]
    exact List.ne_nil_of_mem h
  rw [withBases, if_neg hempty]
  exact (((Within.refl base).right _).trans (.of_mem (List.mem_map_of_mem h))).right _

/-- The bases of what a node at the top declares are written in a line of the header. -/
theorem shown_base {base : String} (h : c.headerItem n = .ok steps) (hbase : base ∈ n.bases) :
    Step.Shown (baseName base) steps := by
  cases n with
  | interface d =>
    obtain ⟨sync, hsync, hsub⟩ := exists_syncClass h
    obtain ⟨signals, properties, methods, -, -, -, rfl⟩ := syncClass_eq_ok hsync
    have hin : baseName base ++ "" ∈ d.inherits.map fun b => baseName b ++ "" := List.mem_map_of_mem hbase
    rw [String.append_empty] at hin
    exact .of_line (within_withBases hin) (hsub List.mem_cons_self)
  | struct d =>
    obtain ⟨fields, -, h⟩ := bind_eq_ok_iff.mp h
    cases h
    exact .of_line (within_withBases (List.mem_map_of_mem hbase)) List.mem_cons_self
  | _ => cases hbase

/-- What becomes of a node at the top is part of the header. -/
theorem exists_headerItem (h : c.header = .ok steps) (hn : n ∈ c.file.ast.roots) :
    ∃ item, c.headerItem n = .ok item ∧ item ⊆ steps := by
  obtain ⟨items, hitems, h⟩ := bind_eq_ok_iff.mp h
  cases h
  obtain ⟨item, hmem, hitem⟩ := exists_of_mapM hitems hn
  refine ⟨item, hitem, fun step hstep => ?_⟩
  simp only [List.mem_append, List.mem_flatten]
  exact .inl (.inl (.inr ⟨item, hmem, hstep⟩))

/-! ## Among the includes -/

/-- No custom type below is written with the word in its name. -/
def Unlike (c : Scope) (t : TypeExpr Mark) (word : String) : Prop :=
  t.tree.Every fun n => ∀ m name text, n = .type (.custom m name) → c.ByValue (.custom m name) text → ¬Within word text

/-- What the text of a type mentions is called for by the type or by one below it. -/
theorem ByValue.header_mem (h : c.ByValue t text) (ht : t.tree.Every c.file.ast.Descends) {w : StdType}
    (hunlike : c.Unlike t w.word) (hin : Within w.word text) : w.header ∈ c.includes false := by
  have hcall {n : Node Mark} {h : String} (hn : c.file.ast.Descends n) (hcall : c.CallsFor n 0 h) :
      h ∈ c.includes false := mem_includes.mpr (.inr ⟨n, hn, 0, hcall⟩)
  induction h with
  | builtin m t =>
    obtain ⟨rfl, rfl⟩ := StdType.eq_string_of_builtin hin
    exact hcall ht.label (.builtin m (.string rfl))
  | custom name hr => exact absurd hin (hunlike.label _ name _ rfl (.custom name hr))
  | list m _ ih =>
    obtain ⟨hself, helement⟩ := TypeExpr.every_list.mp ht
    rcases StdType.within_template .vector (by decide) hin with rfl | hin
    · exact hcall hself (.list _ _)
    · exact ih helement (TypeExpr.every_list.mp hunlike).2 hin
  | map m _ _ ihkey ihvalue =>
    obtain ⟨hself, hkey, hvalue⟩ := TypeExpr.every_map.mp ht
    obtain ⟨-, hunlikeKey, hunlikeValue⟩ := TypeExpr.every_map.mp hunlike
    rcases StdType.within_template_pair .map (by decide) hin with rfl | hin | hin
    · exact hcall hself (.map _ _ _)
    · exact ihkey hkey hunlikeKey hin
    · exact ihvalue hvalue hunlikeValue hin
  | pair m _ _ ihfirst ihsecond =>
    obtain ⟨hself, helements⟩ := TypeExpr.every_tuple.mp ht
    have hunlikes := (TypeExpr.every_tuple.mp hunlike).2
    rcases StdType.within_template_pair .pair (by decide) hin with rfl | hin | hin
    · exact hcall hself (.tuple _ _)
    · exact ihfirst (helements _ (by simp)) (hunlikes _ (by simp)) hin
    · exact ihsecond (helements _ (by simp)) (hunlikes _ (by simp)) hin

/-- Only the builtin type of strings calls for the header of strings. -/
theorem callsFor_string : (∃ k, c.CallsFor n k StdType.string.header) ↔
    ∃ m, n = .type (.builtin m .string) := by
  -- the header of a file has a suffix
  have hfile {package name : String} : ¬c.Elsewhere package name StdType.string.header := by
    rintro ⟨e, -, -, heq⟩
    have hlast := congrArg (fun s => s.toList.reverse) heq
    simp [SourceFile.header, headerInclude, StdType.header] at hlast
  constructor
  · rintro ⟨k, hcall⟩
    generalize hheader : StdType.string.header = header at hcall
    cases hcall with
    | @builtin t _ m hin =>
      cases hin with
      | string hcategory =>
        cases t <;> cases hcategory
        exact ⟨m, rfl⟩
      | _ => exact absurd hheader (by decide)
    | custom name _ helsewhere => exact absurd (hheader ▸ helsewhere) hfile
    | imports m package _ helsewhere => exact absurd (hheader ▸ helsewhere) hfile
    | _ => exact absurd hheader (by decide)
  · rintro ⟨m, rfl⟩
    exact ⟨0, .builtin m (.string rfl)⟩

/-- A node leads to another file with the header, as a reference or by a name that it imports. -/
inductive RefersTo (c : Scope) : Node Mark → String → Prop where
  | custom {m : Mark} {r : Resolution} {h : String} (name : String) :
      c.manager.resolution? c.file.path m.id = some r → c.Elsewhere r.package r.name h →
      RefersTo c (.type (.custom m name)) h
  | imports {names : List String} {name h : String} (m : Mark) (package : String) : name ∈ names →
      c.Elsewhere package name h → RefersTo c (.imports ⟨m, package, .names names⟩) h

/-- The headers that are not those of files. -/
def stockHeaders : List String :=
  ["<string>", "<vector>", "<map>", "<utility>", "<qi/types.hpp>", "<qi/anyvalue.hpp>", "<qi/anyobject.hpp>",
    "<qi/buffer.hpp>", "<qi/clock.hpp>", "<qi/signal.hpp>", "<qi/property.hpp>"]

theorem CallsFor.stock_or_refersTo {k : Nat} {h : String} (hcall : c.CallsFor n k h) :
    h ∈ stockHeaders ∨ c.RefersTo n h := by
  cases hcall with
  | builtin m hin => exact .inl (by cases hin <;> decide)
  | custom name hr helsewhere => exact .inr (.custom name hr helsewhere)
  | imports m package hname helsewhere => exact .inr (.imports m package (List.mem_of_getElem? hname) helsewhere)
  | _ => exact .inl (by decide)

theorem RefersTo.callsFor {h : String} (hrefers : c.RefersTo n h) : ∃ k, c.CallsFor n k h := by
  cases hrefers with
  | custom name hr helsewhere => exact ⟨0, .custom name hr helsewhere⟩
  | imports m package hname helsewhere =>
    obtain ⟨k, hk⟩ := List.mem_iff_getElem?.mp hname
    exact ⟨k, .imports m package hk helsewhere⟩

/-- The header of a file is none of the others, unless the file is in the package whose name they use. -/
theorem package_eq_of_stock {package stem : String} (h : headerInclude package stem ∈ stockHeaders) :
    package = "qi" := by
  have hstock : ∀ h ∈ stockHeaders, '/' ∈ h.toList →
      h.toList.take 4 = ['<', 'q', 'i'] ++ ['/'] ∧ '/' ∉ h.toList.drop 4 := by decide
  have hlist : (headerInclude package stem).toList =
      ('<' :: ['/'].intercalate (Text.pieces '.' package.toList)) ++ '/' :: (stem ++ ".hpp>").toList := by
    simp [headerInclude, Text.replaceChar, String.toList_intercalate, Function.comp_def]
  obtain ⟨hfront, hrest⟩ := hstock _ h (by simp [hlist])
  rw [← List.take_append_drop 4 (headerInclude package stem).toList, hfront] at hlist
  -- there is one slash, so what stands before it is the whole package
  rw [List.append_assoc, List.singleton_append, List.append_cons_inj_of_notMem (by decide) hrest] at hlist
  have hjoined : ['q', 'i'] = ['/'].intercalate (Text.pieces '.' package.toList) := (List.cons.inj hlist.1).2
  obtain ⟨first, more, hpieces⟩ := List.exists_cons_of_ne_nil (Text.pieces_ne_nil '.' package.toList)
  cases more with
  | nil =>
    have hwhole : ['.'].intercalate (Text.pieces '.' package.toList) = package.toList := Text.intercalate_pieces _
    rw [hpieces, List.intercalate_singleton] at hwhole
    rw [hpieces, List.intercalate_singleton, hwhole] at hjoined
    exact String.toList_injective hjoined.symm
  | cons next more =>
    rw [hpieces, List.intercalate_cons_cons] at hjoined
    have hslash : '/' ∈ ['q', 'i'] := by simp [hjoined]
    exact absurd hslash (by decide)

/-- A type of the standard library is inferred for strings only. -/
theorem eq_string_of_inferredType (h : c.inferredType n = .ok text) {w : StdType} (hin : Within w.word text) :
    w = .string := by
  unfold inferredType at h
  split at h
  · next type htype =>
    cases h
    obtain ⟨l, -, htype⟩ := Option.bind_eq_some_iff.mp htype
    cases l <;> cases htype <;> cases w <;> revert hin <;> decide
  · cases h

/-- The same file with other bases. -/
def rebased (c : Scope) (change : List String → List String) : Scope :=
  { c with file := { c.file with ast := { c.file.ast with roots := c.file.ast.roots.map (·.rebased change) } } }

/-- Nothing is included for the sake of a base. -/
theorem includes_rebased (c : Scope) (change : List String → List String) (own : Bool) :
    (c.rebased change).includes own = c.includes own := by
  -- only the top of a tree has bases, and no node calls for anything by its bases
  have hroot (n : Node Mark) : ((Tree.subtrees (n.rebased change).tree).map Tree.label).flatMap c.nodeHeaders =
      ((Tree.subtrees n.tree).map Tree.label).flatMap c.nodeHeaders := by
    cases n <;> rfl
  have hroots (ns : List (Node Mark)) :
      ((Tree.subtreesAll ((ns.map (·.rebased change)).map (·.tree))).map Tree.label).flatMap c.nodeHeaders =
        ((Tree.subtreesAll (ns.map (·.tree))).map Tree.label).flatMap c.nodeHeaders := by
    induction ns with
    | nil => rfl
    | cons n ns ih =>
      simp only [List.map_cons, Tree.subtreesAll, List.map_append, List.flatMap_append]
      rw [hroot, ih]
  have hnodes : (c.rebased change).nodes.flatMap (c.rebased change).nodeHeaders = c.nodes.flatMap c.nodeHeaders := by
    rw [nodes_eq_preorder, nodes_eq_preorder]
    exact hroots c.file.ast.roots
  rw [includes, hnodes]
  rfl

end Cpp.Scope

/-- What a base means in a package, if a package exports it. -/
def Manager.baseExport? (m : Manager) (package base : String) : Option Export :=
  let (package, name) := (Text.splitLast base).getD (package, base)
  m.findExport package name

theorem exists_header_of_generate {m : Manager} {f : SourceFile} {width : Nat} {reports reports' : List Diagnostic}
    {output : String} (h : generate .cppInterface m f width reports = .ok output reports') :
    ∃ steps, (⟨.cppInterface, m, f⟩ : Cpp.Scope).header = .ok steps ∧ output = Step.render width steps := by
  obtain ⟨steps, hsteps, rfl⟩ := Generate.render_eq_ok.mp h
  exact ⟨steps, (Generate.ofExcept_eq_ok.mp hsteps).1, rfl⟩

/-- Take a header that can be made, and what stands at the top of its file. A type that is declared there is written by
value in the header, and each type of the standard library that is mentioned in it is included, unless it is mentioned
only in the name of a custom type. A type that is inferred there is written too, but if it is the type of strings, it is
included only if the file declares a string somewhere. A base is written too, but the file that declares it is included
only if a reference or an import leads to it: with other bases, the includes would be the same. -/
theorem includes_of_header {m : Manager} {f : SourceFile} {width : Nat} {reports reports' : List Diagnostic}
    {output : String} (h : generate .cppInterface m f width reports = .ok output reports') {n : Node Mark}
    (hn : n ∈ f.ast.roots) :
    let c : Cpp.Scope := ⟨.cppInterface, m, f⟩
    (∀ t, n.Declares t → ∃ text, c.ByValue t text ∧ Within text output ∧
      ∀ w : StdType, c.Unlike t w.word → Within w.word text → w.header ∈ c.includes false) ∧
    (∀ v, n.Infers v → ∃ text, c.inferredType v.node = .ok text ∧ Within text output ∧
      ∀ w : StdType, Within w.word text →
        (w.header ∈ c.includes false ↔ ∃ tag, f.ast.Descends (.type (.builtin tag .string)))) ∧
    (∀ base ∈ n.bases, Within (Cpp.baseName base) output ∧
      ∀ e, m.baseExport? f.package base = some e → e.file.path ≠ f.path → e.file.package ≠ "qi" →
        (e.file.header ∈ c.includes false ↔ ∃ n', f.ast.Descends n' ∧ c.RefersTo n' e.file.header)) ∧
    ∀ change own, (c.rebased change).includes own = c.includes own := by
  intro c
  obtain ⟨steps, hheader, rfl⟩ := exists_header_of_generate h
  obtain ⟨item, hitem, hsub⟩ := Cpp.Scope.exists_headerItem hheader hn
  have hincluded (header : String) :
      header ∈ c.includes false ↔ ∃ n', f.ast.Descends n' ∧ ∃ k, c.CallsFor n' k header :=
    Cpp.Scope.mem_includes.trans (by simp [c])
  refine ⟨fun t ht => ?_, fun v hv => ?_, fun base hbase => ⟨?_, fun e _ _ hpackage => ?_⟩, c.includes_rebased⟩
  · obtain ⟨text, htext, hshown⟩ := Cpp.Scope.writesLine_headerItem hitem ht
    have hbelow : t.tree.Every f.ast.Descends :=
      ht.every (Ast.every_of_reaches (fun _ hn => Ast.descends_of_reaches hn) n hn)
    exact ⟨text, htext, (hshown.mono hsub).within_render width, fun w => htext.header_mem hbelow⟩
  · obtain ⟨text, htext, hshown⟩ := Cpp.Scope.shown_inferredType hitem hv
    refine ⟨text, htext, (hshown.mono hsub).within_render width, fun w hin => ?_⟩
    rw [Cpp.Scope.eq_string_of_inferredType htext hin, hincluded]
    simp only [Cpp.Scope.callsFor_string]
    constructor
    · rintro ⟨_, hn', tag, rfl⟩
      exact ⟨tag, hn'⟩
    · rintro ⟨tag, hn'⟩
      exact ⟨_, hn', tag, rfl⟩
  · exact ((Cpp.Scope.shown_base hitem hbase).mono hsub).within_render width
  · rw [hincluded]
    constructor
    · rintro ⟨n', hn', k, hcall⟩
      rcases hcall.stock_or_refersTo with hstock | hrefers
      · exact absurd (Cpp.Scope.package_eq_of_stock hstock) hpackage
      · exact ⟨n', hn', hrefers⟩
    · rintro ⟨n', hn', hrefers⟩
      exact ⟨n', hn', hrefers.callsFor⟩

/-- A disk with a file that infers the type of a string and has a base from another file. -/
def Disk.unmentioned : Disk :=
  ⟨.directory [("lib", .directory [("a", .directory [
    ("x.qi", .file (some "package a\nconst Name = \"x\"\ninterface I(B)\n  fn pick(sizes []int)\nend\n")),
    ("y.qi", .file (some "package a\ninterface B\nend\n"))])])], []⟩

/-- A header with the type of strings and a base in it that includes neither. -/
theorem includes_of_header_unmentioned :
    ∃ m f output reports, Managed.resolvePackage .unmentioned "a"
        (Manager.empty.addInclude (.ofText .unmentioned "/lib")) = .ok () m ∧
      f ∈ m.packageFiles "a" ∧ generate .cppInterface m f 2 [] = .ok output reports ∧
      let c : Cpp.Scope := ⟨.cppInterface, m, f⟩
      (Within "std::string" output ∧ "<string>" ∉ c.includes false ∧
        ¬∃ tag, f.ast.Descends (.type (.builtin tag .string))) ∧
      Within (Cpp.baseName "B") output ∧ ∃ e, m.baseExport? f.package "B" = some e ∧ e.file.path ≠ f.path ∧
        e.file.header ∉ c.includes false ∧ ¬∃ n', f.ast.Descends n' ∧ c.RefersTo n' e.file.header := by
  have hcheck : Managed.succeedsWith (Managed.resolvePackage .unmentioned "a")
      (Manager.empty.addInclude (.ofText .unmentioned "/lib")) (fun _ m => (m.packageFiles "a").any fun f =>
        let c : Cpp.Scope := ⟨.cppInterface, m, f⟩
        decide ((generate .cppInterface m f 2).Succeeds []) && !(c.includes false).contains "<string>" &&
        (f.ast.roots.any fun n =>
          n.inferring?.any fun v => (c.inferredType v.node).toOption.any (· == "std::string")) &&
        (f.ast.roots.any fun n => n.bases.contains "B") &&
        (m.baseExport? f.package "B").any fun e =>
          e.file.path != f.path && e.file.package != "qi" && !(c.includes false).contains e.file.header) = true := by
    decide +kernel
  obtain ⟨_, m, hrun, hany⟩ := Managed.exists_of_succeedsWith hcheck
  obtain ⟨f, hf, htest⟩ := List.any_eq_true.mp hany
  simp only [Bool.and_eq_true, decide_eq_true_eq, List.any_eq_true, Bool.not_eq_true', List.contains_eq_mem,
    decide_eq_false_iff_not] at htest
  obtain ⟨⟨⟨⟨⟨output, reports, hgenerate⟩, hstring⟩, n, hn, hinferring⟩, n', hn', hbase⟩, hexport⟩ := htest
  obtain ⟨v, hv, hinferred⟩ := (Option.any_eq_true _ _).mp hinferring
  obtain ⟨type, htype, hname⟩ := exists_ok_of_any hinferred
  obtain ⟨e, he, hother⟩ := (Option.any_eq_true _ _).mp hexport
  simp only [Bool.and_eq_true, bne_iff_ne, Bool.not_eq_true', decide_eq_false_iff_not] at hother
  obtain ⟨⟨hpath, hpackage⟩, hheader⟩ := hother
  obtain ⟨text, htext, hwithin, hincluded⟩ := (includes_of_header hgenerate hn).2.1 v (Node.infers_of_inferring? hv)
  obtain rfl : text = "std::string" := by
    rw [htype] at htext
    cases htext
    exact eq_of_beq hname
  obtain ⟨hmentioned, hcalled⟩ := (includes_of_header hgenerate hn').2.2.1 "B" hbase
  refine ⟨m, f, output, reports, hrun, hf, hgenerate, ⟨hwithin, hstring, ?_⟩, hmentioned, e, he, hpath, hheader, ?_⟩
  · exact (hincluded .string (.refl _)).not.mp hstring
  · exact (hcalled e he hpath hpackage).not.mp hheader

end QiIdl
