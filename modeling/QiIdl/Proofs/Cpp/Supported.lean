import QiIdl.Compile
import QiIdl.Proofs.Ast.Every

/-!
# How output fails

There are two errors of output: a construct that the kind of output cannot express, and a reference that has no
answer. `FailsIn F x` says that where `x` fails, the error is one of `F`. What writes types fails as the types do that it
writes, so it is gone through once for all `F` and all properties `P` of types that keep their errors in `F`
(`Scope.Keeps`).

Where every reference of a file has an answer, output fails only at constructs it cannot express
(`generate_failsIn_unsupported`): every type that goes into the output stands somewhere in the tree of the file, and was
therefore among its references.
-/

namespace QiIdl

variable {β γ : Type} {backend : Backend} {F : GenError → Prop} {P : Node Mark → Prop}

/-- The error is about a construct that a kind of output cannot express. -/
def GenError.IsUnsupported (backend : Backend) (e : GenError) : Prop :=
  ∃ construct location, e = .unsupported backend construct location

/-! ## Without reports -/

namespace Cpp

/-- If this fails, then by one of these errors. -/
def FailsIn (F : GenError → Prop) (x : Except GenError β) : Prop := ∀ e, x = .error e → F e

namespace FailsIn

protected theorem pure (b : β) : FailsIn F (pure b) := nofun

protected theorem bind {x : Except GenError β} {f : β → Except GenError γ} (hx : FailsIn F x)
    (hf : ∀ b, FailsIn F (f b)) : FailsIn F (x >>= f) := by
  cases x with
  | ok b => exact hf b
  | error e =>
    intro e' he
    cases he
    exact hx e rfl

/-- What is done with a result afterwards cannot fail. -/
protected theorem map {x : Except GenError β} {f : β → γ} (hx : FailsIn F x) :
    FailsIn F (x >>= fun b => pure (f b)) := hx.bind fun _ => .pure _

protected theorem mapM {f : β → Except GenError γ} {bs : List β} (h : ∀ b ∈ bs, FailsIn F (f b)) :
    FailsIn F (bs.mapM f) := by
  induction bs with
  | nil =>
    rw [List.mapM_nil]
    exact .pure _
  | cons b bs ih =>
    obtain ⟨hb, hbs⟩ := List.forall_mem_cons.mp h
    rw [List.mapM_cons]
    exact .bind hb fun _ => (ih hbs).map

protected theorem forM {f : β → Except GenError PUnit} {bs : List β} (h : ∀ b ∈ bs, FailsIn F (f b)) :
    FailsIn F (bs.forM f) := by
  induction bs with
  | nil => exact .pure _
  | cons b bs ih =>
    obtain ⟨hb, hbs⟩ := List.forall_mem_cons.mp h
    exact .bind hb fun _ => ih hbs

end FailsIn

namespace Scope

variable {c : Scope} {s : Guards} {d : Interface Mark}

theorem failsIn_unsupported {construct : String} {m : Mark} (h : F (.unsupported c.backend construct (c.locate m))) :
    FailsIn F (c.unsupported construct m : Except GenError β) := by
  intro e he
  cases he
  exact h

/-! ### Types -/

/-- Where `P` holds of a type, it does not fail of itself but by an error of `F`. -/
structure Keeps (c : Scope) (P : Node Mark → Prop) (F : GenError → Prop) : Prop where
  custom : ∀ m name, P (.type (.custom m name)) → FailsIn F (c.customName m name)
  tuple : ∀ m elements, P (.type (.tuple m elements)) → elements.length ≠ 2 →
    ∀ construct, F (.unsupported c.backend construct (c.locate m))

mutual

theorem failsIn_typeName (hc : c.Keeps P F) (s : Guards) : ∀ t : TypeExpr Mark, t.tree.Every P →
    FailsIn F (c.typeName s t)
  | .builtin _ t, _ => by
    rw [typeName]
    exact .pure _
  | .custom m name, h => by
    rw [typeName]
    exact (hc.custom m name h.label).map
  | .list _ element, h => by
    rw [typeName]
    exact (failsIn_typeName hc s.block element (TypeExpr.every_list.mp h).2).map
  | .map _ key value, h => by
    rw [typeName]
    obtain ⟨-, hkey, hvalue⟩ := TypeExpr.every_map.mp h
    exact .bind (failsIn_typeName hc s.block key hkey) fun _ => (failsIn_typeName hc s.block value hvalue).map
  | .tuple m elements, h => by
    rw [typeName]
    obtain ⟨htuple, helements⟩ := TypeExpr.every_tuple.mp h
    split
    · exact (failsIn_typeNames hc s.block elements helements).map
    · next hlength => exact failsIn_unsupported (hc.tuple m elements htuple hlength _)

theorem failsIn_typeNames (hc : c.Keeps P F) (s : Guards) : ∀ ts : List (TypeExpr Mark), (∀ t ∈ ts, t.tree.Every P) →
    FailsIn F (c.typeNames s ts)
  | [], _ => by
    rw [typeNames]
    exact .pure _
  | t :: ts, h => by
    rw [typeNames]
    obtain ⟨ht, hts⟩ := List.forall_mem_cons.mp h
    exact .bind (failsIn_typeName hc s t ht) fun _ => (failsIn_typeNames hc s ts hts).map

end

section Types

variable (hc : c.Keeps P F)
include hc

theorem failsIn_returnType {ret : Option (TypeExpr Mark)} (h : ∀ t ∈ ret, t.tree.Every P) :
    FailsIn F (c.returnType s ret) := by
  cases ret with
  | none => exact .pure _
  | some t =>
    rw [returnType]
    split
    · exact .pure _
    · exact failsIn_typeName hc s.block t (h t rfl)

theorem failsIn_params {style : ParamStyle} {ps : List (Param Mark)} (h : ∀ p ∈ ps, p.type.tree.Every P) :
    FailsIn F (c.params s style ps) := by
  refine .map (.mapM ?_)
  rintro ⟨t, name⟩ hmem
  -- the names do not matter: a type that stands beside one is the type of a parameter
  obtain ⟨p, hp, rfl⟩ := List.mem_map.mp (List.of_mem_zip hmem).1
  have htype := failsIn_typeName hc s.activate p.type (h p hp)
  cases style with
  | full => exact htype.map
  | types => exact htype
  | names => exact .pure _

/-- Signals and properties go into the output by the types they carry, whatever is made of these. -/
theorem failsIn_channels {ms : List (Channel Mark)} {f : Channel Mark → String → β}
    (h : ∀ m ∈ ms, ∀ p ∈ m.params, p.type.tree.Every P) :
    FailsIn F (ms.mapM fun m => do
      let types ← c.valueTypes .fresh m.params
      pure (f m types)) :=
  .mapM fun m hm => .map (.map (failsIn_typeNames hc _ _ (List.forall_mem_map.mpr (h m hm))))

theorem failsIn_method {f : Fn Mark} (h : f.tree.Every P) : FailsIn F (c.method f) := by
  obtain ⟨-, hparams, hret⟩ := Fn.every_tree.mp h
  refine .bind (failsIn_returnType hc hret) fun _ => ?_
  refine .bind (failsIn_params hc hparams) fun _ => ?_
  exact .bind (failsIn_params hc hparams) fun _ => (failsIn_params hc hparams).map

end Types

/-! ### Interfaces -/

theorem every_methods (h : (Node.interface d).tree.Every P) : ∀ f ∈ d.methods, f.tree.Every P := by
  intro f hf
  obtain ⟨m, hm, heq⟩ := List.mem_filterMap.mp hf
  cases m with
  | fn g =>
    cases heq
    exact (Node.every_interface.mp h).2 _ hm
  | _ => cases heq

theorem every_signals (h : (Node.interface d).tree.Every P) :
    ∀ m ∈ d.signals, ∀ p ∈ m.params, p.type.tree.Every P := by
  intro channel hchannel
  obtain ⟨m, hm, heq⟩ := List.mem_filterMap.mp hchannel
  cases m with
  | emit channel' =>
    cases heq
    exact (Member.every_emit.mp ((Node.every_interface.mp h).2 _ hm)).2
  | _ => cases heq

theorem every_properties (h : (Node.interface d).tree.Every P) :
    ∀ m ∈ d.properties, ∀ p ∈ m.params, p.type.tree.Every P := by
  intro channel hchannel
  obtain ⟨m, hm, heq⟩ := List.mem_filterMap.mp hchannel
  cases m with
  | prop channel' =>
    cases heq
    exact (Member.every_prop.mp ((Node.every_interface.mp h).2 _ hm)).2
  | _ => cases heq

/-- `P` holds of the methods of an interface and of the types of its signals and properties. -/
structure AllTypes (P : Node Mark → Prop) (d : Interface Mark) : Prop where
  methods : ∀ f ∈ d.methods, f.tree.Every P
  signals : ∀ m ∈ d.signals, ∀ p ∈ m.params, p.type.tree.Every P
  properties : ∀ m ∈ d.properties, ∀ p ∈ m.params, p.type.tree.Every P

theorem allTypes_of_every (h : (Node.interface d).tree.Every P) : AllTypes P d :=
  ⟨every_methods h, every_signals h, every_properties h⟩

section Interface

variable (hc : c.Keeps P F) (hd : AllTypes P d)
include hc hd

theorem failsIn_methods : FailsIn F (c.methods d) := .mapM fun f hf => failsIn_method hc (hd.methods f hf)

theorem failsIn_syncClass : FailsIn F (c.syncClass d) := by
  refine .bind (failsIn_channels hc hd.signals) fun _ => ?_
  exact .bind (failsIn_channels hc hd.properties) fun _ => (failsIn_methods hc hd).map

theorem failsIn_mock : FailsIn F (c.mock d) := by
  refine .bind (failsIn_methods hc hd) fun _ => ?_
  exact .bind (failsIn_channels hc hd.signals) fun _ => (failsIn_channels hc hd.properties).map

theorem failsIn_proxies : FailsIn F (c.proxies d) := by
  -- inherited signals and properties go in by their names alone, so the files of the bases do not matter
  have hsync : FailsIn F (c.syncProxy d) := by
    refine .bind (failsIn_channels hc hd.signals) fun _ => ?_
    exact .bind (failsIn_channels hc hd.properties) fun _ => (failsIn_methods hc hd).map
  exact .bind (failsIn_methods hc hd).map fun _ => hsync.map

end Interface

/-! ### Values and headers -/

/-- If this fails, then at a construct that the kind of output cannot express. -/
abbrev OnlyUnsupported (c : Scope) (x : Except GenError β) : Prop := FailsIn (GenError.IsUnsupported c.backend) x

theorem onlyUnsupported {construct : String} {m : Mark} :
    c.OnlyUnsupported (c.unsupported construct m : Except GenError β) := failsIn_unsupported ⟨_, _, rfl⟩

mutual

theorem onlyUnsupported_literal : ∀ l : Literal Mark, c.OnlyUnsupported (c.literal l)
  | .bool .. | .int .. | .float .. | .string .. => by
    rw [literal]
    exact .pure _
  | .list _ items => by
    rw [literal]
    exact (onlyUnsupported_literals items).map
  | .tuple _ items => by
    rw [literal]
    split
    · exact (onlyUnsupported_literals items).map
    · exact onlyUnsupported
  | .dict _ entries => by
    rw [literal]
    exact (onlyUnsupported_literalEntries entries).map

theorem onlyUnsupported_literals : ∀ ls : List (Literal Mark), c.OnlyUnsupported (c.literals ls)
  | [] => by
    rw [literals]
    exact .pure _
  | l :: ls => by
    rw [literals]
    exact .bind (onlyUnsupported_literal l) fun _ => (onlyUnsupported_literals ls).map

theorem onlyUnsupported_literalEntries : ∀ entries : List (Literal Mark × Literal Mark),
    c.OnlyUnsupported (c.literalEntries entries)
  | [] => by
    rw [literalEntries]
    exact .pure _
  | (key, value) :: rest => by
    rw [literalEntries]
    refine .bind (onlyUnsupported_literal key) fun _ => ?_
    exact .bind (onlyUnsupported_literal value) fun _ => (onlyUnsupported_literalEntries rest).map

end

mutual

theorem onlyUnsupported_expr : ∀ e : Expr Mark, c.OnlyUnsupported (c.expr e)
  | .literal _ l => by
    rw [expr]
    exact onlyUnsupported_literal l
  | .call _ _ args => by
    rw [expr]
    exact (onlyUnsupported_exprs args).map
  | .binary .. | .unary .. | .var .. => by
    rw [expr]
    exact onlyUnsupported

theorem onlyUnsupported_exprs : ∀ es : List (Expr Mark), c.OnlyUnsupported (c.exprs es)
  | [] => by
    rw [exprs]
    exact .pure _
  | e :: es => by
    rw [exprs]
    exact .bind (onlyUnsupported_expr e) fun _ => (onlyUnsupported_exprs es).map

end

theorem onlyUnsupported_value (v : Value Mark) : c.OnlyUnsupported (c.value v) := by
  cases v with
  | literal l => exact onlyUnsupported_literal l
  | expr e => exact onlyUnsupported_expr e

/-- If the node is a reference, it has an answer. -/
def Answered (c : Scope) (n : Node Mark) : Prop :=
  n.sort = .customType → (c.manager.resolution? c.file.path n.tag.id).isSome = true

theorem failsIn_customName {m : Mark} {name : String} (h : c.Answered (.type (.custom m name))) :
    FailsIn F (c.customName m name) := by
  obtain ⟨r, hr⟩ := Option.isSome_iff_exists.mp (h rfl)
  unfold customName
  -- `hr` is about the number of the node, which is that of its mark
  change c.manager.resolution? c.file.path m.id = some r at hr
  rw [hr]
  exact .pure _

theorem keeps_answered : c.Keeps c.Answered (GenError.IsUnsupported c.backend) :=
  ⟨fun _ _ => failsIn_customName, fun _ _ _ _ _ => ⟨_, _, rfl⟩⟩

theorem onlyUnsupported_declaredType {type : Option (TypeExpr Mark)} {value : Value Mark}
    (h : ∀ t ∈ type, t.tree.Every c.Answered) : c.OnlyUnsupported (c.declaredType type value) := by
  cases type with
  | none =>
    rw [declaredType, inferredType]
    split
    · exact .pure _
    · exact onlyUnsupported
  | some t => exact failsIn_typeName keeps_answered .fresh t (h t rfl)

theorem onlyUnsupported_variableLine {d : Var Mark} (h : (Node.var d).tree.Every c.Answered) :
    c.OnlyUnsupported (c.variableLine d) := by
  obtain ⟨-, htype, -⟩ := Node.every_var.mp h
  unfold variableLine
  split
  · exact .bind (onlyUnsupported_declaredType htype) fun _ => (onlyUnsupported_value _).map
  · next t heq _ => exact (failsIn_typeName keeps_answered .fresh t (htype t heq)).map
  · exact onlyUnsupported

theorem onlyUnsupported_fieldLine {d : Field Mark} (h : d.tree.Every c.Answered) :
    c.OnlyUnsupported (c.fieldLine d) := by
  refine .bind (failsIn_typeName keeps_answered .fresh d.type (Field.every_tree.mp h).2.1) fun _ => ?_
  split
  · exact (onlyUnsupported_value _).map
  · exact .pure _

theorem onlyUnsupported_enumLine {d : EnumItem Mark} : c.OnlyUnsupported (c.enumLine d) := by
  unfold enumLine
  split
  · exact (onlyUnsupported_value _).map
  · exact onlyUnsupported

theorem onlyUnsupported_headerItem {n : Node Mark} (h : n.tree.Every c.Answered) :
    c.OnlyUnsupported (c.headerItem n) := by
  unfold headerItem
  split
  · exact .pure _
  · exact (onlyUnsupported_variableLine h).map
  · have hd := allTypes_of_every h
    exact .bind (failsIn_syncClass keeps_answered hd) fun _ => .map (failsIn_methods keeps_answered hd).map
  · exact .map (failsIn_method keeps_answered h).map
  · have hfields := (Node.every_struct.mp h).2
    exact .map (.mapM fun f hf => onlyUnsupported_fieldLine (hfields f hf))
  · have htype := (Node.every_const.mp h).2.1
    exact .map (.bind (onlyUnsupported_value _) fun _ => (onlyUnsupported_declaredType htype).map)
  · exact (failsIn_typeName keeps_answered .fresh _ (Node.every_typedef.mp h).2).map
  · exact .map (.mapM fun _ _ => onlyUnsupported_enumLine)
  · split
    · exact onlyUnsupported
    · exact .pure _

/-! ### Files -/

/-- What stands in the file fails of itself only by errors of `F`: object instances at its top, and types in its
interfaces. -/
structure KeepsAll (c : Scope) (P : Node Mark → Prop) (F : GenError → Prop) : Prop extends c.Keeps P F where
  objects : ∀ n ∈ c.file.ast.roots, ∀ construct, objectStatement? n = some construct →
    F (.unsupported c.backend construct (c.locate n.tag))
  interfaces : ∀ d ∈ c.interfaces, AllTypes P d

section Files

variable (hc : c.KeepsAll P F)
include hc

theorem failsIn_rejectObjects : FailsIn F c.rejectObjects := by
  refine .forM fun n hn => ?_
  split
  · next construct hobject => exact failsIn_unsupported (hc.objects n hn construct hobject)
  · exact .pure _

theorem failsIn_mockFile : FailsIn F c.mockFile :=
  .bind (failsIn_rejectObjects hc) fun _ => .map (.mapM fun d hd => failsIn_mock hc.toKeeps (hc.interfaces d hd))

theorem failsIn_proxyFile : FailsIn F c.proxyFile :=
  .bind (failsIn_rejectObjects hc) fun _ => .map (.mapM fun d hd => failsIn_proxies hc.toKeeps (hc.interfaces d hd))

end Files
end Scope
end Cpp

/-! ## With reports -/

namespace Generate

/-- If this fails, whatever was reported before, then by one of these errors. -/
def FailsIn (F : GenError → Prop) (x : Generate β) : Prop := ∀ reports e reports', x reports = .error e reports' → F e

namespace FailsIn

protected theorem pure (b : β) : FailsIn F (pure b) := nofun

protected theorem bind {x : Generate β} {f : β → Generate γ} (hx : FailsIn F x) (hf : ∀ b, FailsIn F (f b)) :
    FailsIn F (x >>= f) := by
  intro reports e reports' he
  rcases bind_eq_error.mp he with he | ⟨b, reports₁, -, he⟩
  · exact hx reports e reports' he
  · exact hf b reports₁ e reports' he

protected theorem map {x : Generate β} (f : β → γ) (hx : FailsIn F x) : FailsIn F (f <$> x) := by
  rw [← bind_pure_comp]
  exact .bind hx fun _ => .pure _

protected theorem mapM {f : β → Generate γ} {bs : List β} (h : ∀ b ∈ bs, FailsIn F (f b)) :
    FailsIn F (bs.mapM f) := by
  induction bs with
  | nil =>
    rw [List.mapM_nil]
    exact .pure _
  | cons b bs ih =>
    obtain ⟨hb, hbs⟩ := List.forall_mem_cons.mp h
    rw [List.mapM_cons]
    exact .bind hb fun _ => .bind (ih hbs) fun _ => .pure _

protected theorem ofExcept {x : Except GenError β} (h : Cpp.FailsIn F x) : FailsIn F (ofExcept x) := by
  cases x with
  | ok b => exact .pure b
  | error e =>
    intro reports e' reports' he
    cases he
    exact h e rfl

protected theorem ofReporting (p : Reporting β) : FailsIn F (ofReporting p) := nofun

end FailsIn

/-- There is a result, where these reports were made before. -/
def Succeeds (x : Generate β) (reports : List Diagnostic) : Prop := ∃ b reports', x reports = .ok b reports'

instance (x : Generate β) (reports : List Diagnostic) : Decidable (x.Succeeds reports) :=
  match h : x reports with
  | .ok b reports' => isTrue ⟨b, reports', h⟩
  | .error _ _ => isFalse fun ⟨_, _, h'⟩ => nomatch h.symm.trans h'

end Generate

namespace Cpp.Scope

variable {c : Scope} {d : Interface Mark}

theorem failsIn_registerMacro (hc : c.Keeps P F) (hd : AllTypes P d) : Generate.FailsIn F (c.registerMacro d) := by
  have hadvertised (full : String) : Generate.FailsIn F (c.advertised d full) := by
    refine .bind (.mapM fun f hf => ?_) fun _ => .pure _
    refine .bind (.ofExcept (failsIn_method hc (hd.methods f hf))) fun _ => ?_
    exact .bind (.ofReporting _) fun _ => .pure _
  refine .bind (.ofReporting _) fun _ => ?_
  refine .bind (.ofExcept (failsIn_methods hc hd)) fun _ => ?_
  exact .bind (hadvertised _) fun _ => .pure _

theorem failsIn_adapterFile (hc : c.KeepsAll P F) : Generate.FailsIn F c.adapterFile := by
  refine .bind (.ofExcept (failsIn_rejectObjects hc)) fun _ => ?_
  refine .bind (.ofExcept (.mapM fun d hd => (failsIn_methods hc.toKeeps (hc.interfaces d hd)).map)) fun _ => ?_
  exact .bind (.mapM fun d hd => failsIn_registerMacro hc.toKeeps (hc.interfaces d hd)) fun _ => .pure _

theorem mem_interfaces : d ∈ c.interfaces ↔ .interface d ∈ c.file.ast.roots := by
  unfold interfaces Ast.interfaces
  rw [List.mem_filterMap]
  constructor
  · rintro ⟨n, hn, heq⟩
    cases n <;> cases heq
    exact hn
  · exact fun h => ⟨_, h, rfl⟩

/-- Whether the statement declares a value: a constant or a variable. -/
def declaresValue : Node Mark → Bool
  | .const _ | .var _ => true
  | _ => false

/-- The registration of a file fails at the values it declares too. -/
theorem failsIn_registrationFile (hc : c.KeepsAll P F) (hvalues : ∀ n ∈ c.file.ast.roots, declaresValue n = true →
      ∀ construct, F (.unsupported c.backend construct (c.locate n.tag))) :
    Generate.FailsIn F c.registrationFile := by
  have hwarned (kind name : String) (m : Mark) : Generate.FailsIn F (c.notRegistered kind name m) :=
    .bind (.ofReporting _) fun _ => .pure _
  have hitem (number : Nat) (n : Node Mark) (hn : n ∈ c.file.ast.roots) :
      Generate.FailsIn F (c.registrationItem number n) := by
    cases n with
    | interface d =>
      have hd := hc.interfaces d (mem_interfaces.mpr hn)
      exact .bind (.ofExcept (failsIn_methods hc.toKeeps hd)) fun _ => .pure _
    | struct | enum | typedef => exact hwarned _ _ _
    | const | var => exact .ofExcept (failsIn_unsupported (hvalues _ hn rfl _))
    | _ => exact .pure _
  have hitems {ns : List (Node Mark)} (number : Nat) (hns : ns ⊆ c.file.ast.roots) :
      Generate.FailsIn F (c.registrationItems number ns) := by
    induction ns generalizing number with
    | nil => exact .pure _
    | cons n ns ih =>
      obtain ⟨hn, hns⟩ := List.cons_subset.mp hns
      exact .bind (hitem number n hn) fun _ => .bind (ih _ hns) fun _ => .pure _
  refine .bind (.ofExcept (failsIn_rejectObjects hc)) fun _ => ?_
  exact .bind (hitems 0 (List.Subset.refl _)) fun _ => .pure _

end Cpp.Scope

/-! ## Every kind of output -/

/-- Output for a file whose references all have answers fails only at a construct that it cannot express. Output that
needs no answers does not fail. -/
theorem generate_failsIn_unsupported {m : Manager} {f : SourceFile} (width : Nat)
    (h : backend.needsResolution = true →
      ∀ node ∈ f.ast.customTypes, (m.resolution? f.path node.tag.id).isSome = true) :
    Generate.FailsIn (GenError.IsUnsupported backend) (generate backend m f width) := by
  have hroots (hneeds : backend.needsResolution = true) := Ast.every_of_customTypes (h hneeds)
  have hfile (hneeds : backend.needsResolution = true) : (⟨backend, m, f⟩ : Cpp.Scope).KeepsAll
      (⟨backend, m, f⟩ : Cpp.Scope).Answered (GenError.IsUnsupported backend) :=
    { Cpp.Scope.keeps_answered with
      objects := fun _ _ _ _ => ⟨_, _, rfl⟩
      interfaces := fun d hd => Cpp.Scope.allTypes_of_every (hroots hneeds _ (Cpp.Scope.mem_interfaces.mp hd)) }
  unfold generate
  cases backend with
  | qilang => exact .pure _
  | sexpr => exact .pure _
  | doc => exact .ofReporting _
  | cppInterface =>
    exact .map _ (.ofExcept (.map (.mapM fun n hn => Cpp.Scope.onlyUnsupported_headerItem (hroots rfl n hn))))
  | cppLocal => exact .map _ (Cpp.Scope.failsIn_adapterFile (hfile rfl))
  | cppRemote => exact .map _ (.ofExcept (Cpp.Scope.failsIn_proxyFile (hfile rfl)))
  | cppBind => exact .map _ (Cpp.Scope.failsIn_registrationFile (hfile rfl) fun _ _ _ _ => ⟨_, _, rfl⟩)
  | cppGmock => exact .map _ (.ofExcept (Cpp.Scope.failsIn_mockFile (hfile rfl)))

end QiIdl
