import QiIdl.Cpp.Types
import QiIdl.Proofs.Bind

/-!
# Types by value and by reference

A type is written by constant reference only where it is outermost: whatever scopes are around it, the element types in
it are written by value, since each stands in one more scope that forbids references. So there is one text for a type by
value (`Scope.plain`, specified by `Scope.ByValue`), and the scopes decide no more than whether it is put between `const`
and `&` (`typeName_eq_map_plain`).
-/

namespace QiIdl

variable {β γ : Type}

/-- Whether a type is a scalar. Only builtin types are. -/
def TypeExpr.isScalar {α : Type} : TypeExpr α → Bool
  | .builtin _ t => t.isScalar
  | _ => false

namespace Cpp

variable {s : Guards}

/-! ## The scopes around a type -/

namespace Guards

theorem isOn_iff : s.isOn = true ↔ 0 < s.active ∧ s.blocked = 0 := by
  simp [isOn]

theorem isOn_of_blocked (h : 0 < s.blocked) : s.isOn = false := by
  simp [isOn, Nat.pos_iff_ne_zero.mp h]

theorem isOn_block (s : Guards) : s.block.isOn = false := isOn_of_blocked (Nat.succ_pos s.blocked)

end Guards

/-! ## Results -/

theorem bind_eq_ok_iff {x : Except GenError β} {f : β → Except GenError γ} {c : γ} :
    (x >>= f) = .ok c ↔ ∃ b, x = .ok b ∧ f b = .ok c := by
  cases x with
  | error e =>
    constructor
    · exact nofun
    · rintro ⟨b, hb, -⟩
      cases hb
  | ok b =>
    constructor
    · exact fun h => ⟨b, rfl, h⟩
    · rintro ⟨b', hb, h⟩
      cases hb
      exact h

theorem mapM_eq_ok_iff {f : β → Except GenError γ} {bs : List β} {cs : List γ} :
    bs.mapM f = .ok cs ↔ List.Forall₂ (fun b c => f b = .ok c) bs cs := by
  induction bs generalizing cs with
  | nil =>
    rw [List.forall₂_nil_left_iff, List.mapM_nil]
    constructor
    · rintro ⟨⟩
      rfl
    · rintro rfl
      rfl
  | cons b bs ih =>
    simp only [List.mapM_cons, bind_eq_ok_iff, List.forall₂_cons_left_iff, ih]
    constructor
    · rintro ⟨c, hc, cs', hcs, ⟨⟩⟩
      exact ⟨c, cs', hc, hcs, rfl⟩
    · rintro ⟨c, cs', hc, hcs, rfl⟩
      exact ⟨c, hc, cs', hcs, rfl⟩

/-- Of some things that all give a result, each gives one. -/
theorem exists_of_mapM {f : β → Except GenError γ} {bs : List β} {cs : List γ} (h : bs.mapM f = .ok cs) {b : β}
    (hb : b ∈ bs) : ∃ c ∈ cs, f b = .ok c :=
  exists_of_forall₂ (mapM_eq_ok_iff.mp h).flip hb

/-! ## The scopes and the outermost type -/

theorem referred_of_off (h : s.isOn = false) (text : String) : referred s text = text := by
  simp [referred, h]

/-- The text of a type in such scopes, given its text by value. -/
def passed (s : Guards) (t : TypeExpr Mark) (text : String) : String :=
  if (0 < s.active ∧ s.blocked = 0) ∧ t.isScalar = false then "const " ++ text ++ "&" else text

theorem passed_eq_referred {t : TypeExpr Mark} (h : t.isScalar = false) : passed s t = referred s := by
  funext text
  by_cases hon : s.isOn = true
  · rw [passed, if_pos ⟨Guards.isOn_iff.mp hon, h⟩, referred, if_pos hon]
    rfl
  · rw [passed, if_neg (fun hp => hon (Guards.isOn_iff.mpr hp.1)), referred, if_neg hon]

namespace Scope

variable {text : String} {c : Scope} {s s' : Guards}

/-! ## By value -/

mutual

/-- All that matters about the scopes is whether they ask for references. -/
theorem typeName_congr (c : Scope) {s s' : Guards} (h : s.isOn = s'.isOn) : ∀ t : TypeExpr Mark,
    c.typeName s t = c.typeName s' t
  | .builtin _ t => by simp only [typeName, referred, h]
  | .custom m name => by simp only [typeName, referred, h]
  | .list _ element => by
    have helement := typeName_congr c (s.isOn_block.trans s'.isOn_block.symm) element
    simp only [typeName, referred, h, helement]
  | .map _ key value => by
    have hkey := typeName_congr c (s.isOn_block.trans s'.isOn_block.symm) key
    have hvalue := typeName_congr c (s.isOn_block.trans s'.isOn_block.symm) value
    simp only [typeName, referred, h, hkey, hvalue]
  | .tuple m elements => by
    have helements := typeNames_congr c (s.isOn_block.trans s'.isOn_block.symm) elements
    simp only [typeName, referred, h, helements]

theorem typeNames_congr (c : Scope) {s s' : Guards} (h : s.isOn = s'.isOn) : ∀ ts : List (TypeExpr Mark),
    c.typeNames s ts = c.typeNames s' ts
  | [] => rfl
  | t :: ts => by simp only [typeNames, typeName_congr c h t, typeNames_congr c h ts]

end

/-- The C++ type of a type by value: what it is where references are forbidden. -/
def plain (c : Scope) (t : TypeExpr Mark) : Except GenError String := c.typeName Guards.fresh.block t

theorem typeName_of_blocked (h : 0 < s.blocked) (t : TypeExpr Mark) : c.typeName s t = c.plain t :=
  c.typeName_congr ((Guards.isOn_of_blocked h).trans (Guards.isOn_block _).symm) t

theorem typeNames_of_blocked (h : 0 < s.blocked) (ts : List (TypeExpr Mark)) :
    c.typeNames s ts = ts.mapM c.plain := by
  induction ts with
  | nil => rfl
  | cons t ts ih => rw [typeNames, typeName_of_blocked h, ih, List.mapM_cons]

theorem plain_builtin (m : Mark) (t : Builtin) : c.plain (.builtin m t) = pure t.cpp := by
  rw [plain, typeName, referred_of_off (Guards.isOn_block _), ite_self]

theorem plain_custom (m : Mark) (name : String) : c.plain (.custom m name) = c.customName m name := by
  simp only [plain, typeName, referred_of_off (Guards.isOn_block _), bind_pure]

theorem plain_list (m : Mark) (element : TypeExpr Mark) : c.plain (.list m element) = (do
    let text ← c.plain element
    pure ("std::vector< " ++ text ++ " >")) := by
  rw [plain, typeName, typeName_of_blocked (Nat.succ_pos _)]
  simp only [referred_of_off (Guards.isOn_block _)]
  rfl

theorem plain_map (m : Mark) (key value : TypeExpr Mark) : c.plain (.map m key value) = (do
    let keyText ← c.plain key
    let valueText ← c.plain value
    pure ("std::map< " ++ keyText ++ ", " ++ valueText ++ " >")) := by
  rw [plain, typeName, typeName_of_blocked (Nat.succ_pos _), typeName_of_blocked (Nat.succ_pos _)]
  simp only [referred_of_off (Guards.isOn_block _)]
  rfl

theorem plain_tuple (m : Mark) (elements : List (TypeExpr Mark)) : c.plain (.tuple m elements) =
    if elements.length = 2 then do
      let texts ← elements.mapM c.plain
      pure ("std::pair< " ++ commaList texts ++ " >")
    else c.unsupported s!"tuple of {elements.length} elements" m := by
  rw [plain, typeName, typeNames_of_blocked (Nat.succ_pos _)]
  simp only [referred_of_off (Guards.isOn_block _)]

/-- The text is that of the type by value, with the texts of its element types by value in it. -/
inductive ByValue (c : Scope) : TypeExpr Mark → String → Prop where
  | builtin (m : Mark) (t : Builtin) : ByValue c (.builtin m t) t.cpp
  | custom {m : Mark} {r : Resolution} (name : String) : c.manager.resolution? c.file.path m.id = some r →
      ByValue c (.custom m name) (qualified r.package r.name ++ if r.kind = .interface then "Ptr" else "")
  | list {element : TypeExpr Mark} {text : String} (m : Mark) : ByValue c element text →
      ByValue c (.list m element) ("std::vector< " ++ text ++ " >")
  | map {key value : TypeExpr Mark} {keyText valueText : String} (m : Mark) : ByValue c key keyText →
      ByValue c value valueText → ByValue c (.map m key value) ("std::map< " ++ keyText ++ ", " ++ valueText ++ " >")
  | pair {first second : TypeExpr Mark} {text text' : String} (m : Mark) : ByValue c first text →
      ByValue c second text' → ByValue c (.tuple m [first, second]) ("std::pair< " ++ text ++ ", " ++ text' ++ " >")

theorem commaList_pair (text text' : String) : commaList [text, text'] = text ++ ", " ++ text' := by
  simp [commaList]

theorem plain_of_byValue {t : TypeExpr Mark} (h : c.ByValue t text) : c.plain t = .ok text := by
  induction h with
  | builtin m t => exact plain_builtin m t
  | custom name hr => rw [plain_custom, customName, hr]
  | list m _ ih =>
    rw [plain_list, ih]
    rfl
  | map m _ _ ihkey ihvalue =>
    rw [plain_map, ihkey, ihvalue]
    rfl
  | pair m _ _ ihfirst ihsecond =>
    rw [plain_tuple, if_pos (by rfl)]
    refine bind_eq_ok_iff.mpr ⟨_, mapM_eq_ok_iff.mpr (.cons ihfirst (.cons ihsecond .nil)), ?_⟩
    rw [commaList_pair]
    simp only [String.append_assoc]
    rfl

theorem byValue_of_plain : ∀ (t : TypeExpr Mark) {text : String}, c.plain t = .ok text → c.ByValue t text
  | .builtin m t, text, h => by
    rw [plain_builtin] at h
    cases h
    exact .builtin m t
  | .custom m name, text, h => by
    rw [plain_custom, customName] at h
    split at h
    · cases h
    · next hr =>
      cases h
      exact .custom name hr
  | .list m element, text, h => by
    rw [plain_list] at h
    obtain ⟨_, helement, htext⟩ := bind_eq_ok_iff.mp h
    cases htext
    exact .list m (byValue_of_plain element helement)
  | .map m key value, text, h => by
    rw [plain_map] at h
    obtain ⟨_, hkey, h⟩ := bind_eq_ok_iff.mp h
    obtain ⟨_, hvalue, htext⟩ := bind_eq_ok_iff.mp h
    cases htext
    exact .map m (byValue_of_plain key hkey) (byValue_of_plain value hvalue)
  | .tuple m [first, second], text, h => by
    rw [plain_tuple, if_pos (by rfl)] at h
    obtain ⟨_, htexts, htext⟩ := bind_eq_ok_iff.mp h
    cases mapM_eq_ok_iff.mp htexts with
    | cons hfirst hrest =>
      cases hrest with
      | cons hsecond hnil =>
        cases hnil
        cases htext
        rw [commaList_pair, ← String.append_assoc, ← String.append_assoc]
        exact .pair m (byValue_of_plain first hfirst) (byValue_of_plain second hsecond)
  | .tuple m [], text, h | .tuple m [_], text, h | .tuple m (_ :: _ :: _ :: _), text, h => by
    rw [plain_tuple, if_neg (by simp)] at h
    cases h

theorem plain_eq_ok_iff {t : TypeExpr Mark} : c.plain t = .ok text ↔ c.ByValue t text :=
  ⟨byValue_of_plain t, plain_of_byValue⟩

/-- Passing on what becomes of a text is passing on the text and seeing to it at the end. -/
theorem then_referred (x : Except GenError β) (f : β → String) :
    (x >>= fun b => pure (referred s (f b))) = (x >>= fun b => pure (f b)).map (referred s) := by
  cases x <;> rfl

/-- The scopes decide no more than whether the text by value is put between `const` and `&`. -/
theorem typeName_eq_map_plain (c : Scope) (s : Guards) (t : TypeExpr Mark) :
    c.typeName s t = (c.plain t).map (passed s t) := by
  cases t with
  | builtin m t =>
    rw [typeName, plain_builtin]
    cases hscalar : t.isScalar with
    | true =>
      have hpassed : passed s (.builtin m t) t.cpp = t.cpp := by simp [passed, TypeExpr.isScalar, hscalar]
      exact congrArg Except.ok hpassed.symm
    | false =>
      rw [passed_eq_referred (t := .builtin m t) hscalar]
      rfl
  | custom m name =>
    rw [typeName, plain_custom, passed_eq_referred rfl, then_referred, bind_pure]
  | list m element =>
    rw [typeName, plain_list, passed_eq_referred rfl, typeName_of_blocked (Nat.succ_pos _), then_referred]
    rfl
  | map m key value =>
    rw [typeName, plain_map, passed_eq_referred rfl, typeName_of_blocked (Nat.succ_pos _),
      typeName_of_blocked (Nat.succ_pos _)]
    cases c.plain key with
    | error e => rfl
    | ok keyText => exact then_referred _ _
  | tuple m elements =>
    rw [typeName, plain_tuple, passed_eq_referred rfl, typeNames_of_blocked (Nat.succ_pos _)]
    split
    · exact then_referred _ _
    · rfl

theorem typeName_eq_ok_iff {t : TypeExpr Mark} :
    c.typeName s t = .ok text ↔ ∃ plain, c.ByValue t plain ∧ passed s t plain = text := by
  simp only [typeName_eq_map_plain, ← plain_eq_ok_iff]
  cases c.plain t <;> simp [Except.map]

/-- Nothing is written as what it is by value. -/
theorem returnType_some (t : TypeExpr Mark) : c.returnType s (some t) = c.plain t := by
  rw [returnType]
  split
  · next hnothing =>
    cases t with
    | builtin m b =>
      cases b with
      | nothing => exact (plain_builtin m .nothing).symm
      | _ => cases hnothing
    | _ => cases hnothing
  · exact typeName_of_blocked (Nat.succ_pos _) t

theorem valueTypes_eq (c : Scope) (s : Guards) (ps : List (Param Mark)) :
    c.valueTypes s ps = (do
      let texts ← ps.mapM fun p => c.plain p.type
      pure (commaList texts)) := by
  rw [valueTypes, typeNames_of_blocked (Nat.succ_pos _), List.mapM_map]
  rfl

end Scope
end Cpp
end QiIdl
