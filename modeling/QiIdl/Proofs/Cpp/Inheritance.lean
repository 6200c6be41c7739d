import QiIdl.Proofs.Cpp.Bases
import QiIdl.Proofs.Cpp.Mentioned

/-!
# Inherited fields

A proxy constructs every interface with signals or properties that its own interface inherits from, so these are
gathered from base to base, through files and packages: a base is a name in the package that the interface stands in.
How deep the search goes is bounded by a count. If no interface inherits from itself, the count is never used up
(`gathers_inheritedFrom`): on the way down, all interfaces are different and all are exported. What is gathered then is
just what is inherited, each interface once and behind those that it inherits from itself (`inheritedFields_exact`),
with the fields in the order in which the interface's own constructor takes them.
-/

namespace QiIdl

open Relation

/-- An interface where it stands. -/
structure Declared where
  package : String
  decl : Interface Mark

namespace Declared

def fullName (a : Declared) : String := Cpp.qualified a.package a.decl.name

/-- An interface with signals or properties. -/
def HasFields (a : Declared) : Prop := a.decl.channelNames ≠ []

/-- An interface as it is listed: its full name, and what its signals and then its properties are bound to. -/
def entry (a : Declared) : String × List String := (a.fullName, a.decl.channelNames.map ("_" ++ ·))

end Declared

namespace Manager

variable {m : Manager} {package base name : String} {bases : List String} {a b : Declared} {e : Export}
  {d : Interface Mark} {file : SourceFile} {known out : List (String × List String)}

/-! ## What bases mean -/

/-- A base in a package means an interface that is exported. -/
def IsBase (m : Manager) (package base : String) (b : Declared) : Prop :=
  ∃ e, m.baseExport? package base = some e ∧ e.node = .interface b.decl ∧ e.file.package = b.package

/-- An interface has a base that means another interface. -/
def Inherits (m : Manager) (a b : Declared) : Prop := ∃ base ∈ a.decl.inherits, m.IsBase a.package base b

/-- No interface inherits from itself, by whatever way. -/
def IsAcyclic (m : Manager) : Prop := ∀ a, ¬TransGen m.Inherits a a

/-- The interface is exported under its name. -/
def Exports (m : Manager) (a : Declared) : Prop :=
  ∃ e, m.findExport a.package a.decl.name = some e ∧ e.node = .interface a.decl

/-- What a base means is looked up under its name without the package. -/
theorem baseInterface?_eq_some : m.baseInterface? package base = some (file, name, d) ↔
    ∃ e, m.baseExport? package base = some e ∧ e.node = .interface d ∧ e.file = file ∧
      name = ((Text.splitLast base).getD (package, base)).2 := by
  unfold baseInterface? baseExport?
  generalize (Text.splitLast base).getD (package, base) = found
  obtain ⟨owner, own⟩ := found
  dsimp only
  cases m.findExport owner own with
  | none => simp
  | some e =>
    obtain ⟨exported, file', node⟩ := e
    cases node <;> simp [eq_comm, and_comm, and_assoc, and_left_comm]

theorem isBase_of_baseInterface? (h : m.baseInterface? package base = some (file, name, d)) :
    m.IsBase package base ⟨file.package, d⟩ := by
  obtain ⟨e, he, hnode, rfl, -⟩ := baseInterface?_eq_some.mp h
  exact ⟨e, he, hnode, rfl⟩

theorem not_isBase_of_baseInterface? (h : m.baseInterface? package base = none) : ¬m.IsBase package base b := by
  rintro ⟨e, he, hnode, -⟩
  have hsome := baseInterface?_eq_some.mpr ⟨e, he, hnode, rfl, rfl⟩
  rw [h] at hsome
  cases hsome

theorem isBase_unique (h : m.baseInterface? package base = some (file, name, d)) (hb : m.IsBase package base b) :
    b = ⟨file.package, d⟩ := by
  obtain ⟨e, he, hnode, rfl, -⟩ := baseInterface?_eq_some.mp h
  obtain ⟨e', he', hnode', hpackage⟩ := hb
  rw [he] at he'
  cases he'
  rw [hnode] at hnode'
  obtain ⟨bpackage, bdecl⟩ := b
  cases hnode'
  cases hpackage
  rfl

/-- What is exported as an interface is declared by a file of the package, under the name. -/
theorem Regular.interface_of_findExport (hm : Regular m) (he : m.findExport package name = some e)
    (hnode : e.node = .interface d) :
    d.name = name ∧ IsName name ∧ IsDotted package ∧ .interface d ∈ e.file.ast.roots := by
  obtain ⟨hfile, -, hmem, hexported⟩ := hm.balanced.declared_of_findExport hm.coherent he
  rw [hnode] at hmem hexported
  cases hexported
  have hsound := (hm.coherent.every_sound hfile hmem).label
  exact ⟨rfl, hsound.1, isDotted_of_findExport hm.coherent hm.balanced he, hmem⟩

theorem Regular.exports_of_isBase (hm : Regular m) (h : m.IsBase package base b) : m.Exports b := by
  obtain ⟨e, he, hnode, hpackage⟩ := h
  have hname := (hm.interface_of_findExport he hnode).1
  refine ⟨e, ?_, hnode⟩
  rw [← hpackage, hm.package_of_findExport he, hname]
  exact he

theorem Regular.fullName_of_baseInterface? (hm : Regular m)
    (h : m.baseInterface? package base = some (file, name, d)) :
    Cpp.qualified file.package name = (⟨file.package, d⟩ : Declared).fullName := by
  obtain ⟨e, he, hnode, rfl, rfl⟩ := baseInterface?_eq_some.mp h
  have hname : d.name = _ := (hm.interface_of_findExport he hnode).1
  rw [Declared.fullName, hname]
  rfl

/-- Full names tell exported interfaces apart. -/
theorem Regular.eq_of_fullName (hm : Regular m) (ha : m.Exports a) (hb : m.Exports b) (h : a.fullName = b.fullName) :
    a = b := by
  obtain ⟨e, he, hnode⟩ := ha
  obtain ⟨e', he', hnode'⟩ := hb
  obtain ⟨-, hname, hpackage, -⟩ := hm.interface_of_findExport he hnode
  obtain ⟨-, hname', hpackage', -⟩ := hm.interface_of_findExport he' hnode'
  rw [Declared.fullName, Declared.fullName, Cpp.qualified_eq_namespacePath hname.not_dot_mem,
    Cpp.qualified_eq_namespacePath hname'.not_dot_mem] at h
  have htext := Cpp.namespacePath_injective (hpackage.snoc hname) (hpackage'.snoc hname') h
  have hsplit := congrArg Text.splitLast htext
  rw [Text.splitLast_snoc hname.not_dot_mem, Text.splitLast_snoc hname'.not_dot_mem] at hsplit
  obtain ⟨hpackages, hnames⟩ := Prod.mk.inj (Option.some.inj hsplit)
  rw [hpackages, hnames, he'] at he
  cases he
  rw [hnode] at hnode'
  obtain ⟨apackage, adecl⟩ := a
  obtain ⟨bpackage, bdecl⟩ := b
  cases hpackages
  cases hnode'
  rfl

/-! ## Down to the last base -/

/-- Some bases lead to a list of fields, without a bound on how deep they go. -/
inductive Gathers (m : Manager) : String → List String → List (String × List String) → List (String × List String) →
    Prop where
  | nil (package : String) (known : List (String × List String)) : Gathers m package [] known known
  | skip {package base : String} {bases : List String} {known out : List (String × List String)} :
      m.baseInterface? package base = none → Gathers m package bases known out →
      Gathers m package (base :: bases) known out
  | base {package base name : String} {bases : List String} {file : SourceFile} {d : Interface Mark}
      {known inner out : List (String × List String)} : m.baseInterface? package base = some (file, name, d) →
      Gathers m file.package d.inherits known inner →
      Gathers m package bases (addFields (Cpp.qualified file.package name) (d.channelNames.map ("_" ++ ·)) inner) out →
      Gathers m package (base :: bases) known out

def declared (m : Manager) : List Declared :=
  (m.packages.values.flatMap (·.exports)).filterMap fun entry =>
    match entry.2.node with
    | .interface d => some ⟨entry.2.file.package, d⟩
    | _ => none

theorem length_declared_le (m : Manager) : m.declared.length ≤ m.exportCount := List.length_filterMap_le _ _

theorem mem_declared_of_isBase (h : m.IsBase package base b) : b ∈ m.declared := by
  obtain ⟨e, he, hnode, hpackage⟩ := h
  obtain ⟨p, hp, hexport⟩ := findExport_eq_some.mp he
  refine List.mem_filterMap.mpr ⟨_, List.mem_flatMap.mpr ⟨p, ?_, Table.mem_of_find? hexport⟩, ?_⟩
  · exact List.mem_map_of_mem (f := Prod.snd) (Table.mem_of_find? hp)
  · simp [hnode, hpackage]

/-- The interfaces above some bases on the way down to them: different ones, all exported, and each inherits from what
the bases mean. -/
structure Trail (m : Manager) (path : List Declared) (package : String) (bases : List String) : Prop where
  nodup : path.Nodup
  declared : path ⊆ m.declared
  leads : ∀ a ∈ path, ∀ base ∈ bases, ∀ b, m.IsBase package base b → TransGen m.Inherits a b

variable {path : List Declared}

theorem Trail.length_le (h : m.Trail path package bases) : path.length ≤ m.exportCount :=
  (List.subperm_of_subset h.nodup h.declared).length_le.trans m.length_declared_le

/-- What a base means is not met on the way to it if there is no circle. -/
theorem Trail.down (h : m.Trail path package bases) (hacyclic : m.IsAcyclic) (hbase : base ∈ bases)
    (hb : m.IsBase package base b) : m.Trail (b :: path) b.package b.decl.inherits where
  nodup := List.nodup_cons.mpr ⟨fun hmem => hacyclic b (h.leads b hmem base hbase b hb), h.nodup⟩
  declared := List.cons_subset.mpr ⟨mem_declared_of_isBase hb, h.declared⟩
  leads := by
    intro a ha base' hbase' b' hb'
    have hinherits : m.Inherits b b' := ⟨base', hbase', hb'⟩
    rcases List.mem_cons.mp ha with rfl | ha
    · exact .single hinherits
    · exact (h.leads a ha base hbase b hb).tail hinherits

theorem inheritedFrom_cons_none {depth : Nat} (h : m.baseInterface? package base = none) :
    m.inheritedFrom (depth + 1) package (base :: bases) known = m.inheritedFrom (depth + 1) package bases known := by
  simp only [inheritedFrom, List.foldl_cons, h]

theorem inheritedFrom_cons_some {depth : Nat} (h : m.baseInterface? package base = some (file, name, d)) :
    m.inheritedFrom (depth + 1) package (base :: bases) known = m.inheritedFrom (depth + 1) package bases
      (addFields (Cpp.qualified file.package name) (d.channelNames.map ("_" ++ ·))
        (m.inheritedFrom depth file.package d.inherits known)) := by
  simp only [inheritedFrom, List.foldl_cons, h]

/-- Without a circle, the depth is never used up: as it goes down, the way grows, and the way is never longer than there
are exports. -/
theorem gathers_inheritedFrom (hacyclic : m.IsAcyclic) (depth : Nat) (htrail : m.Trail path package bases)
    (hdepth : m.exportCount < path.length + depth) (known : List (String × List String)) :
    m.Gathers package bases known (m.inheritedFrom depth package bases known) := by
  induction depth generalizing path package bases known with
  | zero =>
    have hlength := htrail.length_le
    omega
  | succ depth ih =>
    -- base by base, with the same depth for each
    have hbases : ∀ rest ⊆ bases, ∀ known,
        m.Gathers package rest known (m.inheritedFrom (depth + 1) package rest known) := by
      intro rest
      induction rest with
      | nil => exact fun _ known => .nil package known
      | cons base rest ihrest =>
        intro hsub known
        obtain ⟨hbase, hrest⟩ := List.cons_subset.mp hsub
        cases hfound : m.baseInterface? package base with
        | none =>
          rw [inheritedFrom_cons_none hfound]
          exact .skip hfound (ihrest hrest known)
        | some found =>
          obtain ⟨file, name, d⟩ := found
          have hdown := htrail.down hacyclic hbase (isBase_of_baseInterface? hfound)
          rw [inheritedFrom_cons_some hfound]
          exact .base hfound (ih hdown (by rw [List.length_cons]; omega) known) (ihrest hrest _)
    exact hbases bases (List.Subset.refl _) known

/-! ## What is gathered -/

/-- What a gathered list is like: no name twice, interfaces only, each behind those that it inherits from. -/
structure Collected (m : Manager) (out : List (String × List String)) : Prop where
  nodup : (out.map Prod.fst).Nodup
  entries : ∀ entry ∈ out, ∃ a, m.Exports a ∧ a.HasFields ∧ entry = a.entry
  ordered : ∀ a b, m.Exports a → a.fullName ∈ out.map Prod.fst → TransGen m.Inherits a b → b.HasFields →
    Cpp.Before (out.map Prod.fst) b.fullName a.fullName

theorem collected_nil (m : Manager) : m.Collected [] where
  nodup := .nil
  entries := List.forall_mem_nil _
  ordered _ _ _ hmem := absurd hmem List.not_mem_nil

/-- An interface that is listed by its full name is listed with its fields. -/
theorem Collected.entry_mem (hm : Regular m) (h : m.Collected out) (hb : m.Exports b)
    (hmem : b.fullName ∈ out.map Prod.fst) : b.entry ∈ out := by
  obtain ⟨entry, hentry, hname⟩ := List.mem_map.mp hmem
  obtain ⟨a, ha, -, rfl⟩ := h.entries entry hentry
  obtain rfl := hm.eq_of_fullName ha hb hname
  exact hentry

/-- What an interface inherits from is listed if the interface is. -/
theorem Collected.mem_of_inherits (h : m.Collected out) (ha : m.Exports a) (hmem : a.fullName ∈ out.map Prod.fst)
    (hb : TransGen m.Inherits a b) (hfields : b.HasFields) : b.fullName ∈ out.map Prod.fst := by
  obtain ⟨before, after, hsplit⟩ := List.append_of_mem hmem
  rw [hsplit]
  exact List.mem_append_left _ (h.ordered a b ha hmem hb hfields before after hsplit)

theorem any_fst_eq {full : String} : out.any (·.1 == full) = true ↔ full ∈ out.map Prod.fst := by
  simp [List.any_eq_true, List.mem_map]

theorem addFields_of_new (hfields : b.HasFields) (hnew : b.fullName ∉ out.map Prod.fst) :
    addFields b.fullName (b.decl.channelNames.map ("_" ++ ·)) out = out ++ [b.entry] := by
  refine if_neg ?_
  rw [Bool.or_eq_true, any_fst_eq, List.isEmpty_iff, List.map_eq_nil_iff]
  rintro (hnone | hknown)
  · exact hfields hnone
  · exact hnew hknown

theorem addFields_of_known (h : b.HasFields → b.fullName ∈ out.map Prod.fst) :
    addFields b.fullName (b.decl.channelNames.map ("_" ++ ·)) out = out := by
  refine if_pos ?_
  rw [Bool.or_eq_true, any_fst_eq, List.isEmpty_iff, List.map_eq_nil_iff]
  exact or_iff_not_imp_left.mpr h

/-- An interface is added behind all that it inherits from. -/
theorem Collected.add (hm : Regular m) (h : m.Collected out) (hb : m.Exports b)
    (habove : ∀ a, TransGen m.Inherits b a → a.HasFields → a.entry ∈ out) :
    m.Collected (addFields b.fullName (b.decl.channelNames.map ("_" ++ ·)) out) ∧
      ∀ entry, entry ∈ addFields b.fullName (b.decl.channelNames.map ("_" ++ ·)) out ↔
        entry ∈ out ∨ b.HasFields ∧ entry = b.entry := by
  by_cases hnew : b.HasFields ∧ b.fullName ∉ out.map Prod.fst
  · obtain ⟨hfields, hnew⟩ := hnew
    rw [addFields_of_new hfields hnew]
    have hnames : (out ++ [b.entry]).map Prod.fst = out.map Prod.fst ++ [b.fullName] := List.map_append
    refine ⟨⟨?_, ?_, ?_⟩, fun entry => ?_⟩
    · rw [hnames]
      exact Cpp.nodup_snoc h.nodup hnew
    · intro entry hentry
      rcases List.mem_append.mp hentry with hentry | hentry
      · exact h.entries entry hentry
      · exact ⟨b, hb, hfields, List.mem_singleton.mp hentry⟩
    · intro a a' ha hmem hinherits hfields'
      rw [hnames] at hmem ⊢
      rcases List.mem_append.mp hmem with hmem | hmem
      · exact Cpp.before_snoc (h.ordered a a' ha hmem hinherits hfields') (h.mem_of_inherits ha hmem hinherits hfields')
      · obtain rfl := hm.eq_of_fullName ha hb (List.mem_singleton.mp hmem)
        exact Cpp.before_snoc_self (List.mem_map_of_mem (habove a' hinherits hfields')) hnew
    · rw [List.mem_append, List.mem_singleton, and_iff_right hfields]
  · have hknown : b.HasFields → b.fullName ∈ out.map Prod.fst := by
      intro hfields
      by_contra hnot
      exact hnew ⟨hfields, hnot⟩
    rw [addFields_of_known hknown]
    refine ⟨h, fun entry => ⟨.inl, ?_⟩⟩
    rintro (hentry | ⟨hfields, rfl⟩)
    · exact hentry
    · exact h.entry_mem hm hb (hknown hfields)

/-- An interface that some bases lead to. -/
def Above (m : Manager) (package : String) (bases : List String) (a : Declared) : Prop :=
  ∃ base ∈ bases, ∃ b, m.IsBase package base b ∧ ReflTransGen m.Inherits b a

theorem above_inherits : m.Above a.package a.decl.inherits b ↔ TransGen m.Inherits a b := by
  rw [TransGen.head'_iff]
  constructor
  · rintro ⟨base, hbase, c, hc, hrest⟩
    exact ⟨c, ⟨base, hbase, hc⟩, hrest⟩
  · rintro ⟨c, ⟨base, hbase, hc⟩, hrest⟩
    exact ⟨base, hbase, c, hc, hrest⟩

theorem above_cons_none (h : m.baseInterface? package base = none) :
    m.Above package (base :: bases) a ↔ m.Above package bases a := by
  simp [Above, not_isBase_of_baseInterface? h]

theorem above_cons_some (h : m.baseInterface? package base = some (file, name, d)) :
    m.Above package (base :: bases) a ↔
      (a = ⟨file.package, d⟩ ∨ m.Above file.package d.inherits a) ∨ m.Above package bases a := by
  have hdown : a = ⟨file.package, d⟩ ∨ m.Above file.package d.inherits a ↔
      ReflTransGen m.Inherits ⟨file.package, d⟩ a := by
    rw [reflTransGen_iff_eq_or_transGen, ← above_inherits]
  rw [hdown]
  constructor
  · rintro ⟨base', hbase', b, hb, hrest⟩
    rcases List.mem_cons.mp hbase' with rfl | hbase'
    · exact .inl (isBase_unique h hb ▸ hrest)
    · exact .inr ⟨base', hbase', b, hb, hrest⟩
  · rintro (hrest | ⟨base', hbase', b, hb, hrest⟩)
    · exact ⟨base, List.mem_cons_self, _, isBase_of_baseInterface? h, hrest⟩
    · exact ⟨base', List.mem_cons_of_mem _ hbase', b, hb, hrest⟩

/-- What some bases lead to is gathered behind what is known, and nothing else. -/
theorem Gathers.collected (hm : Regular m) (h : m.Gathers package bases known out) (hknown : m.Collected known) :
    m.Collected out ∧
      ∀ entry, entry ∈ out ↔ entry ∈ known ∨ ∃ a, m.Above package bases a ∧ a.HasFields ∧ entry = a.entry := by
  induction h with
  | nil package known => exact ⟨hknown, fun entry => by simp [Above]⟩
  | skip hfound _ ih =>
    simp only [above_cons_none hfound]
    exact ih hknown
  | @base package base name bases file d known inner out hfound _ _ ihinner ihout =>
    obtain ⟨hinner, hmem⟩ := ihinner hknown
    have hexports := hm.exports_of_isBase (isBase_of_baseInterface? hfound)
    obtain ⟨hadded, hmem'⟩ := hinner.add hm hexports fun a ha hfields =>
      (hmem _).mpr (.inr ⟨a, above_inherits.mpr ha, hfields, rfl⟩)
    rw [hm.fullName_of_baseInterface? hfound] at ihout
    obtain ⟨hout, hmem''⟩ := ihout hadded
    refine ⟨hout, fun entry => ?_⟩
    rw [hmem'', hmem', hmem]
    simp only [above_cons_some hfound, or_and_right, exists_or, exists_eq_left, or_assoc]
    exact or_congr_right or_left_comm

end Manager

/-! ## Constructors -/

namespace Cpp.Scope

variable {c : Scope} {d : Interface Mark} {steps : List Step}

theorem map_snd_channels {template : String} {ms : List (Channel Mark)} {fields : List (String × String)}
    (h : c.channels template ms = .ok fields) : fields.map Prod.snd = ms.map (·.name) := by
  have hall := mapM_eq_ok_iff.mp h
  clear h
  induction hall with
  | nil => rfl
  | cons hfirst _ ih =>
    obtain ⟨types, -, heq⟩ := bind_eq_ok_iff.mp hfirst
    cases heq
    rw [List.map_cons, List.map_cons, ih]

/-- The class of an interface with fields has a constructor with a parameter for each signal and then for each
property. -/
theorem shown_constructor (h : c.syncClass d = .ok steps) (hfields : d.channelNames ≠ []) :
    ∃ signals properties, c.channels "qi::Signal" d.signals = .ok signals ∧
      c.channels "qi::Property" d.properties = .ok properties ∧
      (signals ++ properties).map Prod.snd = d.channelNames ∧
      Step.Shown (d.name ++ "(" ++
        commaList ((signals ++ properties).map fun field => field.1 ++ "& " ++ field.2) ++ ")") steps := by
  obtain ⟨signals, properties, methods, hsignals, hproperties, -, rfl⟩ := syncClass_eq_ok h
  have hnames : (signals ++ properties).map Prod.snd = d.channelNames := by
    rw [List.map_append, map_snd_channels hsignals, map_snd_channels hproperties, ← List.map_append]
    rfl
  have hsome : ¬(signals ++ properties).isEmpty = true := by
    intro hempty
    rw [List.isEmpty_iff.mp hempty] at hnames
    exact hfields hnames.symm
  refine ⟨signals, properties, hsignals, hproperties, hnames, Step.Shown.scope ?_ (scope_mem_classBody _ _)⟩
  refine .of_line (.refl _) ?_
  rw [constructor, if_neg hsome]
  exact List.mem_append_left _ (List.mem_append_left _ (List.mem_append_left _ List.mem_cons_self))

end Cpp.Scope

namespace Manager

variable {m : Manager}

/-- Take any manager that operations lead to, in which no interface inherits from itself, and any interface. What it
inherits from is gathered to the end: just those interfaces with signals or properties that it inherits from through
exported interfaces, no full name twice, each interface behind those that it inherits from itself, and each with the
names of its signals and then of its properties. The constructor in the header of the interface has its parameters in
that order. -/
theorem inheritedFields_exact {allowed : Manager → Operation → Prop} (h : Leads allowed empty m)
    (hacyclic : m.IsAcyclic) (package : String) (d : Interface Mark) :
    let fields := m.inheritedFields package d
    m.Gathers package d.inherits [] fields ∧
    (fields.map Prod.fst).Nodup ∧
    (∀ full names, (full, names) ∈ fields ↔ ∃ a, TransGen m.Inherits ⟨package, d⟩ a ∧ a.decl.channelNames ≠ [] ∧
      full = a.fullName ∧ names = a.decl.channelNames.map ("_" ++ ·)) ∧
    (∀ a b, TransGen m.Inherits ⟨package, d⟩ a → TransGen m.Inherits a b → b.decl.channelNames ≠ [] →
      Cpp.Before (fields.map Prod.fst) b.fullName a.fullName) ∧
    ∀ a, TransGen m.Inherits ⟨package, d⟩ a → a.decl.channelNames ≠ [] →
      ∃ e, m.findExport a.package a.decl.name = some e ∧ e.node = .interface a.decl ∧
        ∀ width reports output reports', generate .cppInterface m e.file width reports = .ok output reports' →
          let c : Cpp.Scope := ⟨.cppInterface, m, e.file⟩
          ∃ signals properties, c.channels "qi::Signal" a.decl.signals = .ok signals ∧
            c.channels "qi::Property" a.decl.properties = .ok properties ∧
            (signals ++ properties).map Prod.snd = a.decl.channelNames ∧
            Within (a.decl.name ++ "(" ++
              commaList ((signals ++ properties).map fun field => field.1 ++ "& " ++ field.2) ++ ")") output := by
  intro fields
  have hm := h.regular
  have htrail : m.Trail [] package d.inherits := ⟨.nil, List.nil_subset _, nofun⟩
  have hgathers : m.Gathers package d.inherits [] fields :=
    gathers_inheritedFrom hacyclic (m.exportCount + 1) htrail (by simp) []
  obtain ⟨hcollected, hmem⟩ := hgathers.collected hm (collected_nil m)
  have hexports (a : Declared) (ha : TransGen m.Inherits ⟨package, d⟩ a) : m.Exports a := by
    obtain ⟨_, -, base, -, hbase⟩ := TransGen.tail'_iff.mp ha
    exact hm.exports_of_isBase hbase
  refine ⟨hgathers, hcollected.nodup, fun full names => ?_, fun a b ha hb hfields => ?_, fun a ha hfields => ?_⟩
  · rw [hmem]
    simp only [List.not_mem_nil, false_or, above_inherits (a := ⟨package, d⟩), Declared.entry, Prod.mk.injEq]
    rfl
  · intro before after hsplit
    have hlisted : a.fullName ∈ fields.map Prod.fst := by simp [hsplit]
    exact hcollected.ordered a b (hexports a ha) hlisted hb hfields before after hsplit
  · obtain ⟨e, he, hnode⟩ := hexports a ha
    refine ⟨e, he, hnode, fun width reports output reports' hgenerate => ?_⟩
    have hroot := (hm.interface_of_findExport he hnode).2.2.2
    obtain ⟨steps, hheader, rfl⟩ := exists_header_of_generate hgenerate
    obtain ⟨item, hitem, hsub⟩ := Cpp.Scope.exists_headerItem hheader hroot
    obtain ⟨sync, hsync, hsub'⟩ := Cpp.Scope.exists_syncClass hitem
    obtain ⟨signals, properties, hsignals, hproperties, hnames, hshown⟩ := Cpp.Scope.shown_constructor hsync hfields
    exact ⟨signals, properties, hsignals, hproperties, hnames,
      ((hshown.mono hsub').mono hsub).within_render width⟩

/-! ## A diamond -/

/-- What the bases of an interface mean. -/
def basesOf (m : Manager) (a : Declared) : List Declared :=
  a.decl.inherits.filterMap fun base => (m.baseInterface? a.package base).map fun found => ⟨found.1.package, found.2.2⟩

theorem mem_basesOf_of_inherits {a b : Declared} (h : m.Inherits a b) : b ∈ m.basesOf a := by
  obtain ⟨base, hbase, e, he, hnode, hpackage⟩ := h
  refine List.mem_filterMap.mpr ⟨base, hbase, ?_⟩
  rw [baseInterface?_eq_some.mpr ⟨e, he, hnode, rfl, rfl⟩, Option.map_some, hpackage]

/-- Exported interfaces that rank above their bases are in no circle. -/
theorem isAcyclic_of_rank (rank : Declared → Nat) (h : ∀ a ∈ m.declared, ∀ b ∈ m.basesOf a, rank b < rank a) :
    m.IsAcyclic := by
  have hdeclared {a b : Declared} (hab : m.Inherits a b) : b ∈ m.declared := by
    obtain ⟨base, -, hbase⟩ := hab
    exact mem_declared_of_isBase hbase
  have hlower {a b : Declared} (ha : a ∈ m.declared) (hab : TransGen m.Inherits a b) : rank b < rank a := by
    induction hab with
    | single hab => exact h _ ha _ (mem_basesOf_of_inherits hab)
    | tail hab hbc ih =>
      obtain ⟨_, -, hlast⟩ := TransGen.tail'_iff.mp hab
      exact (h _ (hdeclared hlast) _ (mem_basesOf_of_inherits hbc)).trans ih
  intro a ha
  obtain ⟨_, -, hlast⟩ := TransGen.tail'_iff.mp ha
  exact Nat.lt_irrefl _ (hlower (hdeclared hlast) ha)

end Manager

/-- A disk with an interface that inherits from another by two ways, one of them through another package. -/
def Disk.diamond : Disk :=
  ⟨.directory [("lib", .directory [
    ("a", .directory [("x.qi", .file (some ("package a\nfrom b import Wide\ninterface Top\n prop level(int)\nend\n" ++
      "interface Left(Top)\nend\ninterface Robot(Left, b.Wide)\nend\n")))]),
    ("b", .directory [("y.qi", .file (some
      "package b\ninterface Wide(a.Top)\n prop size(int)\n emit seen()\nend\n"))])])], []⟩

theorem Disk.wellNamed_diamond : Disk.diamond.root.WellNamed := by
  simp [Disk.diamond]

namespace Manager

open Managed

/-- What is inherited by both ways is listed once, and first; what declares no field of its own is not listed. -/
theorem inheritedFields_exact_diamond :
    ∃ m f d, Leads (fun _ _ => True) empty m ∧ m.IsAcyclic ∧ f ∈ m.packageFiles "a" ∧ d ∈ f.ast.interfaces ∧
      m.inheritedFields f.package d = [("::a::Top", ["_level"]), ("::b::Wide", ["_seen", "_size"])] ∧
      m.Gathers f.package d.inherits [] (m.inheritedFields f.package d) ∧
      (∃ top, TransGen m.Inherits ⟨f.package, d⟩ top ∧ top.fullName = "::a::Top") ∧
      ∃ wide, TransGen m.Inherits ⟨f.package, d⟩ wide ∧ wide.fullName = "::b::Wide" := by
  have hcheck : succeedsWith (resolvePackage .diamond "a") ((Operation.addInclude "/lib").after .diamond empty)
      (fun _ m =>
        (m.declared.all fun a => (m.basesOf a).all fun b => decide (b.decl.name.length < a.decl.name.length)) &&
        (m.packageFiles "a").any fun f => f.ast.interfaces.any fun d => decide (m.inheritedFields f.package d =
          [("::a::Top", ["_level"]), ("::b::Wide", ["_seen", "_size"])])) = true := by decide +kernel
  obtain ⟨_, m, hrun, htest⟩ := exists_of_succeedsWith hcheck
  simp only [Bool.and_eq_true, List.all_eq_true, List.any_eq_true, decide_eq_true_eq] at htest
  obtain ⟨hranked, f, hf, d, hd, hfields⟩ := htest
  have hafter : (Operation.resolvePackage "a").after .diamond
      ((Operation.addInclude "/lib").after .diamond empty) = m := by
    rw [Operation.after, Operation.run, hrun]
  have hleads : Leads (fun _ _ => True) empty m :=
    hafter ▸ .step _ _ (.step _ _ .refl Disk.wellNamed_diamond trivial) Disk.wellNamed_diamond trivial
  have hacyclic := isAcyclic_of_rank (fun a => a.decl.name.length) hranked
  obtain ⟨hgathers, -, hmem, -⟩ := inheritedFields_exact hleads hacyclic f.package d
  rw [hfields] at hmem
  obtain ⟨top, htop, -, htopName, -⟩ := (hmem "::a::Top" ["_level"]).mp (by simp)
  obtain ⟨wide, hwide, -, hwideName, -⟩ := (hmem "::b::Wide" ["_seen", "_size"]).mp (by simp)
  exact ⟨m, f, d, hleads, hacyclic, hf, hd, hfields, hgathers, ⟨top, htop, htopName.symm⟩, wide, hwide, hwideName.symm⟩

end Manager
end QiIdl
