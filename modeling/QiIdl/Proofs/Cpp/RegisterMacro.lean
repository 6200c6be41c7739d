import QiIdl.Proofs.Cpp.Supported
import QiIdl.Proofs.Cpp.Unbroken

/-!
# Registration macros

A line that ends in a backslash goes on in the next one. In the registration macro of an interface every line but the
last goes on, and no text that is put into a line breaks it, whatever the documentation says and however names and types
are spelled. So the macro is one logical line, from its `#define` to its last line (`registration_one_logical_line`).

What the macro says follows the interface: a function for each method, through which the method is called, then a block
for each method that advertises it, and a line for each base, signal and property.
-/

namespace QiIdl

open Text

/-- The brief of a documentation text, if it is no wrong text. -/
def Doc.briefOf? (doc : Option String) : Option String := doc.bind fun text => (Doc.parse text).toOption.bind (·.brief)

theorem Generate.brief_of_readDoc {location : Location} {text : Option String} {doc : Option Doc}
    {reports reports' : List Diagnostic} (h : ofReporting (readDoc location text) reports = .ok doc reports') :
    doc.bind (·.brief) = Doc.briefOf? text := by
  cases text with
  | none =>
    cases h
    rfl
  | some text =>
    unfold readDoc at h
    cases hparse : Doc.parse text with
    | error e =>
      simp only [hparse] at h
      cases h
      simp [Doc.briefOf?, hparse, Except.toOption]
    | ok d =>
      simp only [hparse] at h
      cases h
      simp [Doc.briefOf?, hparse, Except.toOption]

namespace Cpp

variable {f : Fn Mark} {lines : List String}

/-! ## What a macro is made of -/

/-- The function of a macro through which a method is called. -/
def Bounces (c : Scope) (d : Interface Mark) (f : Fn Mark) (lines : List String) : Prop :=
  ∃ m, c.method f = .ok m ∧ lines =
    [s!"static ::qi::Future< {m.ret} > {d.name}{f.name}({c.fullName d}* obj" ++ trailing m.params ++ ") \x7b",
      s!"  return static_cast<{traits (c.fullName d)}::SyncType*>(obj)->async().{f.name}({m.names});",
      "\x7d"]

/-- A line of a macro that hands on documentation, all of it in quotes. -/
def Tells (line : String) : Prop :=
  (∃ name text, line = s!"    mmb.appendParameter({quote name}, {quote text});") ∨
    (∃ text, line = s!"    mmb.setReturnDescription({quote text});") ∨
    ∃ text, line = s!"    mmb.setDescription({quote text});"

/-- The block of a macro that advertises a method, with its documentation. -/
def Advertises (c : Scope) (d : Interface Mark) (f : Fn Mark) (lines : List String) : Prop :=
  ∃ m docs, c.method f = .ok m ∧ (∀ line ∈ docs, Tells line) ∧ lines =
    ["  \x7b", "    qi::MetaMethodBuilder mmb;", s!"    mmb.setName(\"{f.name}\");"] ++ docs ++
      [s!"    const auto callType = std::is_base_of<qi::Actor, {implementation} >::value"
          ++ " ? qi::MetaCallType_Direct : qi::MetaCallType_Auto;",
        s!"    builder.advertiseMethod(mmb, static_cast<::qi::Future< {m.ret} > (*)({c.fullName d}*"
          ++ trailing m.types ++ s!")>(&{d.name}{f.name}), callType);",
        "  \x7d"]

/-- The lines of a registration macro: those that go on and the last, with what is said before the macro. -/
structure MacroLines where
  heading : List String
  body : List String
  last : String

/-- All the lines, and an empty one behind them. -/
def MacroLines.all (r : MacroLines) : List String := r.heading ++ r.body ++ [r.last, ""]

/-- The lines register an interface. -/
structure MacroLines.Registers (r : MacroLines) (c : Scope) (d : Interface Mark) : Prop where
  heading : r.heading = (Doc.briefOf? d.doc).toList.flatMap fun brief => physicalLines ("// " ++ brief)
  first : r.body.head? = some (s!"#define REGISTER_{uppercase d.name}(impl__)" ++ " \\")
  continued : ∀ line ∈ r.body, " \\".toList <:+ line.toList
  last : r.last = s!"static int myinittype{d.name} = initType{d.name}();"
  ended : r.last.toList.getLast? ≠ some '\\'
  parts : ∃ bounces blocks, List.Forall₂ (Bounces c d) d.methods bounces ∧
    List.Forall₂ (Advertises c d) d.methods blocks ∧
    r.body = (macroStart d.name (c.fullName d) ++ bounces.flatten
      ++ [s!"static int initType{d.name}() \x7b", s!"  qi::ObjectTypeBuilder< {c.fullName d} > builder;"]
      ++ d.inherits.map (fun base => s!"  builder.inherits< {qualifiedBase c.file.package base} >();")
      ++ blocks.flatten
      ++ d.signals.map (fun s => s!"  builder.advertiseSignal(\"{s.name}\", &{c.fullName d}::{s.name});")
      ++ d.properties.map (fun p => s!"  builder.advertiseProperty(\"{p.name}\", &{c.fullName d}::{p.name});")
      ++ ["  builder.registerType();", "  return 42;", "\x7d"]).map (· ++ " \\")

/-! ## Lines without line feeds -/

theorem unbroken_traits {full : String} (hfull : Unbroken full) : Unbroken (traits full) :=
  ((unbroken_ofList (by decide)).append hfull).append (unbroken_ofList (by decide))

theorem unbroken_macroStart {name full : String} (hname : Unbroken name) (hfull : Unbroken full) :
    ∀ line ∈ macroStart name full, Unbroken line := by
  have hupper := unbroken_uppercase hname
  have htraits := unbroken_traits hfull
  simp only [macroStart, implementation, List.forall_mem_cons, unbroken_append, toString, hupper, htraits, hfull, and_true]
  and_intros
  all_goals first | exact List.forall_mem_nil _ | exact unbroken_ofList (by decide)

theorem Tells.unbroken {line : String} (h : Tells line) : Unbroken line := by
  rcases h with ⟨name, text, rfl⟩ | ⟨text, rfl⟩ | ⟨text, rfl⟩
  all_goals
    simp only [unbroken_append, toString, unbroken_quote, and_true]
    and_intros
    all_goals exact unbroken_ofList (by decide)

theorem tells_docMacroLines (doc : Doc) : ∀ line ∈ docMacroLines doc, Tells line := by
  intro line hline
  rcases List.mem_append.mp hline with hline | hline
  · rcases List.mem_append.mp hline with hline | hline
    · obtain ⟨⟨name, text⟩, -, rfl⟩ := List.mem_map.mp hline
      exact .inl ⟨name, text, rfl⟩
    · obtain ⟨text, -, rfl⟩ := List.mem_map.mp hline
      exact .inr (.inl ⟨text, rfl⟩)
  · obtain ⟨text, -, rfl⟩ := List.mem_map.mp hline
    exact .inr (.inr ⟨text, rfl⟩)

theorem Scope.name_of_method {c : Scope} {m : Scope.Method} (h : c.method f = .ok m) : m.name = f.name := by
  obtain ⟨_, -, h⟩ := bind_eq_ok_iff.mp h
  obtain ⟨_, -, h⟩ := bind_eq_ok_iff.mp h
  obtain ⟨_, -, h⟩ := bind_eq_ok_iff.mp h
  obtain ⟨_, -, h⟩ := bind_eq_ok_iff.mp h
  cases h
  rfl

/-- What is known of an interface of a file that was read, and of the references in the file. -/
structure Scope.Readable (c : Scope) (d : Interface Mark) : Prop where
  references : c.NamesUnbroken
  package : IsDotted c.file.package
  sound : (Node.interface d).tree.Every Node.Sound

namespace Scope.Readable

variable {c : Scope} {d : Interface Mark}

theorem name (h : c.Readable d) : Unbroken d.name := (Node.every_interface.mp h.sound).1.1.unbroken

theorem fullName (h : c.Readable d) : Unbroken (c.fullName d) := unbroken_qualified h.package h.name

theorem member (h : c.Readable d) {member : Member Mark} (hmember : member ∈ d.members) : member.node.Sound := by
  have hsound := ((Node.every_interface.mp h.sound).2 member hmember).label
  cases member with
  | fn f => rwa [Member.tree, Fn.tree, Tree.label] at hsound
  | emit m => rwa [Member.tree, Tree.label] at hsound
  | prop m => rwa [Member.tree, Tree.label] at hsound

theorem method (h : c.Readable d) (hf : f ∈ d.methods) {m : Method} (hm : c.method f = .ok m) : m.Unbroken := by
  obtain ⟨member, hmember, heq⟩ := List.mem_filterMap.mp hf
  cases member <;> cases heq
  exact unbroken_method h.references (h.member hmember) hm

theorem signal (h : c.Readable d) {s : Channel Mark} (hs : s ∈ d.signals) : Unbroken s.name := by
  obtain ⟨member, hmember, heq⟩ := List.mem_filterMap.mp hs
  cases member <;> cases heq
  exact (h.member hmember).1.unbroken

theorem property (h : c.Readable d) {p : Channel Mark} (hp : p ∈ d.properties) : Unbroken p.name := by
  obtain ⟨member, hmember, heq⟩ := List.mem_filterMap.mp hp
  cases member <;> cases heq
  exact (h.member hmember).1.unbroken

theorem base (h : c.Readable d) {base : String} (hbase : base ∈ d.inherits) :
    Unbroken (qualifiedBase c.file.package base) :=
  unbroken_qualifiedBase h.package ((Node.every_interface.mp h.sound).1.2.1 base hbase)

theorem bounces (h : c.Readable d) (hf : f ∈ d.methods) (hlines : Bounces c d f lines) :
    ∀ line ∈ lines, Unbroken line := by
  obtain ⟨m, hm, rfl⟩ := hlines
  have hmethod := h.method hf hm
  have hname : Unbroken f.name := name_of_method hm ▸ hmethod.name
  have hparams := unbroken_trailing hmethod.params
  have htraits := unbroken_traits h.fullName
  simp only [List.forall_mem_cons, unbroken_append, toString, hmethod.ret, hmethod.names, h.name, h.fullName, hname,
    hparams, htraits, and_true]
  and_intros
  all_goals first | exact List.forall_mem_nil _ | exact unbroken_ofList (by decide)

theorem advertises (h : c.Readable d) (hf : f ∈ d.methods) (hlines : Advertises c d f lines) :
    ∀ line ∈ lines, Unbroken line := by
  obtain ⟨m, docs, hm, hdocs, rfl⟩ := hlines
  have hmethod := h.method hf hm
  have hname : Unbroken f.name := name_of_method hm ▸ hmethod.name
  have htypes := unbroken_trailing hmethod.types
  have htold : ∀ line ∈ docs, Unbroken line := fun line hline => (hdocs line hline).unbroken
  simp only [List.forall_mem_append, List.forall_mem_cons, unbroken_append, toString, implementation, hmethod.ret,
    h.name, h.fullName, hname, htypes, and_true]
  and_intros
  all_goals first | exact htold | exact List.forall_mem_nil _ | exact unbroken_ofList (by decide)

end Scope.Readable

/-! ## The parts of a macro -/

namespace Scope

variable {c : Scope} {d : Interface Mark} {steps : List Step} {reports reports' : List Diagnostic}

theorem forall₂_bounces {methods : List Method} (h : c.methods d = .ok methods) :
    List.Forall₂ (Bounces c d) d.methods (methods.map (bounceLines d.name (c.fullName d))) := by
  rw [List.forall₂_map_right_iff]
  refine (mapM_eq_ok_iff.mp h).imp fun f m hm => ⟨m, hm, ?_⟩
  rw [bounceLines, name_of_method hm]

theorem exists_blocks (h : c.advertised d (c.fullName d) reports = .ok lines reports') :
    ∃ blocks, lines = blocks.flatten ∧ List.Forall₂ (Advertises c d) d.methods blocks := by
  obtain ⟨blocks, _, hblocks, heq⟩ := bind_eq_ok.mp h
  cases heq
  refine ⟨blocks, rfl, (Generate.forall₂_of_mapM hblocks).imp ?_⟩
  rintro f block ⟨before, after, hblock⟩
  obtain ⟨m, _, hmade, hrest⟩ := bind_eq_ok.mp hblock
  obtain ⟨doc, _, -, heq⟩ := bind_eq_ok.mp hrest
  have hm := (Generate.ofExcept_eq_ok.mp hmade).1
  cases heq
  refine ⟨m, doc.toList.flatMap docMacroLines, hm, ?_, by rw [advertiseLines, name_of_method hm]⟩
  intro line hline
  obtain ⟨doc, -, hline⟩ := List.mem_flatMap.mp hline
  exact tells_docMacroLines doc line hline

theorem head?_macroStart (name full : String) (more : List String) :
    ((macroStart name full ++ more).map (· ++ " \\")).head? =
      some (s!"#define REGISTER_{uppercase name}(impl__)" ++ " \\") := by
  have hparens : ("(" : String) ++ (implementation ++ ")") = "(impl__)" := by decide
  have hline (text : String) : text ++ "(" ++ implementation ++ ")" = text ++ "(impl__)" := by
    rw [String.append_assoc, String.append_assoc, hparens]
  exact congrArg (fun line => some (line ++ " \\")) (hline _)

theorem getLast?_initLine (name : String) :
    s!"static int myinittype{name} = initType{name}();".toList.getLast? = some ';' := by
  have hsemicolon : "();".toList = ['(', ')', ';'] := by decide
  rw [String.toList_append, List.getLast?_append]
  exact congrArg (fun cs : List Char => cs.getLast?.or _) hsemicolon

theorem lines_briefs (width : Nat) (brief : Option String) :
    Step.lines width (brief.toList.map fun brief => .writeLine ("// " ++ brief)) =
      brief.toList.flatMap fun brief => physicalLines ("// " ++ brief) := by
  cases brief with
  | none => rfl
  | some brief => exact (Step.lines_singleton _).trans (List.flatMap_singleton _ _).symm

/-- No line of a macro is broken. -/
theorem Readable.body (h : c.Readable d) {bounces blocks : List (List String)}
    (hbounces : List.Forall₂ (Bounces c d) d.methods bounces)
    (hblocks : List.Forall₂ (Advertises c d) d.methods blocks) :
    ∀ line ∈ macroStart d.name (c.fullName d) ++ bounces.flatten ++
      initLines d (c.fullName d) (d.inherits.map (qualifiedBase c.file.package)) blocks.flatten, Unbroken line := by
  have hstart := unbroken_macroStart h.name h.fullName
  have hcalled : ∀ lines ∈ bounces, ∀ line ∈ lines, Unbroken line := by
    intro lines hlines
    obtain ⟨f, hf, hbounce⟩ := exists_of_forall₂ hbounces hlines
    exact h.bounces hf hbounce
  have hadvertised : ∀ lines ∈ blocks, ∀ line ∈ lines, Unbroken line := by
    intro lines hlines
    obtain ⟨f, hf, hblock⟩ := exists_of_forall₂ hblocks hlines
    exact h.advertises hf hblock
  have hbases : ∀ base ∈ d.inherits, Unbroken s!"  builder.inherits< {qualifiedBase c.file.package base} >();" := by
    intro base hbase
    exact ((unbroken_ofList (by decide)).append (h.base hbase)).append (unbroken_ofList (by decide))
  have hsignals : ∀ s ∈ d.signals, Unbroken s!"  builder.advertiseSignal(\"{s.name}\", &{c.fullName d}::{s.name});" := by
    intro s hs
    simp only [unbroken_append, toString, h.signal hs, h.fullName, and_true]
    and_intros
    all_goals exact unbroken_ofList (by decide)
  have hproperties : ∀ p ∈ d.properties,
      Unbroken s!"  builder.advertiseProperty(\"{p.name}\", &{c.fullName d}::{p.name});" := by
    intro p hp
    simp only [unbroken_append, toString, h.property hp, h.fullName, and_true]
    and_intros
    all_goals exact unbroken_ofList (by decide)
  simp only [initLines, List.forall_mem_append, List.forall_mem_map, List.forall_mem_flatten, List.forall_mem_cons]
  refine ⟨⟨hstart, hcalled⟩, ⟨⟨⟨⟨?_, hbases⟩, hadvertised⟩, hsignals⟩, hproperties⟩, ?_⟩
  · simp only [unbroken_append, toString, h.name, h.fullName, and_true]
    and_intros
    all_goals first | exact List.forall_mem_nil _ | exact unbroken_ofList (by decide)
  · and_intros
    all_goals first | exact List.forall_mem_nil _ | exact unbroken_ofList (by decide)

/-- All lines of a macro go on but the last, and none is broken. -/
theorem registers_of_registerMacro (h : c.Readable d) (hr : c.registerMacro d reports = .ok steps reports')
    (width : Nat) : ∃ r : MacroLines, Step.lines width steps = r.all ∧ r.Registers c d := by
  obtain ⟨doc, methods, advertised, before, after, hdoc, hmethods, hadvertised, rfl⟩ := registerMacro_eq_ok hr
  obtain ⟨blocks, rfl, hblocks⟩ := exists_blocks hadvertised
  have hbounces := forall₂_bounces hmethods
  have hbody := h.body hbounces hblocks
  rw [← List.flatMap_def] at hbody
  generalize hlines : macroStart d.name (c.fullName d) ++ methods.flatMap (bounceLines d.name (c.fullName d)) ++
    initLines d (c.fullName d) (d.inherits.map (qualifiedBase c.file.package)) blocks.flatten = lines at hbody ⊢
  have hcontinued : ∀ line ∈ lines.map (· ++ " \\"), Unbroken line := by
    intro line hline
    obtain ⟨text, htext, rfl⟩ := List.mem_map.mp hline
    exact (hbody text htext).append (unbroken_ofList (by decide))
  have hlast : Unbroken s!"static int myinittype{d.name} = initType{d.name}();" := by
    simp only [unbroken_append, toString, h.name, and_true]
    and_intros
    all_goals exact unbroken_ofList (by decide)
  rw [Generate.brief_of_readDoc hdoc]
  refine ⟨⟨(Doc.briefOf? d.doc).toList.flatMap fun brief => physicalLines ("// " ++ brief), lines.map (· ++ " \\"),
    s!"static int myinittype{d.name} = initType{d.name}();"⟩, ?_, rfl, ?_, ?_, rfl, ?_, ?_⟩
  · have hmap : lines.map (fun line => Step.writeLine (line ++ " \\")) = (lines.map (· ++ " \\")).map .writeLine :=
      (List.map_map ..).symm
    rw [Step.lines_append, Step.lines_append, lines_briefs, hmap, Step.lines_writeLine hcontinued, ← List.singleton_append,
      Step.lines_append, Step.lines_singleton, physicalLines_of_unbroken hlast]
    rfl
  · rw [← hlines, List.append_assoc]
    exact head?_macroStart ..
  · intro line hline
    obtain ⟨text, -, rfl⟩ := List.mem_map.mp hline
    rw [String.toList_append]
    exact List.suffix_append ..
  · rw [getLast?_initLine]
    decide
  · refine ⟨_, blocks, hbounces, hblocks, congrArg (List.map (· ++ " \\")) ?_⟩
    rw [← hlines, List.flatMap_def, initLines, List.map_map]
    simp only [List.append_assoc]
    rfl

/-- The lines of a file of adapters are those of the registration macros, with lines around them. -/
theorem exists_macroLines (hread : ∀ d ∈ c.interfaces, c.Readable d) (h : c.adapterFile reports = .ok steps reports')
    (width : Nat) :
    ∃ above macros below, physicalLines (Step.render width steps) = above ++ (macros.map MacroLines.all).flatten ++ below ∧
      List.Forall₂ (fun d r => r.Registers c d) c.interfaces macros := by
  obtain ⟨above, written, below, hlines, hall⟩ := physicalLines_adapterFile h width
  have hregisters : ∀ d ∈ c.interfaces, ∀ steps, (∃ before after, c.registerMacro d before = .ok steps after) →
      ∃ r : MacroLines, Step.lines width steps = r.all ∧ r.Registers c d := by
    rintro d hd steps ⟨before, after, hmacro⟩
    exact registers_of_registerMacro (hread d hd) hmacro width
  obtain ⟨macros, hmap, hmacros⟩ := exists_map_of_forall₂ hall hregisters
  rw [hmap] at hlines
  exact ⟨above, macros, below, hlines, hmacros⟩

end Scope

end Cpp

/-- The interfaces of a file that is known can be written line by line. -/
theorem Manager.Leads.readable {m : Manager} (h : Leads Operation.AsksKnown .empty m) {path : Path} {f : SourceFile}
    (hf : m.files.find? path = some f) (backend : Backend) {d : Interface Mark} (hd : d ∈ f.ast.interfaces) :
    (⟨backend, m, f⟩ : Cpp.Scope).Readable d := by
  have hcoherent := h.regular.coherent
  have hroot := Cpp.Scope.mem_interfaces (c := ⟨backend, m, f⟩) |>.mp hd
  exact ⟨fun id r hr => h.unbroken_of_resolution? hr, hcoherent.isDotted_package hf,
    hcoherent.every_sound hf hroot⟩

namespace Cpp

/-- In a file of adapters, the registration macro of each interface is one logical line: each of its lines but the last
ends in a backslash behind a blank, the last does not, and no documentation, name or type ends a line before. The macro
has a function and later a block for each method, in order, and a line for each base, signal and property. -/
theorem registration_one_logical_line {m : Manager} (h : Manager.Leads Operation.AsksKnown .empty m) {path : Path}
    {f : SourceFile} (hf : m.files.find? path = some f) {width : Nat} {output : String}
    {reports reports' : List Diagnostic} (houtput : generate .cppLocal m f width reports = .ok output reports') :
    ∃ above macros below, physicalLines output = above ++ (macros.map MacroLines.all).flatten ++ below ∧
      List.Forall₂ (fun d r => r.Registers ⟨.cppLocal, m, f⟩ d) f.ast.interfaces macros := by
  obtain ⟨steps, hsteps, rfl⟩ := Generate.render_eq_ok.mp houtput
  exact Scope.exists_macroLines (fun d hd => h.readable hf .cppLocal hd) hsteps width

end Cpp

/-- A disk with an interface whose method has documentation with quotes, and with a backslash at its end. -/
def Disk.aviary : Disk :=
  ⟨.directory [("lib", .directory [("a", .directory [("x.qi", .file (some
    ("package a\nstruct Word\nend\ninterface Animal\nend\ninterface Bird(Animal)\n" ++
      " ## Says \"x\" \\\\\n fn say(w Word)\n prop tame(bool)\nend\n")))])])], []⟩

theorem Disk.wellNamed_aviary : Disk.aviary.root.WellNamed := by
  simp [Disk.aviary]

namespace Cpp

theorem registration_one_logical_line_aviary :
    ∃ m f output reports, Manager.Leads Operation.AsksKnown .empty m ∧ m.files.find? (["lib", "a", "x.qi"] : Path) = some f ∧
      generate .cppLocal m f 2 [] = .ok output reports ∧ f.ast.interfaces.map (·.methods.length) = [0, 1] ∧
      ∃ above macros below, physicalLines output = above ++ (macros.map MacroLines.all).flatten ++ below ∧
        List.Forall₂ (fun d r => r.Registers ⟨.cppLocal, m, f⟩ d) f.ast.interfaces macros := by
  have hcheck : Managed.succeedsWith (Managed.resolvePackage .aviary "a")
      ((Operation.addInclude "/lib").after .aviary .empty) (fun _ m =>
        (m.files.find? (["lib", "a", "x.qi"] : Path)).any fun f => decide (f.ast.interfaces.map (·.methods.length) = [0, 1]) &&
          decide ((generate .cppLocal m f 2).Succeeds [])) = true := by decide +kernel
  obtain ⟨_, m, hrun, htest⟩ := Managed.exists_of_succeedsWith hcheck
  obtain ⟨f, hf, hmade⟩ := (Option.any_eq_true _ _).mp htest
  simp only [Bool.and_eq_true, decide_eq_true_eq] at hmade
  obtain ⟨hmethods, output, reports, houtput⟩ := hmade
  have hafter : (Operation.resolvePackage "a").after .aviary ((Operation.addInclude "/lib").after .aviary .empty) = m := by
    rw [Operation.after, Operation.run, hrun]
  have hleads : Manager.Leads Operation.AsksKnown .empty m :=
    hafter ▸ .step _ _ (.step _ _ .refl Disk.wellNamed_aviary trivial) Disk.wellNamed_aviary trivial
  exact ⟨m, f, output, reports, hleads, hf, houtput, hmethods, registration_one_logical_line hleads hf houtput⟩

end Cpp
end QiIdl
