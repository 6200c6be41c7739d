import QiIdl.Compile
import QiIdl.Proofs.Cpp.ByValue
import QiIdl.Proofs.Output.Rows

/-!
# Rows of C++ files

Headers, adapters and mocks are written in whole rows, part by part. So the lines of a file are the lines of its parts:
of a header, those of the nodes at the top of the file, with what opens and closes the file around them
(`physicalLines_header`); of adapters, those of the registration macros (`physicalLines_adapterFile`).
-/

namespace QiIdl

open Step Text

namespace Generate

variable {β γ : Type} {reports reports' : List Diagnostic}

theorem ofExcept_eq_ok {x : Except GenError β} {b : β} :
    ofExcept x reports = .ok b reports' ↔ x = .ok b ∧ reports' = reports := by
  cases x with
  | error e =>
    constructor
    · exact nofun
    · rintro ⟨heq, -⟩
      cases heq
  | ok b' =>
    constructor
    · intro h
      cases h
      exact ⟨rfl, rfl⟩
    · rintro ⟨heq, rfl⟩
      cases heq
      rfl

/-- Of some things that are all made, each is made, whatever was reported before. -/
theorem forall₂_of_mapM {f : β → Generate γ} {bs : List β} {cs : List γ} (h : bs.mapM f reports = .ok cs reports') :
    List.Forall₂ (fun b c => ∃ before after, f b before = .ok c after) bs cs := by
  induction bs generalizing cs reports with
  | nil =>
    rw [List.mapM_nil] at h
    cases h
    exact .nil
  | cons b bs ih =>
    rw [List.mapM_cons] at h
    obtain ⟨c, reports₁, hfirst, h⟩ := bind_eq_ok.mp h
    obtain ⟨cs', reports₂, hrest, h⟩ := bind_eq_ok.mp h
    cases h
    exact .cons ⟨reports, reports₁, hfirst⟩ (ih hrest)

theorem render_eq_ok {p : Generate (List Step)} {width : Nat} {output : String} :
    ((Step.render width ·) <$> p) reports = .ok output reports' ↔
      ∃ steps, p reports = .ok steps reports' ∧ output = Step.render width steps := by
  rw [← bind_pure_comp, bind_eq_ok]
  constructor
  · rintro ⟨steps, _, hsteps, heq⟩
    cases heq
    exact ⟨steps, hsteps, rfl⟩
  · rintro ⟨steps, hsteps, rfl⟩
    exact ⟨steps, reports', hsteps, rfl⟩

end Generate

namespace Cpp

theorem forall_of_made {β γ : Type} {R : β → γ → Prop} {P : γ → Prop} {bs : List β} {cs : List γ}
    (h : List.Forall₂ R bs cs) (hmade : ∀ b c, R b c → P c) : ∀ c ∈ cs, P c := by
  intro c hc
  obtain ⟨b, -, hR⟩ := exists_of_forall₂ h hc
  exact hmade b c hR

/-- What is made from some things in one way can be told, one by one, in another. -/
theorem exists_map_of_forall₂ {β γ δ ε : Type} {R : β → γ → Prop} {S : β → δ → Prop} {k : γ → ε} {g : δ → ε}
    {bs : List β} {cs : List γ} (h : List.Forall₂ R bs cs) (hstep : ∀ b ∈ bs, ∀ c, R b c → ∃ x, k c = g x ∧ S b x) :
    ∃ xs, cs.map k = xs.map g ∧ List.Forall₂ S bs xs := by
  induction h with
  | nil => exact ⟨[], rfl, .nil⟩
  | cons hfirst _ ih =>
    obtain ⟨hhead, htail⟩ := List.forall_mem_cons.mp hstep
    obtain ⟨x, hx, hsx⟩ := hhead _ hfirst
    obtain ⟨xs, hxs, hsxs⟩ := ih htail
    exact ⟨x :: xs, by rw [List.map_cons, List.map_cons, hx, hxs], .cons hsx hsxs⟩

/-! ## Parts that every file has -/

@[simp] theorem allWhole_banner : AllWhole banner := by simp [banner]

/-- Steps within a guard, behind the lines at the start of a file. -/
def guarded (start : List String) (guard : String) (body : List Step) : List Step :=
  (start ++ [s!"#ifndef {guard}", s!"#define {guard}"]).map .writeLine ++ body ++ [.writeLine s!"#endif // {guard}"]

@[simp] theorem allWhole_guarded {start : List String} {guard : String} {body : List Step} :
    AllWhole (guarded start guard body) ↔ AllWhole body := by
  simp [guarded]

theorem exists_lines_guarded (width : Nat) (start : List String) (guard : String) (body : List Step) :
    ∃ front back, lines width (guarded start guard body) = front ++ lines width body ++ back :=
  ⟨_, _, by rw [guarded, lines_append, lines_append]⟩

@[simp] theorem allWhole_openNamespaces (package : String) : AllWhole (openNamespaces package) := by
  simp [openNamespaces]

@[simp] theorem allWhole_closeNamespaces (package : String) : AllWhole (closeNamespaces package) :=
  allWhole_map.mpr fun _ _ => .line _

@[simp] theorem allWhole_initializers (entries : List String) : AllWhole (initializers entries) := by
  cases entries <;> simp [initializers]

namespace Scope

variable {c : Scope} {d : Interface Mark} {steps : List Step} {reports reports' : List Diagnostic}

@[simp] theorem allWhole_includeLines (own : Bool) : AllWhole (c.includeLines own) := by simp [includeLines]

/-! ## Headers -/

@[simp] theorem allWhole_forwardClasses : AllWhole c.forwardClasses := by
  unfold forwardClasses
  split <;> simp [forwardClass]

@[simp] theorem allWhole_constructor (name : String) (fields : List (String × String)) :
    AllWhole (constructor name fields) := by
  unfold constructor
  split <;> simp

theorem allWhole_syncClass (h : c.syncClass d = .ok steps) : AllWhole steps := by
  obtain ⟨signals, -, h⟩ := bind_eq_ok_iff.mp h
  obtain ⟨properties, -, h⟩ := bind_eq_ok_iff.mp h
  obtain ⟨methods, -, h⟩ := bind_eq_ok_iff.mp h
  cases h
  simp [classBody]

theorem allWhole_asyncClass (h : c.asyncClass d = .ok steps) : AllWhole steps := by
  obtain ⟨methods, -, h⟩ := bind_eq_ok_iff.mp h
  cases h
  simp [classBody]

theorem allWhole_dataBlock {heading : String} {body : List Step} (h : AllWhole body) :
    AllWhole (dataBlock heading body) := by
  simp [dataBlock, h]

theorem whole_fieldLine {f : Field Mark} {step : Step} (h : c.fieldLine f = .ok step) : step.Whole := by
  obtain ⟨type, -, h⟩ := bind_eq_ok_iff.mp h
  split at h
  · obtain ⟨value, -, h⟩ := bind_eq_ok_iff.mp h
    cases h
    exact .line _
  · cases h
    exact .line _

theorem whole_enumLine {item : EnumItem Mark} {step : Step} (h : c.enumLine item = .ok step) : step.Whole := by
  unfold enumLine at h
  split at h
  · obtain ⟨value, -, h⟩ := bind_eq_ok_iff.mp h
    cases h
    exact .line _
  · cases h

/-- A text that is made first becomes a row. -/
theorem allWhole_line {x : Except GenError String} (h : (x >>= fun line => pure [.writeLine line]) = .ok steps) :
    AllWhole steps := by
  obtain ⟨line, -, h⟩ := bind_eq_ok_iff.mp h
  cases h
  simp

theorem allWhole_headerItem {n : Node Mark} (h : c.headerItem n = .ok steps) : AllWhole steps := by
  unfold headerItem at h
  split at h
  · cases h
    simp
  · exact allWhole_line h
  · obtain ⟨sync, hsync, h⟩ := bind_eq_ok_iff.mp h
    obtain ⟨async, hasync, h⟩ := bind_eq_ok_iff.mp h
    cases h
    simp [allWhole_syncClass hsync, allWhole_asyncClass hasync]
  · exact allWhole_line h
  · obtain ⟨fields, hfields, h⟩ := bind_eq_ok_iff.mp h
    cases h
    exact allWhole_dataBlock (forall_of_made (mapM_eq_ok_iff.mp hfields) fun _ _ => whole_fieldLine)
  · exact allWhole_line h
  · obtain ⟨type, -, h⟩ := bind_eq_ok_iff.mp h
    cases h
    simp
  · obtain ⟨items, hitems, h⟩ := bind_eq_ok_iff.mp h
    cases h
    exact allWhole_dataBlock (forall_of_made (mapM_eq_ok_iff.mp hitems) fun _ _ => whole_enumLine)
  · split at h
    · cases h
    · cases h
      simp

/-- The lines of a header before its guard. -/
def headerStart : List String := ["/*", "** qiLang generated file. DO NOT EDIT", "*/", "#pragma once"]

/-- What stands within the guard of a header before the nodes at the top of the file. -/
def headerTop (c : Scope) : List Step :=
  [.newline] ++ c.includeLines false ++ [.newline] ++ openNamespaces c.file.package ++ c.forwardClasses

/-- What stands there behind them. -/
def headerBottom (c : Scope) : List Step := closeNamespaces c.file.package ++ [.newline]

/-- A header has a part for each node at the top of the file. -/
theorem header_eq_ok (h : c.header = .ok steps) :
    ∃ items, List.Forall₂ (fun n item => c.headerItem n = .ok item) c.file.ast.roots items ∧
      AllWhole (c.headerTop ++ items.flatten ++ c.headerBottom) ∧
      steps = guarded headerStart c.file.headerGuard (c.headerTop ++ items.flatten ++ c.headerBottom) := by
  obtain ⟨items, hitems, heq⟩ := bind_eq_ok_iff.mp h
  have hall := mapM_eq_ok_iff.mp hitems
  refine ⟨items, hall, ?_, ?_⟩
  · simpa [headerTop, headerBottom] using forall_of_made hall fun _ _ => allWhole_headerItem
  · cases heq
    simp [guarded, headerStart, headerTop, headerBottom, banner]

/-- The lines of a header are those of the nodes at the top of the file, with lines around them. -/
theorem physicalLines_header (h : c.header = .ok steps) (width : Nat) :
    ∃ above items below, List.Forall₂ (fun n item => c.headerItem n = .ok item) c.file.ast.roots items ∧
      physicalLines (Step.render width steps) = above ++ (items.map (Step.lines width)).flatten ++ below := by
  obtain ⟨items, hitems, hwhole, rfl⟩ := header_eq_ok h
  obtain ⟨front, back, hguarded⟩ := exists_lines_guarded width headerStart c.file.headerGuard
    (c.headerTop ++ items.flatten ++ c.headerBottom)
  refine ⟨front ++ lines width c.headerTop, items, lines width c.headerBottom ++ back ++ [""], hitems, ?_⟩
  rw [physicalLines_render (allWhole_guarded.mpr hwhole), hguarded, lines_append, lines_append, lines_flatten]
  simp only [List.append_assoc]

/-! ## Adapters -/

theorem allWhole_adapters (h : c.adapters d = .ok steps) : AllWhole steps := by
  obtain ⟨methods, -, h⟩ := bind_eq_ok_iff.mp h
  cases h
  simp [asyncAdapter, syncAdapter, asyncAdapterMethod, syncAdapterMethod]

/-- The lines of a registration macro: its body, in which every line goes on, and a line that ends it. -/
theorem registerMacro_eq_ok (h : c.registerMacro d reports = .ok steps reports') :
    ∃ brief methods advertised before after,
      Generate.ofReporting (readDoc (c.locate d.tag) d.doc) reports = .ok brief before ∧ c.methods d = .ok methods ∧
      c.advertised d (c.fullName d) before = .ok advertised after ∧
      steps = (brief.bind (·.brief)).toList.map (fun brief => .writeLine ("// " ++ brief))
        ++ (macroStart d.name (c.fullName d) ++ methods.flatMap (bounceLines d.name (c.fullName d))
          ++ initLines d (c.fullName d) (d.inherits.map (qualifiedBase c.file.package)) advertised).map
            (fun line => .writeLine (line ++ " \\"))
        ++ [.writeLine s!"static int myinittype{d.name} = initType{d.name}();", .newline] := by
  obtain ⟨brief, before, hbrief, hrest⟩ := bind_eq_ok.mp h
  obtain ⟨methods, _, hmade, hlast⟩ := bind_eq_ok.mp hrest
  obtain ⟨advertised, after, hadvertised, heq⟩ := bind_eq_ok.mp hlast
  obtain ⟨hmethods, rfl⟩ := Generate.ofExcept_eq_ok.mp hmade
  cases heq
  exact ⟨brief, methods, advertised, _, _, hbrief, hmethods, hadvertised, rfl⟩

theorem allWhole_registerMacro (h : c.registerMacro d reports = .ok steps reports') : AllWhole steps := by
  obtain ⟨_, _, _, _, _, -, -, -, rfl⟩ := registerMacro_eq_ok h
  simp

/-- In a file of adapters the registration macros of its interfaces follow each other. -/
theorem adapterFile_eq_ok (h : c.adapterFile reports = .ok steps reports') :
    ∃ above macros below, steps = above ++ macros.flatten ++ below ∧ AllWhole above ∧ AllWhole below ∧
      List.Forall₂ (fun d steps => ∃ before after, c.registerMacro d before = .ok steps after) c.interfaces macros := by
  obtain ⟨_, _, -, hrest⟩ := bind_eq_ok.mp h
  obtain ⟨adapters, _, hmade, hlast⟩ := bind_eq_ok.mp hrest
  obtain ⟨macros, _, hmacros, heq⟩ := bind_eq_ok.mp hlast
  obtain ⟨hadapters, rfl⟩ := Generate.ofExcept_eq_ok.mp hmade
  have hparts := forall_of_made (mapM_eq_ok_iff.mp hadapters) fun _ _ => allWhole_adapters
  cases heq
  refine ⟨_, macros, _, rfl, ?_, ?_, Generate.forall₂_of_mapM hmacros⟩
  · simpa using hparts
  · simp

/-- The lines of a file of adapters are those of the registration macros, with lines around them. -/
theorem physicalLines_adapterFile (h : c.adapterFile reports = .ok steps reports') (width : Nat) :
    ∃ above macros below,
      physicalLines (Step.render width steps) = above ++ (macros.map (Step.lines width)).flatten ++ below ∧
      List.Forall₂ (fun d steps => ∃ before after, c.registerMacro d before = .ok steps after) c.interfaces macros := by
  obtain ⟨above, macros, below, rfl, habove, hbelow, hall⟩ := adapterFile_eq_ok h
  have hmacros := forall_of_made hall fun _ _ ⟨_, _, hd⟩ => allWhole_registerMacro hd
  refine ⟨Step.lines width above, macros, Step.lines width below ++ [""], ?_, hall⟩
  rw [physicalLines_render (by simpa using ⟨habove, hmacros, hbelow⟩), lines_append, lines_append, lines_flatten,
    List.append_assoc]

/-! ## Mocks -/

theorem allWhole_mock (h : c.mock d = .ok steps) : AllWhole steps := by
  obtain ⟨methods, -, h⟩ := bind_eq_ok_iff.mp h
  obtain ⟨signals, -, h⟩ := bind_eq_ok_iff.mp h
  obtain ⟨properties, -, h⟩ := bind_eq_ok_iff.mp h
  cases h
  simp [mockRegistration, mockConstructor]

/-- The lines of a file of mocks before its guard. -/
def mockStart : List String := ["// QiLang-generated file. DO NOT EDIT.", "#pragma once"]

theorem mockFile_eq_ok (h : c.mockFile = .ok steps) :
    ∃ body, AllWhole body ∧ steps = guarded mockStart c.file.mockGuard body := by
  obtain ⟨_, -, hrest⟩ := bind_eq_ok_iff.mp h
  obtain ⟨mocks, hmocks, heq⟩ := bind_eq_ok_iff.mp hrest
  have hparts := forall_of_made (mapM_eq_ok_iff.mp hmocks) fun _ _ => allWhole_mock
  cases heq
  refine ⟨[.newline, .writeLine "#include <gmock/gmock.h>", .writeLine ("#include " ++ c.file.header), .newline]
    ++ (segments c.file.package ++ ["gmock"]).flatMap (fun n => [.writeLine s!"namespace {n}", .writeLine "\x7b"])
    ++ mocks.flatten ++ (segments c.file.package ++ ["gmock"]).reverse.map
      (fun n => .writeLine s!"\x7d // ends namespace {n}") ++ [.newline], ?_, ?_⟩
  · simpa [-List.map_reverse] using hparts
  · simp [guarded, mockStart]

end Scope
end Cpp
end QiIdl
