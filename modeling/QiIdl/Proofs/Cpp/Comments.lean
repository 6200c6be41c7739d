import QiIdl.Proofs.Cpp.RegisterMacro
import QiIdl.Proofs.Doc.Brief

/-!
# Comments in C++

A comment goes up to the end of its line, and C++ joins a line that ends in a backslash to the next one. Comments of a
file are copied to its header, and the brief of an interface to the line before its registration macro. Nothing is added
at the end of these lines and nothing is taken away, so the line is joined just if the comment, or the brief, is written
with a backslash at its end (`comments_splice_iff`). Then what follows the comment becomes a part of it.
-/

namespace QiIdl

open Text

/-- A line that is joined to the next one. -/
def Splices (line : String) : Prop := line.toList.getLast? = some '\\'

instance (line : String) : Decidable (Splices line) := inferInstanceAs (Decidable (_ = _))

theorem splices_comment {text : String} : Splices ("// " ++ text) ↔ Splices text := by
  have hmark : "// ".toList.getLast? = some ' ' := by decide
  rw [Splices, Splices, String.toList_append, List.getLast?_append, hmark]
  cases text.toList.getLast? with
  | none => decide
  | some c => rfl

theorem splices_readText {text : String} : Splices (DocParts.readText text) ↔ Splices text := by
  rw [Splices, Splices, DocParts.readText, String.toList_ofList, DocParts.getLast?_unescape]

/-- The text of a comment that stands by itself. -/
def Node.remark? {α : Type} : Node α → Option String
  | .comment _ text => some text
  | _ => none

theorem Node.isRemark_of_remark? {n : Node Mark} (hn : n.Sound) {text : String} (h : n.remark? = some text) :
    Lexeme.IsRemark text.toList := by
  cases n <;> cases h
  exact hn

/-- A remark is one line, if there is anything in it. -/
theorem Lexeme.IsRemark.lines_eq {text : List Char} (h : IsRemark text) :
    lines text = if text.isEmpty then [] else [text] := by
  rw [lines, pieces_of_not_mem h.feed, linesOfPieces]

namespace Cpp

/-- The lines of a comment in a header. -/
def commentLines (text : String) : List String := if text.toList.isEmpty then [] else ["// " ++ text]

theorem splices_iff_of_mem_commentLines {text line : String} (h : line ∈ commentLines text) :
    Splices line ↔ Splices text := by
  unfold commentLines at h
  split at h
  · cases h
  · rw [List.mem_singleton.mp h, splices_comment]

namespace Scope

variable {c : Scope} {width : Nat}

theorem lines_comment {n : Node Mark} (hn : n.Sound) {text : String} (htext : n.remark? = some text)
    {steps : List Step} (h : c.headerItem n = .ok steps) : Step.lines width steps = commentLines text := by
  have hremark := Node.isRemark_of_remark? hn htext
  cases n <;> cases htext
  cases h
  rw [hremark.lines_eq, commentLines]
  split
  · rfl
  · have hline : Unbroken ("// " ++ text) := (unbroken_ofList (by decide)).append hremark.feed
    rw [List.map_singleton, String.ofList_toList, Step.lines_singleton, physicalLines_of_unbroken hline]

/-- The lines of a header hold those of each comment in the file, with nothing between. -/
theorem exists_commentLines (hsound : ∀ n ∈ c.file.ast.roots, n.Sound) {steps : List Step} (h : c.header = .ok steps)
    (width : Nat) :
    ∃ above items below, physicalLines (Step.render width steps) = above ++ items.flatten ++ below ∧
      List.Forall₂ (fun n lines => ∀ text ∈ n.remark?, lines = commentLines text) c.file.ast.roots items := by
  obtain ⟨_, items, _, hitems, hlines⟩ := physicalLines_header h width
  have hcomments : ∀ n ∈ c.file.ast.roots, ∀ item, c.headerItem n = .ok item →
      ∃ lines, Step.lines width item = id lines ∧ ∀ text ∈ n.remark?, lines = commentLines text := by
    intro n hn item hitem
    exact ⟨_, rfl, fun text htext => lines_comment (hsound n hn) htext hitem⟩
  obtain ⟨parts, hmap, hparts⟩ := exists_map_of_forall₂ hitems hcomments
  rw [hmap, List.map_id] at hlines
  exact ⟨_, parts, _, hlines, hparts⟩

end Scope

/-- The line before a registration macro is joined to it just if the brief is written with a backslash at its end. -/
theorem MacroLines.Registers.heading_eq {r : MacroLines} {c : Scope} {d : Interface Mark} (h : r.Registers c d) :
    r.heading = (Doc.briefOf? d.doc).toList.map ("// " ++ ·) ∧
      ∀ line ∈ r.heading, (Splices line ↔ ∃ written ∈ d.doc.bind Doc.writtenBrief, Splices written) := by
  rw [h.heading]
  cases hbrief : Doc.briefOf? d.doc with
  | none => exact ⟨rfl, List.forall_mem_nil _⟩
  | some brief =>
    obtain ⟨text, hdoc, hread⟩ := Option.bind_eq_some_iff.mp hbrief
    obtain ⟨doc, hparse, hdocBrief⟩ := Option.bind_eq_some_iff.mp hread
    have hok : Doc.parse text = .ok doc := by
      cases hresult : Doc.parse text with
      | error e =>
        rw [hresult] at hparse
        cases hparse
      | ok d =>
        rw [hresult] at hparse
        cases hparse
        rfl
    rw [Doc.brief_eq_of_parse hok] at hdocBrief
    obtain ⟨written, hwritten, rfl⟩ := Option.map_eq_some_iff.mp hdocBrief
    have hline : Unbroken ("// " ++ DocParts.readText written) := by
      refine (unbroken_ofList (by decide)).append (unbroken_ofList fun hfeed => ?_)
      exact Doc.newline_not_mem_writtenBrief hwritten (DocParts.mem_unescape hfeed)
    have hlines : (some (DocParts.readText written)).toList.flatMap (fun brief => physicalLines ("// " ++ brief)) =
        ["// " ++ DocParts.readText written] := by
      rw [Option.toList_some, List.flatMap_singleton, physicalLines_of_unbroken hline]
    rw [hlines]
    refine ⟨rfl, List.forall_mem_singleton.mpr ?_⟩
    rw [splices_comment, splices_readText, hdoc, Option.bind_some, hwritten]
    simp

end Cpp

/-- In the output, a line of a comment is joined to the next just if the comment is written with a backslash at its
end. -/
theorem comments_splice_iff {m : Manager} (h : Manager.Leads Operation.AsksKnown .empty m) {path : Path} {f : SourceFile}
    (hf : m.files.find? path = some f) {width : Nat} {output : String} {reports reports' : List Diagnostic} :
    (generate .cppInterface m f width reports = .ok output reports' →
      ∃ above items below, physicalLines output = above ++ items.flatten ++ below ∧
        List.Forall₂ (fun n lines => ∀ text ∈ n.remark?, lines = Cpp.commentLines text ∧
          ∀ line ∈ lines, (Splices line ↔ Splices text)) f.ast.roots items) ∧
    (generate .cppLocal m f width reports = .ok output reports' →
      ∃ above macros below, physicalLines output = above ++ (macros.map Cpp.MacroLines.all).flatten ++ below ∧
        List.Forall₂ (fun d r => r.body.head? = some (s!"#define REGISTER_{uppercase d.name}(impl__)" ++ " \\") ∧
          r.heading = (Doc.briefOf? d.doc).toList.map ("// " ++ ·) ∧
          ∀ line ∈ r.heading, (Splices line ↔ ∃ written ∈ d.doc.bind Doc.writtenBrief, Splices written))
          f.ast.interfaces macros) := by
  constructor
  · intro houtput
    obtain ⟨steps, hsteps, rfl⟩ := Generate.render_eq_ok.mp houtput
    have hsound : ∀ n ∈ f.ast.roots, n.Sound := by
      intro n hn
      have hlabel := (h.regular.coherent.every_sound hf hn).label
      rwa [Node.label_tree] at hlabel
    obtain ⟨above, items, below, hlines, hitems⟩ :=
      Cpp.Scope.exists_commentLines hsound (Generate.ofExcept_eq_ok.mp hsteps).1 width
    refine ⟨above, items, below, hlines, hitems.imp fun n lines hcomment text htext => ?_⟩
    obtain rfl := hcomment text htext
    exact ⟨rfl, fun line => Cpp.splices_iff_of_mem_commentLines⟩
  · intro houtput
    obtain ⟨steps, hsteps, rfl⟩ := Generate.render_eq_ok.mp houtput
    obtain ⟨above, macros, below, hlines, hmacros⟩ :=
      Cpp.Scope.exists_macroLines (fun d hd => h.readable hf .cppLocal hd) hsteps width
    exact ⟨above, macros, below, hlines, hmacros.imp fun d r hr => ⟨hr.first, hr.heading_eq⟩⟩

/-- A disk with a comment and a brief that end in backslashes. -/
def Disk.splices : Disk :=
  ⟨.directory [("a", .directory [("x.qi", .file (some
    "package a\n# x \\\nconst A = 1\n## Turn \\\\\ninterface I\nend\n"))])], []⟩

theorem Disk.wellNamed_splices : Disk.splices.root.WellNamed := by
  simp [Disk.splices]

/-- Both lines are joined to the next, one in a header and one before a registration macro. -/
theorem comments_splice_iff_both :
    ∃ m f header adapters reports reports', Manager.Leads Operation.AsksKnown .empty m ∧
      m.files.find? (["a", "x.qi"] : Path) = some f ∧ generate .cppInterface m f 2 [] = .ok header reports ∧
      generate .cppLocal m f 2 [] = .ok adapters reports' ∧
      ("// x \\" ∈ physicalLines header ∧ Splices "// x \\") ∧
      "// Turn \\" ∈ physicalLines adapters ∧ Splices "// Turn \\" := by
  have hcheck : (((Operation.parseFile "/a/x.qi").after .splices .empty).files.find? (["a", "x.qi"] : Path)).any (fun f =>
      (f.ast.roots.any fun n => n.remark? == some "x \\") &&
      (f.ast.interfaces.any fun d => Doc.briefOf? d.doc == some "Turn \\" &&
        d.doc.bind Doc.writtenBrief == some "Turn \\\\") &&
      decide ((generate .cppInterface ((Operation.parseFile "/a/x.qi").after .splices .empty) f 2).Succeeds []) &&
      decide ((generate .cppLocal ((Operation.parseFile "/a/x.qi").after .splices .empty) f 2).Succeeds [])) = true := by
    decide +kernel
  obtain ⟨f, hf, htest⟩ := (Option.any_eq_true _ _).mp hcheck
  simp only [Bool.and_eq_true, List.any_eq_true, beq_iff_eq, decide_eq_true_eq] at htest
  obtain ⟨⟨⟨⟨n, hn, hremark⟩, d, hd, hbrief, hwritten⟩, header, reports, hheader⟩, adapters, reports', hadapters⟩ := htest
  have hleads : Manager.Leads Operation.AsksKnown .empty ((Operation.parseFile "/a/x.qi").after .splices .empty) :=
    .step _ _ .refl Disk.wellNamed_splices trivial
  obtain ⟨_, items, _, hlines, hitems⟩ := (comments_splice_iff hleads hf).1 hheader
  obtain ⟨_, macros, _, hlines', hmacros⟩ := (comments_splice_iff hleads hf).2 hadapters
  obtain ⟨lines, hmem, hcomment⟩ := exists_of_forall₂ hitems.flip hn
  obtain ⟨r, hr, -, hheading, hsplices⟩ := exists_of_forall₂ hmacros.flip hd
  obtain ⟨rfl, hends⟩ := hcomment "x \\" hremark
  have hfirst : "// x \\" ∈ Cpp.commentLines "x \\" := by decide
  have hsecond : "// Turn \\" ∈ r.heading := by
    rw [hheading, hbrief]
    decide
  refine ⟨_, f, header, adapters, reports, reports', hleads, hf, hheader, hadapters, ⟨?_, ?_⟩, ?_, ?_⟩
  · rw [hlines]
    exact List.mem_append_left _ (List.mem_append_right _ (List.mem_flatten_of_mem hmem hfirst))
  · exact (hends _ hfirst).mpr (by decide)
  · have hall : "// Turn \\" ∈ r.all := List.mem_append_left _ (List.mem_append_left _ hsecond)
    rw [hlines']
    exact List.mem_append_left _ (List.mem_append_right _ (List.mem_flatten_of_mem (List.mem_map_of_mem hr) hall))
  · exact (hsplices _ hsecond).mpr ⟨_, hwritten, by decide⟩

end QiIdl
