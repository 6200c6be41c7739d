import QiIdl.Proofs.Format.Dumped
import QiIdl.Proofs.Grammar.Twins
import QiIdl.Proofs.Output.Rows

/-!
# Brackets of a dump

Whoever counts the brackets of a dump, and takes quoted texts as they are, never finds more closed than opened, and finds
all of them closed exactly where the text of a node at the top ends (`dump_balanced`).

A count of brackets forgets most of what a scan into pieces keeps: after any part of a text, the depth is what the
complete pieces so far open and do not close (`Brackets.foldl_step`). What is left are facts about the pieces of nested
lists.
-/

namespace QiIdl

open Piece Sexp

/-- Where a count of brackets is: outside, in a quoted text, or behind a backslash there. -/
inductive Quoting where
  | outside
  | quoted
  | escaped
deriving DecidableEq, Repr

/-- A count of brackets: how many are open, and whether brackets count at the moment. -/
structure Brackets where
  depth : Int
  quoting : Quoting
deriving DecidableEq, Repr

namespace Brackets

/-- The count before a text. -/
def start : Brackets := ⟨0, .outside⟩

/-- One character. -/
def step (b : Brackets) (c : Char) : Brackets :=
  match b.quoting with
  | .outside =>
    if c = '(' then ⟨b.depth + 1, .outside⟩
    else if c = ')' then ⟨b.depth - 1, .outside⟩
    else if c = '"' then ⟨b.depth, .quoted⟩
    else b
  | .quoted =>
    if c = '"' then ⟨b.depth, .outside⟩
    else if c = '\\' then ⟨b.depth, .escaped⟩
    else b
  | .escaped => ⟨b.depth, .quoted⟩

/-- The count after some characters. -/
def after (cs : List Char) : Brackets := cs.foldl step start

/-- How many characters are read whenever the depth comes back to zero, of which `before` were read already. -/
def returns (b : Brackets) (before : Nat) : List Char → List Nat
  | [] => []
  | c :: cs =>
    let rest := returns (b.step c) (before + 1) cs
    if b.depth ≠ 0 ∧ (b.step c).depth = 0 then (before + 1) :: rest else rest

/-- How many characters are read when the last line of each of some texts is complete, but for its line feed. -/
def ends (before : Nat) : List (List Char) → List Nat
  | [] => []
  | cs :: css => (before + cs.length - 1) :: ends (before + cs.length) css

/-- The brackets of some texts, one after the other, are balanced, and each text is a whole. -/
structure Balanced (texts : List (List Char)) : Prop where
  lines : ∀ cs ∈ texts, [')', '\n'] <:+ cs
  nonneg : ∀ cs, cs <+: texts.flatten → 0 ≤ (after cs).depth
  closed : after texts.flatten = start
  returns : start.returns 0 texts.flatten = ends 0 texts

end Brackets

/-! ## Depth of pieces -/

namespace Piece

/-- How many brackets some pieces open and do not close. -/
def depth (ps : List Piece) : Int := ps.count .opening - ps.count .closing

theorem depth_append (ps qs : List Piece) : depth (ps ++ qs) = depth ps + depth qs := by
  simp only [depth, List.count_append]
  omega

/-- No part of the pieces closes more than it opens, and all that is opened is closed. -/
structure Even (ps : List Piece) : Prop where
  nonneg : ∀ qs, qs <+: ps → 0 ≤ depth qs
  closed : depth ps = 0

variable {ps qs : List Piece}

theorem Even.nil : Even [] := by
  refine ⟨fun qs h => ?_, rfl⟩
  rw [List.prefix_nil.mp h]
  rfl

theorem Even.singleton {p : Piece} (h : depth [p] = 0) : Even [p] := by
  refine ⟨fun qs hq => ?_, h⟩
  rcases List.prefix_cons_iff.mp hq with rfl | ⟨rs, rfl, hrs⟩
  · exact Int.le_refl 0
  · rw [List.prefix_nil.mp hrs, h]

theorem Even.append (hp : Even ps) (hq : Even qs) : Even (ps ++ qs) := by
  refine ⟨?_, by rw [depth_append, hp.closed, hq.closed]; rfl⟩
  rintro rs ⟨more, h⟩
  rcases List.append_eq_append_iff.mp h with ⟨as, rfl, -⟩ | ⟨bs, rfl, rfl⟩
  · exact hp.nonneg rs (List.prefix_append rs as)
  · rw [depth_append, hp.closed, Int.zero_add]
    exact hq.nonneg bs (List.prefix_append bs more)

/-- Inside brackets something is open. -/
theorem Even.pos (h : Even ps) (hq : qs <+: .opening :: ps) (hne : qs ≠ []) : 0 < depth qs := by
  rcases List.prefix_cons_iff.mp hq with rfl | ⟨rs, rfl, hrs⟩
  · exact absurd rfl hne
  · have hnonneg := h.nonneg rs hrs
    rw [← List.singleton_append, depth_append]
    exact Int.add_pos_of_pos_of_nonneg (by decide) hnonneg

theorem Even.brackets (h : Even ps) : Even (.opening :: (ps ++ [.closing])) := by
  have hclosed : Piece.depth (.opening :: (ps ++ [.closing])) = 0 := by
    rw [← List.singleton_append, depth_append, depth_append, h.closed]
    rfl
  refine ⟨fun qs hq => ?_, hclosed⟩
  rw [← List.cons_append] at hq hclosed
  rcases List.prefix_concat_iff.mp hq with rfl | hq
  · exact Int.le_of_eq hclosed.symm
  · by_cases hne : qs = []
    · rw [hne]
      rfl
    · exact Int.le_of_lt (h.pos hq hne)

end Piece

namespace Sexp

mutual

theorem even_pieces : ∀ s : Sexp, Even s.pieces
  | word text => .singleton rfl
  | quoted text => .singleton rfl
  | list items => by
    rw [pieces]
    exact (even_piecesAll items).brackets

/-- Nested lists close what they open. -/
theorem even_piecesAll : ∀ ss : List Sexp, Even (piecesAll ss)
  | [] => .nil
  | s :: ss => (even_pieces s).append (even_piecesAll ss)

end

end Sexp

/-! ## Pieces of a part of a text -/

namespace Piece

/-- The pieces that are complete after some characters, and where a scan is then. -/
def scanned (s : Scan) : List Char → List Piece × Scan
  | [] => ([], s)
  | c :: cs => ((step s c).1 ++ (scanned (step s c).2 cs).1, (scanned (step s c).2 cs).2)

theorem scanned_append (s : Scan) (cs ds : List Char) :
    scanned s (cs ++ ds) = ((scanned s cs).1 ++ (scanned (scanned s cs).2 ds).1, (scanned (scanned s cs).2 ds).2) := by
  induction cs generalizing s with
  | nil => rfl
  | cons c cs ih => simp only [List.cons_append, scanned, ih, List.append_assoc]

theorem scanFrom_append (s : Scan) (cs ds : List Char) :
    scanFrom s (cs ++ ds) = (scanned s cs).1 ++ scanFrom (scanned s cs).2 ds := by
  induction cs generalizing s with
  | nil => rfl
  | cons c cs ih =>
    rw [List.cons_append, scanned, scanFrom, ih, List.append_assoc]

/-- What a count of brackets keeps of a scan. -/
def Scan.quoting : Scan → Quoting
  | .outside | .word _ => .outside
  | .quoted _ => .quoted
  | .escaped _ => .escaped

end Piece

namespace Brackets

/-- A character changes the depth by the pieces that are complete with it. -/
theorem step_eq (depth : Int) (s : Scan) (c : Char) :
    step ⟨depth, s.quoting⟩ c = ⟨depth + Piece.depth (Piece.step s c).1, (Piece.step s c).2.quoting⟩ := by
  have henter : step ⟨depth, .outside⟩ c = ⟨depth + Piece.depth (Piece.enter c).1, (Piece.enter c).2.quoting⟩ := by
    unfold step Piece.enter
    split_ifs <;> simp_all [Piece.depth, Scan.quoting, Int.sub_eq_add_neg]
  cases s with
  | outside => exact henter
  | word word =>
    by_cases hdelimiter : isDelimiter c = true
    · -- a word in front of a bracket is complete with the bracket, and changes no depth
      rw [Piece.step, if_pos hdelimiter, ← List.singleton_append, depth_append]
      change step ⟨depth, .outside⟩ c = _
      simpa [Piece.depth] using henter
    · have hne : c ≠ '(' ∧ c ≠ ')' ∧ c ≠ '"' := by
        refine ⟨?_, ?_, ?_⟩ <;> (rintro rfl; exact hdelimiter rfl)
      rw [Piece.step, if_neg hdelimiter]
      simp [step, Scan.quoting, hne, Piece.depth]
  | quoted text =>
    unfold step Piece.step
    split_ifs <;> simp_all [Piece.depth, Scan.quoting]
  | escaped text => simp [step, Piece.step, Piece.depth, Scan.quoting]

theorem foldl_step (depth : Int) (s : Scan) (cs : List Char) : cs.foldl step ⟨depth, s.quoting⟩ =
    ⟨depth + Piece.depth (scanned s cs).1, (scanned s cs).2.quoting⟩ := by
  induction cs generalizing depth s with
  | nil => simp [scanned, Piece.depth]
  | cons c cs ih => rw [List.foldl_cons, step_eq, ih, scanned, depth_append, Int.add_assoc]

theorem after_eq (cs : List Char) : after cs = ⟨Piece.depth (scanned .outside cs).1, (scanned .outside cs).2.quoting⟩ := by
  rw [after, start, ← Int.zero_add (Piece.depth _)]
  exact foldl_step 0 .outside cs

/-- While what was opened is not closed, the depth does not come back to zero. -/
theorem returns_append {b : Brackets} {before : Nat} {cs ds : List Char}
    (h : ∀ as c, as ++ [c] <+: cs → (as.foldl step b).depth ≠ 0 → ((as ++ [c]).foldl step b).depth ≠ 0) :
    b.returns before (cs ++ ds) = (cs.foldl step b).returns (before + cs.length) ds := by
  induction cs generalizing b before with
  | nil => rfl
  | cons c cs ih =>
    have hfirst : ¬(b.depth ≠ 0 ∧ (b.step c).depth = 0) := fun ⟨hne, hzero⟩ =>
      h [] c (List.prefix_append [c] cs) hne hzero
    rw [List.cons_append, returns, if_neg hfirst, ih, List.foldl_cons, List.length_cons, Nat.add_assoc, Nat.add_comm 1]
    intro as d hd
    exact h (c :: as) d (List.cons_prefix_cons.mpr ⟨rfl, hd⟩)

end Brackets

/-! ## The text of a list -/

/-- The characters end a line with a bracket, and are cut into the pieces of one list. -/
def Listing (cs : List Char) : Prop := ∃ ds items, cs = ds ++ [')'] ++ ['\n'] ∧ scan cs = (Sexp.list items).pieces

/-- The last bracket is the one that closes the list: in front of it, what the list opens with is not closed. -/
theorem exists_inside {cs : List Char} {items : List Sexp}
    (h : scan (cs ++ [')'] ++ ['\n']) = (Sexp.list items).pieces) :
    ∃ rest, (scanned .outside cs).1 ++ rest = .opening :: piecesAll items ∧ Piece.depth rest = 0 ∧
      (scanned .outside cs).2.quoting = .outside := by
  rw [List.append_assoc, scan, scanFrom_append, pieces, ← List.cons_append] at h
  cases hs : (scanned .outside cs).2 with
  | outside =>
    rw [hs] at h
    exact ⟨[], by rw [List.append_nil]; exact List.append_cancel_right h, rfl, rfl⟩
  | word text =>
    rw [hs] at h
    have hword : scanFrom (.word text) ([')'] ++ ['\n']) = [.word text.reverse] ++ [.closing] := rfl
    rw [hword, ← List.append_assoc] at h
    exact ⟨[.word text.reverse], List.append_cancel_right h, rfl, rfl⟩
  | quoted text =>
    -- in a quoted text the last piece would be that text
    rw [hs] at h
    cases (List.append_inj' h rfl).2
  | escaped text =>
    rw [hs] at h
    cases (List.append_inj' h rfl).2

namespace Brackets

theorem after_append {cs : List Char} (h : after cs = start) (ds : List Char) : after (cs ++ ds) = after ds := by
  rw [after, List.foldl_append, ← after, h, after]

/-- A listing closes what it opens, and not before its last bracket. -/
theorem of_listing {cs : List Char} (h : Listing cs) :
    (∀ as, as <+: cs → 0 ≤ (after as).depth) ∧ after cs = start ∧
      ∀ before ds, start.returns before (cs ++ ds) =
        (before + cs.length - 1) :: start.returns (before + cs.length) ds := by
  obtain ⟨cs, items, rfl, hscan⟩ := h
  obtain ⟨rest, hinside, hrest, houtside⟩ := exists_inside hscan
  have heven := even_piecesAll items
  have hpart {as : List Char} (has : as <+: cs) : (scanned .outside as).1 <+: .opening :: piecesAll items := by
    obtain ⟨bs, rfl⟩ := has
    rw [← hinside, scanned_append, List.append_assoc]
    exact List.prefix_append _ _
  have hnonneg {as : List Char} (has : as <+: cs) : 0 ≤ (after as).depth := by
    rw [after_eq]
    by_cases hne : (scanned .outside as).1 = []
    · rw [hne]
      exact Int.le_refl 0
    · exact Int.le_of_lt (heven.pos (hpart has) hne)
  have hopen : after cs = ⟨1, .outside⟩ := by
    have hdepth := congrArg Piece.depth hinside
    rw [depth_append, hrest, Int.add_zero, ← List.singleton_append, depth_append, heven.closed] at hdepth
    rw [after_eq, hdepth, houtside]
    rfl
  have hbracket : after (cs ++ [')']) = start := by rw [after, List.foldl_append, ← after, hopen]; rfl
  have hline : after (cs ++ [')'] ++ ['\n']) = start := by rw [after_append hbracket]; rfl
  refine ⟨fun as has => ?_, hline, fun before ds => ?_⟩
  · rcases List.prefix_concat_iff.mp has with rfl | has
    · rw [hline]
      exact Int.le_refl 0
    · rcases List.prefix_concat_iff.mp has with rfl | has
      · rw [hbracket]
        exact Int.le_refl 0
      · exact hnonneg has
  · rw [List.append_assoc, List.append_assoc, returns_append, ← after, hopen]
    · simp [returns, step, start, Nat.add_assoc]
    · -- once something is open in front of the last bracket, something stays open
      intro as c hc hne hzero
      rw [← after, after_eq] at hne hzero
      have hpieces : (scanned .outside (as ++ [c])).1 = [] := by
        by_contra hne'
        exact absurd hzero (Int.ne_of_gt (heven.pos (hpart hc) hne'))
      rw [scanned_append] at hpieces
      rw [(List.append_eq_nil_iff.mp hpieces).1] at hne
      exact hne rfl

/-- Listings one after the other. -/
theorem balanced_of_listings {texts : List (List Char)} (h : ∀ cs ∈ texts, Listing cs) : Balanced texts := by
  have hlines : ∀ cs ∈ texts, [')', '\n'] <:+ cs := by
    intro cs hcs
    obtain ⟨ds, items, rfl, -⟩ := h cs hcs
    exact ⟨ds, by rw [List.append_assoc]; rfl⟩
  have hreturns (before : Nat) : start.returns before texts.flatten = ends before texts := by
    clear hlines
    induction texts generalizing before with
    | nil => rfl
    | cons cs texts ih =>
      obtain ⟨hcs, htexts⟩ := List.forall_mem_cons.mp h
      rw [List.flatten_cons, (of_listing hcs).2.2, ih htexts, ends]
  suffices (∀ as, as <+: texts.flatten → 0 ≤ (after as).depth) ∧ after texts.flatten = start from
    ⟨hlines, this.1, this.2, hreturns 0⟩
  clear hlines hreturns
  induction texts with
  | nil =>
    refine ⟨fun as has => ?_, rfl⟩
    rw [List.prefix_nil.mp has]
    exact Int.le_refl 0
  | cons cs texts ih =>
    obtain ⟨hcs, htexts⟩ := List.forall_mem_cons.mp h
    obtain ⟨hnonneg, hclosed, -⟩ := of_listing hcs
    obtain ⟨hnonneg', hclosed'⟩ := ih htexts
    rw [List.flatten_cons, after_append hclosed]
    refine ⟨?_, hclosed'⟩
    rintro as ⟨more, has⟩
    rcases List.append_eq_append_iff.mp has with ⟨bs, rfl, -⟩ | ⟨bs, rfl, hbs⟩
    · exact hnonneg as (List.prefix_append as bs)
    · rw [after_append hclosed]
      exact hnonneg' bs ⟨more, hbs.symm⟩

end Brackets

/-! ## Dumps -/

variable {α : Type}

/-- The steps write whole rows, of which the last ends in a bracket, and are to be cut into a list. -/
structure Lists (steps : List Step) (s : Sexp) : Prop where
  whole : Step.AllWhole steps
  last : ∃ init text, steps = init ++ [.writeLine (text ++ ")")]
  list : ∃ items, s = .list items

namespace Lists

variable {items : List Sexp}

theorem allWhole_dumpLines (items : List Sexp) : Step.AllWhole (dumpLines items) := by
  simp [dumpLines]

theorem line : Lists (dumpLines [.list items]) (.list items) :=
  ⟨allWhole_dumpLines _, ⟨[], _, rfl⟩, items, rfl⟩

theorem block {head : String} {firsts : List Sexp} {body : List Step} (h : Step.AllWhole body) :
    Lists (dumpBlock head firsts body) (.list items) :=
  ⟨by simpa [dumpBlock] using h, ⟨[.writeLine _, .scope body], "", rfl⟩, items, rfl⟩

end Lists

theorem Literal.lists (l : Literal α) : Lists (dumpLines [l.sexp]) l.sexp := by
  cases l <;> exact .line

mutual

theorem ObjectItem.lists : ∀ o : ObjectItem α, Lists o.dump o.sexp
  | .property .. => .line
  | .connect .. => .line
  | .object _ _ _ _ body => .block (ObjectItem.allWhole_dumpAll body)

theorem ObjectItem.allWhole_dumpAll : ∀ os : List (ObjectItem α), Step.AllWhole (ObjectItem.dumpAll os)
  | [] => Step.allWhole_nil
  | o :: os => Step.allWhole_append.mpr ⟨(ObjectItem.lists o).whole, ObjectItem.allWhole_dumpAll os⟩

end

theorem Node.lists (n : Node α) : Lists n.dump n.sexp := by
  cases n with
  | literal l => exact l.lists
  | expr e =>
    cases e with
    | literal t l => exact l.lists
    | _ => exact .line
  | type t => cases t <;> exact .line
  | interface d => exact .block (Lists.allWhole_dumpLines _)
  | struct d => exact .block (Lists.allWhole_dumpLines _)
  | enum d => exact .block (Lists.allWhole_dumpLines _)
  | enumItem d =>
    obtain ⟨tag, name, meaning⟩ := d
    cases meaning <;> exact .line
  | imports d =>
    obtain ⟨tag, package, scope⟩ := d
    cases scope <;> exact .line
  | object o => exact o.lists
  | _ => exact .line

/-- The text of a node at the top of a file. -/
def Node.dumped (width : Nat) (n : Node α) : List Char := (Step.render width n.dump).toList

theorem Node.listing {n : Node α} (h : n.tree.Every Node.Sound) (width : Nat) : Listing (n.dumped width) := by
  obtain ⟨hwhole, ⟨init, text, hlast⟩, items, hlist⟩ := n.lists
  have hscan := Writes.render (Node.shows h) width []
  rw [List.append_nil, scan_nil, List.append_nil, hlist] at hscan
  refine ⟨(String.join ((Step.rowsAll width 0 init).map (· ++ "\n"))).toList ++ text.toList, items, ?_, hscan⟩
  rw [Node.dumped, Step.render_of_whole hwhole, hlast, Step.rowsAll_append]
  simp [Step.rowsAll, Step.rows, Step.row_zero, String.join_append]

/-- The text of a file is the texts of the nodes at its top. -/
theorem Ast.toList_dump (width : Nat) (ast : Ast) :
    (ast.dump width).toList = (ast.roots.map (Node.dumped width)).flatten := by
  have hwhole {roots : List (Node Mark)} : Step.AllWhole (roots.flatMap Node.dump) :=
    Step.allWhole_flatMap.mpr fun root _ => root.lists.whole
  rw [Ast.dump]
  induction ast.roots with
  | nil => rfl
  | cons root roots ih =>
    rw [Step.render_of_whole hwhole] at ih ⊢
    rw [List.flatMap_cons, Step.rowsAll_append, List.map_append, String.join_append, String.toList_append, ih,
      List.map_cons, List.flatten_cons, Node.dumped, Step.render_of_whole root.lists.whole]

/-- The brackets of the dump of a file are balanced, and all are closed just where the text of a node at the top ends. -/
theorem dump_balanced {source file : String} {ast : Ast} (h : parseSource source file = .ok ast) (width : Nat) :
    (ast.dump width).toList = (ast.roots.map (Node.dumped width)).flatten ∧
      Brackets.Balanced (ast.roots.map (Node.dumped width)) := by
  refine ⟨ast.toList_dump width, Brackets.balanced_of_listings (List.forall_mem_map.mpr fun root hroot => ?_)⟩
  exact Node.listing (parseSource_sound h root hroot).2 width

/-- Brackets, quotes and backslashes in a comment, in the name of an object and in a string. -/
theorem dump_balanced_quoted :
    let source := "# (\"\\\nobject Lamp \")(\"\n prop p [\"\\\")\"]\nend\n"
    ∃ ast, parseSource source "lamp.qi" = .ok ast ∧ ast.dump 3 = "(comment \"(\\\"\\\\\")\n"
      ++ "(object (type Lamp) (string \")(\")\n   (prop p (list (string \"\\\")\")))\n)\n" ∧
      Brackets.Balanced (ast.roots.map (Node.dumped 3)) := by
  intro source
  have hcheck : (parseSource source "lamp.qi").toOption.any (fun ast => ast.dump 3 == "(comment \"(\\\"\\\\\")\n"
      ++ "(object (type Lamp) (string \")(\")\n   (prop p (list (string \"\\\")\")))\n)\n") = true := by
    decide +kernel
  obtain ⟨ast, hread, hdump⟩ := exists_ok_of_any hcheck
  exact ⟨ast, hread, beq_iff_eq.mp hdump, (dump_balanced hread 3).2⟩

end QiIdl
