import QiIdl.Proofs.Grammar.Placed

/-!
# Where documentation goes

Lines of documentation are collected while layout is passed over, and they are handed to what is read next. So of some
declarations that are read one behind the other each gets the lines that stand between it and the one before, and
`DocumentedBy` says just this of the tokens they are read from. The lines are used up whether they are kept or not: what
is read behind a declaration starts to collect anew.

Two things stand in the way. At the top of a file a comment is an item of its own, and what has been collected in front
of it goes on waiting behind it. And the first member of an interface stands behind the heading of the interface, which
is read before anything is collected; but a heading has no documentation in it (`Plain`).
-/

namespace QiIdl

/-! ## Documentation on tokens -/

/-- Whether nodes of a sort have documentation. -/
def NodeSort.takesDoc : NodeSort → Bool
  | interface | struct | enum | fn | emit | prop => true
  | _ => false

/-- What documentation has to do with a declaration: where it is, whether it can have documentation, and which it
has. -/
structure Documentable where
  span : Span
  takesDoc : Bool
  doc : Option String

/-- The documentation that some tokens come to. -/
def docAmong (toks : List Token) : Option String := (docTexts toks).foldl joinDoc none

/-- Declarations stand on tokens one behind the other, each with the documentation in front of it. -/
def DocumentedBy : List Documentable → List Token → Prop
  | [], _ => True
  | d :: ds, toks => ∃ gap seg rest, toks = gap ++ (seg ++ rest) ∧ d.span.Covers seg ∧
    (d.takesDoc = true → d.doc = docAmong gap) ∧ DocumentedBy ds rest

/-- The first line of some tokens has no documentation in it. -/
def PlainHeading (toks : List Token) : Prop :=
  ∃ heading body, toks = heading ++ body ∧ docTexts heading = [] ∧ ∃ t ∈ heading, t.kind = .newline

/-- Declarations stand behind the start of a span, each with the documentation in front of it, and below a heading if
there are any. -/
def DocumentedIn (s : Span) (ds : List Documentable) (toks : List Token) : Prop :=
  ∃ before seg rest, toks = before ++ (seg ++ rest) ∧ s.Covers seg ∧ DocumentedBy ds (seg ++ rest) ∧
    (ds ≠ [] → PlainHeading (seg ++ rest))

/-- A declaration stands behind the tokens that may document it, and nothing that documents follows. -/
def DocumentedLast (d : Documentable) (toks : List Token) : Prop :=
  ∃ gap seg tail, toks = gap ++ (seg ++ tail) ∧ d.span.Covers seg ∧ (d.takesDoc = true → d.doc = docAmong gap) ∧
    docTexts tail = []

section

variable {d : Documentable} {ds : List Documentable} {s : Span} {toks gap more : List Token}

theorem docAmong_append (toks more : List Token) :
    docAmong (toks ++ more) = (docTexts more).foldl joinDoc (docAmong toks) := by
  rw [docAmong, docTexts_append, List.foldl_append]
  rfl

theorem docAmong_behind (h : docTexts gap = []) (toks : List Token) : docAmong (gap ++ toks) = docAmong toks := by
  rw [docAmong, docTexts_append, h, List.nil_append]
  rfl

theorem docTexts_of_newline (h : ∀ t ∈ toks, t.kind = .newline) : docTexts toks = [] := by
  rw [docTexts, List.filterMap_eq_nil_iff]
  intro t ht
  rw [h t ht]
  rfl

theorem DocumentedBy.behind (h : DocumentedBy ds toks) (hgap : docTexts gap = []) : DocumentedBy ds (gap ++ toks) := by
  cases ds with
  | nil => trivial
  | cons d ds =>
    obtain ⟨gap', seg, rest, rfl, hcovers, hdoc, hds⟩ := h
    refine ⟨gap ++ gap', seg, rest, (List.append_assoc ..).symm, hcovers, fun htakes => ?_, hds⟩
    rw [docAmong_behind hgap]
    exact hdoc htakes

theorem DocumentedBy.before (h : DocumentedBy ds toks) (more : List Token) : DocumentedBy ds (toks ++ more) := by
  induction ds generalizing toks with
  | nil => trivial
  | cons d ds ih =>
    obtain ⟨gap, seg, rest, rfl, hcovers, hdoc, hds⟩ := h
    exact ⟨gap, seg, rest ++ more, by simp only [List.append_assoc], hcovers, hdoc, ih hds⟩

theorem DocumentedBy.cons (hd : DocumentedLast d toks) (h : DocumentedBy ds more) :
    DocumentedBy (d :: ds) (toks ++ more) := by
  obtain ⟨gap, seg, tail, rfl, hcovers, hdoc, htail⟩ := hd
  exact ⟨gap, seg, tail ++ more, by simp only [List.append_assoc], hcovers, hdoc, h.behind htail⟩

theorem PlainHeading.before (h : PlainHeading toks) (more : List Token) : PlainHeading (toks ++ more) := by
  obtain ⟨heading, body, rfl, hheading⟩ := h
  exact ⟨heading, body ++ more, List.append_assoc .., hheading⟩

theorem DocumentedIn.behind (h : DocumentedIn s ds toks) (gap : List Token) : DocumentedIn s ds (gap ++ toks) := by
  obtain ⟨before, seg, rest, rfl, hcovers, hds⟩ := h
  exact ⟨gap ++ before, seg, rest, (List.append_assoc ..).symm, hcovers, hds⟩

theorem DocumentedIn.before (h : DocumentedIn s ds toks) (more : List Token) : DocumentedIn s ds (toks ++ more) := by
  obtain ⟨before, seg, rest, rfl, hcovers, hds, hheading⟩ := h
  refine ⟨before, seg, rest ++ more, by simp only [List.append_assoc], hcovers, ?_⟩
  rw [← List.append_assoc]
  exact ⟨hds.before more, fun hne => (hheading hne).before more⟩

end

namespace Node

/-- A node with its documentation. -/
def documentable (n : Node Mark) : Documentable := ⟨n.tag.span, n.sort.takesDoc, n.doc?⟩

/-- The members of an interface. -/
def memberNodes : Node Mark → List (Node Mark)
  | interface d => d.members.map Member.node
  | _ => []

/-- Whether a node is more than a comment. -/
def isSolid (n : Node Mark) : Bool := n.sort != .comment

end Node

/-! ## Readers of plain tokens -/

/-- What a reader reads has no documentation in it, if there was none before. -/
def Plain {β : Type} (p : Reading Arena β) : Prop :=
  Carries (fun read _ => docTexts read = []) p fun _ read _ => docTexts read = []

namespace Plain

variable {β : Type} {p : Reading Arena β}

theorem append_peek {read : List Token} {t : Token} (hread : docTexts read = []) (ht : t.kind.docText? = none) :
    docTexts (read ++ [t]) = [] := by
  rw [docTexts_append, hread, docTexts_singleton, ht]
  rfl

theorem accept {k : TokenKind} (hk : k ≠ .eof) (hdoc : k.docText? = none) : Plain (Parse.accept k) := by
  refine (Carries.accept hk).conseq (fun _ _ h => h) fun b read' c' h => ?_
  cases b with
  | true =>
    obtain ⟨read, c, hread, hkind, rfl, -⟩ := h
    exact append_peek hread (hkind ▸ hdoc)
  | false => exact h

theorem expect {k : TokenKind} (hk : k ≠ .eof) (hdoc : k.docText? = none) (what : String) :
    Plain (Parse.expect k what) := by
  refine (Carries.expect hk what).conseq (fun _ _ h => h) ?_
  rintro t _ _ ⟨read, c, hread, -, hkind, rfl, -⟩
  exact append_peek hread (hkind ▸ hdoc)

theorem name (what : String) : Plain (Parse.name what) := by
  refine .bind .kind fun k => ?_
  split
  · refine .bind (.modifyAdvance ?_) fun _ => .pure ?_
    · rintro _ c ⟨-, hkind⟩
      simp [hkind]
    · rintro _ _ ⟨read, c, ⟨hread, hkind⟩, rfl, -⟩
      exact append_peek hread (by rw [hkind]; rfl)
  · exact .expected what

theorem dottedRest : ∀ (count : Nat) (text : String), Plain (Parse.dottedRest count text)
  | 0, _ => .pure fun _ _ h => h
  | count + 1, text => by
    refine .bind (accept (by simp) rfl) fun _ => ?_
    split
    · exact .bind (name _) fun _ => dottedRest count _
    · exact .pure fun _ _ h => h

theorem dottedName (what : String) : Plain (Parse.dottedName what) :=
  .bind (name what) fun _ => .bind .left fun _ => dottedRest _ _

theorem separated (hp : Plain p) : ∀ count, Plain (Parse.separated p count)
  | 0 => .pure fun _ _ h => h
  | count + 1 => by
    refine .bind hp fun _ => .bind (accept (by simp) rfl) fun _ => ?_
    split
    · exact .bind (separated hp count) fun _ => .pure fun _ _ h => h
    · exact .pure fun _ _ h => h

theorem parseInherits : Plain QiIdl.parseInherits := by
  refine .bind (accept (by simp) rfl) fun _ => ?_
  split
  · have hnames (count : Nat) : Plain (Parse.separatedUnless (Parse.dottedName "base name") .rparen count) := by
      refine .bind .kind fun _ => .weaken ?_ fun _ _ h => h.1
      split
      · exact .pure fun _ _ h => h
      · exact separated (dottedName _) count
    exact .bind .left fun count => .bind (hnames count) fun _ => .bind (expect (by simp) rfl _) fun _ =>
      .pure fun _ _ h => h
  · exact .pure fun _ _ h => h

/-- Behind plain tokens a heading ends with its line, or with the file. -/
theorem lineEnd : Carries (fun read (_ : Cursor Arena) => docTexts read = []) Parse.lineEnd fun _ read c =>
    (docTexts read = [] ∧ ∃ t ∈ read, t.kind = .newline) ∨ c.peek.kind = .eof := by
  refine .bind (.accept (by simp)) fun b => ?_
  split
  · refine .pure ?_
    rintro _ _ ⟨read, c, hread, hkind, rfl, -⟩
    exact .inl ⟨append_peek hread (by rw [hkind]; rfl), c.peek, List.mem_append_right _ List.mem_cons_self, hkind⟩
  · refine .bind .kind fun k => ?_
    split
    · rename_i hk
      exact .pure fun _ _ h => .inr (h.2.trans hk)
    · exact .expected _

end Plain

/-! ## Blocks need an end -/

theorem layout_of_eof {c : Cursor Arena} (h : c.peek.kind = .eof) (comments : Bool) (doc : Option String) :
    Parse.layout comments doc c = .ok doc c := by
  obtain ⟨rest, last, faults, kept⟩ := c
  cases rest with
  | nil => rfl
  | cons t rest =>
    have ht : t.kind = .eof := h
    simp only [Parse.layout, Parse.layout.go, ht]

/-- Where the file ends no block is read. -/
theorem kind_peek_of_parseBlock {β : Type} {name : String} {item : Option String → Reading Arena β} {count : Nat}
    {c c' : Cursor Arena}
    {r : List β × Span} (h : parseBlock name item count c = .ok r c') : c.peek.kind ≠ .eof := by
  intro heof
  cases count with
  | zero => cases h
  | succ count =>
    rw [parseBlock] at h
    obtain ⟨doc, c₁, hdoc, h⟩ := bind_eq_ok.mp h
    rw [layout_of_eof heof] at hdoc
    cases hdoc
    obtain ⟨k, c₂, hkind, h⟩ := bind_eq_ok.mp h
    cases hkind
    rw [heof] at h
    cases h

/-! ## Declarations -/

theorem Fn.gives_doc (doc : Option String) : Gives (Fn.parse doc : Reading Arena _) fun d => d.doc = doc :=
  .later fun _ => .later fun _ => .later fun _ => .later fun _ => .later fun _ => .later fun _ => .later fun _ =>
    .later fun _ => .enter fun _ => rfl

theorem Channel.gives_doc (keyword : Keyword) (node : Channel Mark → Node Mark) (doc : Option String) :
    Gives (Channel.parse keyword node doc : Reading Arena _) fun d => d.doc = doc :=
  .later fun _ => .later fun _ => .later fun _ => .later fun _ => .later fun _ => .enter fun _ => rfl

theorem Member.gives_doc (doc : Option String) :
    Gives (Member.parse doc : Reading Arena _) fun m => m.node.doc? = doc := by
  refine .later fun _ => ?_
  split
  · exact .bind (Fn.gives_doc doc) fun _ h => .pure h
  · exact .bind (Channel.gives_doc _ _ doc) fun _ h => .pure h
  · exact .bind (Channel.gives_doc _ _ doc) fun _ h => .pure h
  · exact .expected _

theorem Interface.gives_doc (doc : Option String) :
    Gives (Interface.parse doc : Reading Arena _) fun d => d.doc = doc :=
  .later fun _ => .later fun _ => .later fun _ => .later fun _ => .later fun _ => .enter fun _ => rfl

theorem Struct.gives_doc (doc : Option String) : Gives (Struct.parse doc : Reading Arena _) fun d => d.doc = doc :=
  .later fun _ => .later fun _ => .later fun _ => .later fun _ => .later fun _ => .enter fun _ => rfl

theorem Enum.gives_doc (doc : Option String) : Gives (Enum.parse doc : Reading Arena _) fun d => d.doc = doc :=
  .later fun _ => .later fun _ => .later fun _ => .later fun _ => .enter fun _ => rfl

/-- What is read at the top of a file with some documentation has it, if it has any, and is no comment. -/
theorem Node.gives_doc (doc : Option String) :
    Gives (parseItem doc : Reading Arena _) fun n => n.isSolid = true ∧ (n.sort.takesDoc = true → n.doc? = doc) := by
  refine .later fun t => ?_
  split
  · exact .later fun _ => .later fun _ => .later fun _ => .later fun _ => .enter fun _ => ⟨rfl, nofun⟩
  · exact .later fun _ => .pure ⟨rfl, nofun⟩
  · exact .later fun _ => .pure ⟨rfl, nofun⟩
  · exact .bind (Interface.gives_doc doc) fun _ h => .pure ⟨rfl, fun _ => h⟩
  · exact .bind (Struct.gives_doc doc) fun _ h => .pure ⟨rfl, fun _ => h⟩
  · exact .bind (Enum.gives_doc doc) fun _ h => .pure ⟨rfl, fun _ => h⟩
  · exact .later fun _ => .pure ⟨rfl, nofun⟩
  · exact .later fun _ => .pure ⟨rfl, nofun⟩
  · exact .bind (Fn.gives_doc doc) fun _ h => .pure ⟨rfl, fun _ => h⟩
  · refine .later fun o => .pure ?_
    cases o <;> exact ⟨rfl, nofun⟩
  · exact .later fun _ => .pure ⟨rfl, nofun⟩
  · exact .failAt _ _
  · exact .failAt _ _
  · exact .expected _

/-! ## One behind the other -/

section

variable {β : Type} {node : β → Node Mark} {doc : Option String}

/-- Behind what is waiting, layout is passed over and its documentation waits too. -/
theorem Carries.waiting (comments : Bool) (doc : Option String) :
    Carries (fun read (_ : Cursor Arena) => doc = docAmong read) (Parse.layout comments doc) fun doc' read _ =>
      doc' = docAmong read := by
  refine (Carries.behind (A := fun read => doc = docAmong read) (.unread fun kept => .layout kept comments doc)).conseq
    (fun _ _ h => h) ?_
  rintro _ _ _ ⟨old, new, rfl, hold, _, ⟨-, rfl⟩, -⟩
  rw [docAmong_append, hold]

/-- Something is read that gets the documentation that is waiting. -/
theorem Carries.documentedLast {item : Reading Arena β} (hitem : Carries Unread item fun b read _ =>
      ((node b).sort.takesDoc = true → (node b).doc? = doc) ∧ (node b).tree.Lined read) :
    Carries (fun read _ => doc = docAmong read) (Parse.recover item) fun o read _ =>
      ∃ b, o = some b ∧ DocumentedLast ((node b).documentable) read := by
  refine (Carries.behind (A := fun read => doc = docAmong read) (.recover hitem)).conseq (fun _ _ h => h) ?_
  rintro _ _ _ ⟨gap, _, rfl, hgap, b, rfl, hdoc, seg, tail, rfl, hlies, htail⟩
  have hcovers := hlies.covers
  rw [Node.label_tree] at hcovers
  exact ⟨b, rfl, gap, seg, tail, rfl, hcovers, fun htakes => (hdoc htakes).trans hgap, docTexts_of_newline htail⟩

/-- The items of a block have the documentation in front of them, the first one from the start of the block on. -/
theorem documentedBy_parseBlock (name : String) {item : Option String → Reading Arena β}
    (hitem : ∀ doc, Carries Unread (item doc) fun b read _ =>
      ((node b).sort.takesDoc = true → (node b).doc? = doc) ∧ (node b).tree.Lined read) :
    ∀ count, Carries Unread (parseBlock name item count) fun r read _ =>
      DocumentedBy (r.1.map fun b => (node b).documentable) read
  | 0 => .bind .look fun _ => .failAt _ _
  | count + 1 => by
    have hlayout : Carries Unread (Parse.layout true none) fun doc read _ => doc = docAmong read :=
      (Carries.waiting true none).weaken fun _ _ h => by rw [h]; rfl
    refine .bind hlayout fun doc => .bind .kind fun k => ?_
    split
    · exact .bind (Carries.unread Lays.advance).pass fun _ => .bind (Carries.unread Lays.lineEnd).pass fun _ =>
        .pure fun _ _ _ => trivial
    · exact .bind .look fun _ => .failAt _ _
    · refine .bind ((Carries.documentedLast (hitem doc)).weaken fun _ _ h => h.1) fun first =>
        .bind (Carries.behind (A := fun read => ∃ b, first = some b ∧
          DocumentedLast ((node b).documentable) read) (documentedBy_parseBlock name hitem count)) fun r =>
        .pure ?_
      rintro _ _ ⟨old, new, rfl, ⟨b, rfl, hold⟩, hnew⟩
      exact hnew.cons hold

end

theorem Member.documented_parse (doc : Option String) :
    Carries Unread (Member.parse doc) fun m read (_ : Cursor Arena) =>
      (m.node.sort.takesDoc = true → m.node.doc? = doc) ∧ m.node.tree.Lined read := by
  refine ((Carries.unread (Member.laysLine_parse doc)).gives (Member.gives_doc doc)).conseq (fun _ _ h => h) ?_
  rintro m read c ⟨hdoc, _, hlined, -⟩
  rw [m.tree_node]
  exact ⟨fun _ => hdoc, hlined⟩

/-- The members of an interface have the documentation in front of them, and the heading has none. -/
theorem Interface.documentedBy_parse (doc : Option String) :
    Carries Unread (Interface.parse doc) fun d read (_ : Cursor Arena) =>
      DocumentedBy (d.members.map fun m => m.node.documentable) read ∧ PlainHeading read := by
  have hheading : Carries (fun read (_ : Cursor Arena) => docTexts read = []) (Interface.parse doc) fun d read _ =>
      DocumentedBy (d.members.map fun m => m.node.documentable) read ∧ PlainHeading read := by
    refine .bind (Plain.expect (by simp) rfl _) fun _ => .bind (Plain.name _) fun name =>
      .bind Plain.parseInherits fun _ => .bind Plain.lineEnd fun _ => ?_
    have hbody : Carries Unread (parseBody s!"interface '{name}'" Member.parse) fun r read (_ : Cursor Arena) =>
        DocumentedBy (r.1.map fun m => m.node.documentable) read :=
      .bind .left fun _ => documentedBy_parseBlock _ Member.documented_parse _
    -- the file goes on, or there would be no body
    have hbehind := Carries.orFails (Carries.behind (A := fun read => docTexts read = [] ∧ ∃ t ∈ read, t.kind = .newline)
      hbody) fun _ _ _ => kind_peek_of_parseBlock
    refine .bind hbehind fun r => .enter ?_
    rintro _ _ ⟨old, new, rfl, hold, hnew⟩ _ _ _
    exact ⟨hnew.behind hold.1, old, new, rfl, hold⟩
  exact hheading.weaken fun _ _ h => by rw [h]; rfl

/-! ## Files -/

namespace Node

/-- The members of what is read at the top of a file are documented, if it has any. -/
theorem documentedIn_parseItem (doc : Option String) :
    Carries Unread (parseItem doc) fun n read (_ : Cursor Arena) =>
      n.tree.Lined read ∧ DocumentedIn n.tag.span (n.memberNodes.map documentable) read := by
  refine (Carries.unread fun kept => carries_parseItem_of doc ?_ ?_).conseq (fun _ _ h => h) fun _ _ _ ⟨_, h⟩ => h
  · refine ((Interface.laysLine_parse doc kept).and ((Interface.documentedBy_parse doc).weaken fun _ _ h => h.1)).conseq
      (fun _ _ h => h) ?_
    rintro d _ c ⟨⟨hlined, -⟩, hmembers, hheading⟩
    refine ⟨hlined, ?_⟩
    obtain ⟨seg, tail, rfl, hlies, -⟩ := hlined
    refine ⟨[], seg, tail, rfl, hlies.covers, ?_, fun _ => hheading⟩
    rw [memberNodes, List.map_map]
    exact hmembers
  · rintro n _ c hsort ⟨hlined, -⟩
    have hnone : n.memberNodes = [] := by
      cases n with
      | interface d => cases hsort
      | _ => rfl
    refine ⟨hlined, ?_⟩
    obtain ⟨seg, tail, rfl, hlies, -⟩ := hlined
    have hcovers := hlies.covers
    rw [label_tree] at hcovers
    rw [hnone]
    exact ⟨[], seg, tail, rfl, hcovers, trivial, absurd rfl⟩

/-- A comment adds nothing to what is waiting. -/
theorem waiting_parseComment {doc : Option String} (text : String) :
    Carries (fun read (c : Cursor Arena) => doc = docAmong read ∧ c.peek.kind = .comment text)
      (Parse.recover (parseComment text)) fun o read _ => (∀ n ∈ o, n.isSolid = false) ∧ doc = docAmong read := by
  have hcomment : Carries (fun read (c : Cursor Arena) => doc = docAmong read ∧ c.peek.kind = .comment text)
      (parseComment text) fun n read _ => n.isSolid = false ∧ doc = docAmong read := by
    refine .bind (.advance ?_) fun t => .bind ((Carries.behind (A := fun read => doc = docAmong read)
      (.unread fun _ => .lineEnd)).weaken ?_) fun _ => .enter ?_
    · rintro _ c ⟨-, hkind⟩
      simp [hkind]
    · rintro _ _ ⟨read, c, ⟨hdoc, hkind⟩, rfl, rfl, -⟩
      rw [docAmong_append, docTexts_singleton, hkind]
      exact hdoc
    · rintro _ _ ⟨old, new, rfl, hold, _, hnew, -⟩ _ _ _
      rw [docAmong_append, docTexts_of_newline hnew]
      exact ⟨rfl, hold⟩
  refine (Carries.recover hcomment).conseq (fun _ _ h => h) ?_
  rintro _ _ _ ⟨n, rfl, hn, hdoc⟩
  refine ⟨fun m hm => ?_, hdoc⟩
  cases hm
  exact hn

/-- What is read of a file, but for its comments, has the documentation in front of it, the first of it from
wherever the documentation that was waiting was collected. -/
theorem documentedBy_parseItems : ∀ (count : Nat) (doc : Option String),
    Carries (fun read (_ : Cursor Arena) => doc = docAmong read) (parseItems count doc) fun ns read _ =>
      DocumentedBy ((ns.filter isSolid).map documentable) read ∧
      ∀ n ∈ ns.filter isSolid, DocumentedIn n.tag.span (n.memberNodes.map documentable) read
  | 0, _ => .pure fun _ _ _ => ⟨trivial, List.forall_mem_nil _⟩
  | count + 1, doc => by
    refine .bind (.waiting false doc) fun doc => .bind .kind fun k => ?_
    split
    · exact .pure fun _ _ _ => ⟨trivial, List.forall_mem_nil _⟩
    · -- the comment is left out, and what was waiting goes on waiting
      refine .bind (waiting_parseComment _) fun first =>
        .bind (documentedBy_parseItems count doc).keep fun others => .pure ?_
      rintro read c ⟨hfirst, hothers⟩
      have hnone : first.toList.filter isSolid = [] := by
        rw [List.filter_eq_nil_iff]
        intro n hn
        rw [hfirst n (Option.mem_toList.mp hn)]
        exact Bool.false_ne_true
      rwa [List.filter_append, hnone, List.nil_append]
    · -- what was waiting is used up
      have hitem : Carries Unread (parseItem doc) fun n read (_ : Cursor Arena) =>
          (n.sort.takesDoc = true → n.doc? = doc) ∧ n.tree.Lined read :=
        ((documentedIn_parseItem doc).gives (gives_doc doc)).conseq (fun _ _ h => h) fun _ _ _ h => ⟨h.1.2, h.2.1⟩
      have hinside : Carries (fun read (_ : Cursor Arena) => doc = docAmong read) (Parse.recover (parseItem doc))
          fun o read _ => ∀ n ∈ o, n.isSolid = true ∧ DocumentedIn n.tag.span (n.memberNodes.map documentable) read := by
        refine (Carries.behind (A := fun _ => True) (.recover ((documentedIn_parseItem doc).gives (gives_doc doc)))).conseq
          (fun _ _ _ => trivial) ?_
        rintro _ _ _ ⟨old, new, rfl, -, n, rfl, ⟨hsolid, -⟩, -, hin⟩ m hm
        cases hm
        exact ⟨hsolid, hin.behind old⟩
      have hfirst := (Carries.documentedLast hitem).and hinside
      have hothers : Carries Unread (parseItems count none) _ :=
        (documentedBy_parseItems count none).weaken fun _ _ h => by rw [h]; rfl
      refine .bind (hfirst.weaken fun _ _ h => h.1) fun first =>
        .bind (Carries.behind (A := fun read => (∃ n, first = some n ∧ DocumentedLast n.documentable read) ∧
          ∀ n ∈ first, n.isSolid = true ∧ DocumentedIn n.tag.span (n.memberNodes.map documentable) read)
          hothers) fun others => .pure ?_
      rintro _ _ ⟨old, new, rfl, ⟨⟨n, rfl, hlast⟩, hin⟩, hnew, hnewIn⟩
      obtain ⟨hsolid, hin⟩ := hin n rfl
      have hns : ((some n).toList ++ others).filter isSolid = n :: others.filter isSolid := by
        rw [Option.toList_some, List.singleton_append, List.filter_cons_of_pos hsolid]
      rw [hns, List.map_cons]
      refine ⟨hnew.cons hlast, List.forall_mem_cons.mpr ⟨hin.before new, fun m hm => ?_⟩⟩
      exact (hnewIn m hm).behind old

end Node

/-- Of the trees that the tokens of a file are read as, those that are no comments have the documentation in front of
them, and so have the members of interfaces. -/
theorem parseTokens_documented {toks : List Token} {roots : List (Node Mark)} {nodes : Arena}
    (h : parseTokens #[] toks = .ok (roots, nodes)) :
    DocumentedBy ((roots.filter Node.isSolid).map Node.documentable) toks ∧
    ∀ n ∈ roots.filter Node.isSolid, DocumentedIn n.tag.span (n.memberNodes.map Node.documentable) toks := by
  obtain ⟨c, hok, hfaults, -⟩ := parseTokens_eq_ok h
  obtain ⟨read, hmoves, hby, hin⟩ :=
    (Node.documentedBy_parseItems _ none).run hok (congrArg List.length hfaults) (.nil _) rfl
  have hrest : toks = read ++ c.rest := hmoves.rest
  rw [hrest]
  exact ⟨hby.before c.rest, fun n hn => (hin n hn).before c.rest⟩

end QiIdl
