import QiIdl.Grammar.File
import QiIdl.Proofs.Ast.Laid
import QiIdl.Proofs.Ast.Lies

/-!
# How readers move over tokens

A reader moves the cursor over a stretch of tokens. `Carries A p B` follows it: `read` are the tokens read so far, from
wherever one started to count, and if `A` holds of them and of the cursor, then behind `p` the relation `B` holds of
what `p` gives, of the tokens read by then, and of the cursor. That is said only of runs in which nothing was
recovered from. So faults are counted, and a reader never takes one back, whatever held before.

A node takes its span from the token it starts with and from the last token read, and its number from the arena. So
what holds on the way is told of both: `Since kept start trees` says that the count began with a token at `start`, that
the trees made so far lie on the tokens read, and that the arena has grown by them since it held `kept`. Readers that
give whole trees are said to `Lays` them; such a reader is put behind others by `Carries.next`, and `Carries.close`
makes a node of the trees there are.
-/

namespace QiIdl

variable {σ : Type} {read : List Token} {c : Cursor σ} {t : Token} {k : TokenKind}

/-! ## Moving the cursor -/

namespace Cursor

/-- The cursor has been moved over some tokens. -/
structure Moves (c : Cursor σ) (seg : List Token) (c' : Cursor σ) : Prop where
  rest : c.rest = seg ++ c'.rest
  last : c'.last = (seg.getLast?.map Token.span).getD c.last

/-- The last of the tokens read is the one that the cursor has read last. -/
def Behind (read : List Token) (c : Cursor σ) : Prop := ∀ t ∈ read.getLast?, c.last = t.span

variable {c c' c'' : Cursor σ} {read seg more : List Token}

theorem Moves.refl (c : Cursor σ) : c.Moves [] c := ⟨rfl, rfl⟩

theorem Moves.trans (h : c.Moves seg c') (h' : c'.Moves more c'') : c.Moves (seg ++ more) c'' := by
  constructor
  · rw [h.rest, h'.rest, List.append_assoc]
  · rw [h'.last, h.last, List.getLast?_append]
    cases more.getLast? <;> rfl

theorem Behind.nil (c : Cursor σ) : Behind [] c := by
  intro t ht
  cases ht

theorem Behind.moves (h : Behind read c) (hmoves : c.Moves seg c') : Behind (read ++ seg) c' := by
  intro t ht
  rw [hmoves.last]
  rw [List.getLast?_append, Option.mem_def] at ht
  cases hseg : seg.getLast? with
  | none =>
    rw [hseg, Option.none_or] at ht
    exact h t ht
  | some u =>
    rw [hseg, Option.some_or] at ht
    cases ht
    rfl

/-- A token that is not the end of the file is there to be read. -/
theorem rest_eq_of_kind_peek (h : c.peek.kind ≠ .eof) : c.rest = c.peek :: c.rest.tail := by
  unfold peek at h ⊢
  cases hrest : c.rest with
  | nil =>
    rw [hrest] at h
    exact absurd rfl h
  | cons t rest => rfl

theorem moves_advance (h : c.peek.kind ≠ .eof) : c.Moves [c.peek] c.advance := by
  have hrest := rest_eq_of_kind_peek h
  have hadvance : c.advance = { c with rest := c.rest.tail, last := c.peek.span } := by
    unfold advance
    rw [hrest]
    simp [h]
  rw [hadvance]
  exact ⟨hrest, rfl⟩

theorem advance_of_eof (h : c.peek.kind = .eof) : c.advance = c := by
  unfold advance
  split
  · rename_i t rest hrest
    have : c.peek = t := by rw [peek, hrest]; rfl
    rw [if_pos (this ▸ h)]
  · rfl

theorem faults_advance (c : Cursor σ) : c.advance.faults = c.faults := by
  unfold advance
  split
  · split <;> rfl
  · rfl

theorem kept_advance (c : Cursor σ) : c.advance.kept = c.kept := by
  unfold advance
  split
  · split <;> rfl
  · rfl

end Cursor

/-! ## Documentation -/

/-- The line of documentation that a token of this kind is. -/
def TokenKind.docText? : TokenKind → Option String
  | docComment text => some text
  | _ => none

def docTexts (toks : List Token) : List String := toks.filterMap (·.kind.docText?)

@[simp] theorem docTexts_append (toks more : List Token) : docTexts (toks ++ more) = docTexts toks ++ docTexts more :=
  List.filterMap_append

theorem docTexts_singleton (t : Token) : docTexts [t] = t.kind.docText?.toList := by
  cases h : t.kind.docText? <;> simp [docTexts, h]

/-! ## Readers -/

/-- Behind tokens of which `A` holds, a reader gives and reads what `B` holds of, unless it recovers from a fault. -/
def Carries {β : Type} (A : List Token → Cursor σ → Prop) (p : Reading σ β) (B : β → List Token → Cursor σ → Prop) :
    Prop :=
  ∀ c : Cursor σ, match p c with
    | .ok b c' => c.faults.length ≤ c'.faults.length ∧ ∀ read, c.Behind read → A read c →
      c'.faults.length = c.faults.length → ∃ seg, c.Moves seg c' ∧ B b (read ++ seg) c'
    | .error _ c' => c.faults.length ≤ c'.faults.length

/-- Nothing has been read yet. -/
abbrev Unread (read : List Token) (_ : Cursor σ) : Prop := read = []

/-- Nothing has been read yet, and this is what is kept. -/
abbrev Fresh (kept : σ) (read : List Token) (c : Cursor σ) : Prop := read = [] ∧ c.kept = kept

namespace Carries

variable {β γ : Type} {p : Reading σ β} {f : β → Reading σ γ} {A A' : List Token → Cursor σ → Prop}
  {B B' : β → List Token → Cursor σ → Prop} {C : γ → List Token → Cursor σ → Prop}

/-- A reader that leaves the cursor where it is. -/
theorem still {b : Cursor σ → β} (hp : ∀ c, p c = .ok (b c) c) (h : ∀ read c, A read c → B (b c) read c) :
    Carries A p B := by
  intro c
  rw [hp]
  refine ⟨Nat.le_refl _, fun read _ hA _ => ⟨[], .refl c, ?_⟩⟩
  rw [List.append_nil]
  exact h read c hA

theorem pure {b : β} (h : ∀ read c, A read c → B b read c) : Carries A (Pure.pure b) B :=
  still (fun _ => rfl) h

theorem bind (hp : Carries A p B) (hf : ∀ b, Carries (B b) (f b) C) : Carries A (p >>= f) C := by
  intro c
  have hpc := hp c
  simp only [Bind.bind, EStateM.bind]
  cases h : p c with
  | error e c' =>
    rw [h] at hpc
    exact hpc
  | ok b c' =>
    rw [h] at hpc
    obtain ⟨hle, hB⟩ := hpc
    have hfc := hf b c'
    dsimp only
    cases h' : f b c' with
    | error e c'' =>
      rw [h'] at hfc
      exact Nat.le_trans hle hfc
    | ok g c'' =>
      rw [h'] at hfc
      obtain ⟨hle', hC⟩ := hfc
      refine ⟨Nat.le_trans hle hle', fun read hbehind hA hfaults => ?_⟩
      -- no fault at the end, so none in between
      obtain ⟨seg, hmoves, hBb⟩ := hB read hbehind hA (by omega)
      obtain ⟨more, hmoves', hCg⟩ := hC (read ++ seg) (hbehind.moves hmoves) hBb (by omega)
      rw [List.append_assoc] at hCg
      exact ⟨seg ++ more, hmoves.trans hmoves', hCg⟩

/-- What a reader carries holds behind each of its runs without a new fault. -/
theorem run {c c' : Cursor σ} {b : β} (hp : Carries A p B) (h : p c = .ok b c')
    (hfaults : c'.faults.length = c.faults.length) (hbehind : c.Behind read) (hA : A read c) :
    ∃ seg, c.Moves seg c' ∧ B b (read ++ seg) c' := by
  have hpc := hp c
  rw [h] at hpc
  exact hpc.2 read hbehind hA hfaults

/-- A reader that carries anything takes no faults back, so all that matters is what its runs without a new fault
do. -/
theorem of_run (hp : Carries A p B) (hrun : ∀ c b c', p c = .ok b c' → c'.faults.length = c.faults.length →
      ∀ read, c.Behind read → A' read c → ∃ seg, c.Moves seg c' ∧ B' b (read ++ seg) c') : Carries A' p B' := by
  intro c
  have hpc := hp c
  cases h : p c with
  | error e c' =>
    rw [h] at hpc
    exact hpc
  | ok b c' =>
    rw [h] at hpc
    exact ⟨hpc.1, fun read hbehind hA' hfaults => hrun c b c' h hfaults read hbehind hA'⟩

theorem conseq (hp : Carries A p B) (hA : ∀ read c, A' read c → A read c)
    (hB : ∀ b read c, B b read c → B' b read c) : Carries A' p B' := by
  refine hp.of_run fun c b c' h hfaults read hbehind hA' => ?_
  obtain ⟨seg, hmoves, hBb⟩ := hp.run h hfaults hbehind (hA read c hA')
  exact ⟨seg, hmoves, hB b _ c' hBb⟩

theorem weaken (hp : Carries A p B) (hA : ∀ read c, A' read c → A read c) : Carries A' p B :=
  hp.conseq hA fun _ _ _ h => h

/-- What is counted from the reader on can be counted from earlier on. -/
theorem afterWhere {G : Cursor σ → Prop} {B : σ → β → List Token → Cursor σ → Prop}
    (hp : ∀ kept, Carries (fun read c => Fresh kept read c ∧ G c) p (B kept)) (hA : ∀ read c, A read c → G c) :
    Carries A p fun b read c => ∃ old new c₀, read = old ++ new ∧ A old c₀ ∧ B c₀.kept b new c := by
  intro c
  have hpc := hp c.kept c
  cases h : p c with
  | error e c' =>
    rw [h] at hpc
    exact hpc
  | ok b c' =>
    rw [h] at hpc
    refine ⟨hpc.1, fun read _ hread hfaults => ?_⟩
    obtain ⟨seg, hmoves, hB⟩ := hpc.2 [] (.nil c) ⟨⟨rfl, rfl⟩, hA read c hread⟩ hfaults
    exact ⟨seg, hmoves, read, seg, c, rfl, hread, hB⟩

theorem after {B : σ → β → List Token → Cursor σ → Prop} (hp : ∀ kept, Carries (Fresh kept) p (B kept)) :
    Carries A p fun b read c => ∃ old new c₀, read = old ++ new ∧ A old c₀ ∧ B c₀.kept b new c :=
  afterWhere (G := fun _ => True) (fun kept => (hp kept).weaken fun _ _ h => h.1) fun _ _ _ => trivial

theorem behind {A : List Token → Prop} (hp : Carries Unread p B) :
    Carries (fun read _ => A read) p fun b read c => ∃ old new, read = old ++ new ∧ A old ∧ B b new c := by
  refine (after fun _ => hp.weaken fun _ _ h => h.1).conseq (fun _ _ h => h) ?_
  rintro _ _ _ ⟨old, new, _, hread, hold, hnew⟩
  exact ⟨old, new, hread, hold, hnew⟩

/-- What is kept need not be known. -/
theorem unread {B : σ → β → List Token → Cursor σ → Prop} (hp : ∀ kept, Carries (Fresh kept) p (B kept)) :
    Carries Unread p fun b read c => ∃ kept, B kept b read c := by
  refine (after hp).conseq (fun _ _ h => h) ?_
  rintro b _ c ⟨_, new, c₀, rfl, rfl, hB⟩
  exact ⟨c₀.kept, hB⟩

/-- Tokens that are read are no longer left. -/
theorem measured (hp : Carries A p B) (total : Nat) :
    Carries (fun read c => A read c ∧ read.length + c.rest.length < total) p
      fun b read c => B b read c ∧ read.length + c.rest.length < total := by
  refine hp.of_run fun c b c' h hfaults read hbehind hA => ?_
  obtain ⟨seg, hmoves, hB⟩ := hp.run h hfaults hbehind hA.1
  refine ⟨seg, hmoves, hB, ?_⟩
  have hrest := congrArg List.length hmoves.rest
  rw [List.length_append] at hrest ⊢
  omega

/-- Where a stretch is read, it starts with the token that was next. -/
theorem headed {G : Cursor σ → Prop} (hp : Carries (fun read c => read = [] ∧ G c) p B) :
    Carries (fun read c => (read = [] ∧ G c) ∧ c.peek = t) p fun b read c => B b read c ∧ ∀ u ∈ read.head?, u = t := by
  refine hp.of_run ?_
  rintro c b c' h hfaults _ hbehind ⟨⟨rfl, hG⟩, rfl⟩
  obtain ⟨seg, hmoves, hB⟩ := hp.run h hfaults hbehind ⟨rfl, hG⟩
  refine ⟨seg, hmoves, hB, fun u hu => ?_⟩
  rw [Cursor.peek, hmoves.rest]
  cases seg with
  | nil => cases hu
  | cons v seg => exact (Option.some.inj hu).symm

/-- What has nothing to do with the tokens still holds. -/
theorem keep {φ : Prop} (hp : Carries A p B) :
    Carries (fun read c => φ ∧ A read c) p fun b read c => φ ∧ B b read c := by
  refine hp.of_run fun c b c' h hfaults read hbehind hA => ?_
  obtain ⟨seg, hmoves, hB⟩ := hp.run h hfaults hbehind hA.2
  exact ⟨seg, hmoves, hA.1, hB⟩

/-- A reader of which only matters that it goes on. -/
theorem pass (hp : Carries Unread p B) : Carries A p fun _ _ _ => True :=
  (hp.behind (A := fun _ => True)).conseq (fun _ _ _ => trivial) fun _ _ _ _ => trivial

/-- Where a reader fails, whatever is wanted holds behind it. -/
theorem orFails {G : Cursor σ → Prop} (hp : Carries A p B) (hfails : ∀ c b c', p c = .ok b c' → ¬G c) :
    Carries (fun read c => A read c ∨ G c) p B := by
  refine hp.of_run fun c b c' h hfaults read hbehind hA => ?_
  rcases hA with hA | hG
  · exact hp.run h hfaults hbehind hA
  · exact absurd hG (hfails c b c' h)

/-- The tokens that a reader reads are known from where it leaves the cursor. -/
theorem and (hp : Carries A p B) (hp' : Carries A p B') : Carries A p fun b read c => B b read c ∧ B' b read c := by
  refine hp.of_run fun c b c' h hfaults read hbehind hA => ?_
  obtain ⟨seg, hmoves, hB⟩ := hp.run h hfaults hbehind hA
  obtain ⟨seg', hmoves', hB'⟩ := hp'.run h hfaults hbehind hA
  obtain rfl : seg = seg' := List.append_cancel_right (hmoves.rest.symm.trans hmoves'.rest)
  exact ⟨seg, hmoves, hB, hB'⟩

/-! ## Tokens -/

theorem failAt (error : SyntaxError) (span : Span) : Carries A (Parse.failAt error span) B := fun _ => Nat.le_refl _

theorem expected (what : String) : Carries A (Parse.expected what) B := fun _ => Nat.le_refl _

theorem look : Carries A Parse.look fun t read c => A read c ∧ c.peek = t :=
  still (fun _ => rfl) fun _ _ hA => ⟨hA, rfl⟩

theorem kind : Carries A Parse.kind fun k read c => A read c ∧ c.peek.kind = k :=
  still (fun _ => rfl) fun _ _ hA => ⟨hA, rfl⟩

theorem get : Carries A (MonadState.get : Reading σ (Cursor σ)) fun _ => A := still (fun _ => rfl) fun _ _ hA => hA

theorem left : Carries A Parse.left fun _ => A := still (fun _ => rfl) fun _ _ hA => hA

theorem spanFrom (start : Span) : Carries A (Parse.spanFrom start) fun s read c =>
    A read c ∧ ∀ t ∈ read.getLast?, s = start.merge t.span := by
  intro c
  refine ⟨Nat.le_refl _, fun read hbehind hA _ => ⟨[], .refl c, ?_⟩⟩
  rw [List.append_nil]
  exact ⟨hA, fun t ht => by rw [← hbehind t ht]⟩

/-- A token that is not the end of the file is read. -/
theorem modifyAdvance (hA : ∀ read c, A read c → c.peek.kind ≠ .eof) :
    Carries A (modify Cursor.advance : Reading σ Unit) fun _ read' c' =>
      ∃ read c, A read c ∧ read' = read ++ [c.peek] ∧ c'.kept = c.kept := by
  intro c
  refine ⟨Nat.le_of_eq (by rw [Cursor.faults_advance]), fun read _ h _ => ?_⟩
  exact ⟨[c.peek], Cursor.moves_advance (hA read c h), read, c, h, rfl, c.kept_advance⟩

theorem advance (hA : ∀ read c, A read c → c.peek.kind ≠ .eof) : Carries A Parse.advance fun t read' c' =>
    ∃ read c, A read c ∧ c.peek = t ∧ read' = read ++ [t] ∧ c'.kept = c.kept := by
  refine .bind look fun t => .bind (modifyAdvance fun read c h => hA read c h.1) fun _ => .pure ?_
  rintro _ _ ⟨read, c, ⟨h, rfl⟩, rfl, hkept⟩
  exact ⟨read, c, h, rfl, rfl, hkept⟩

theorem expect (hk : k ≠ .eof) (what : String) : Carries A (Parse.expect k what) fun t read' c' =>
    ∃ read c, A read c ∧ c.peek = t ∧ t.kind = k ∧ read' = read ++ [t] ∧ c'.kept = c.kept := by
  refine .bind kind fun k' => ?_
  split
  · rename_i h
    refine (advance ?_).conseq (fun _ _ h => h) ?_
    · rintro read c ⟨-, hpeek⟩
      rwa [hpeek, h]
    · rintro _ _ _ ⟨read, c, ⟨hA, hpeek⟩, rfl, rfl, hkept⟩
      exact ⟨read, c, hA, rfl, hpeek.trans h, rfl, hkept⟩
  · exact expected what

theorem accept (hk : k ≠ .eof) : Carries A (Parse.accept k) fun b read' c' =>
    if b then ∃ read c, A read c ∧ c.peek.kind = k ∧ read' = read ++ [c.peek] ∧ c'.kept = c.kept else A read' c' := by
  refine .bind kind fun k' => ?_
  split
  · rename_i h
    refine .bind (modifyAdvance ?_) fun _ => .pure ?_
    · rintro read c ⟨-, hpeek⟩
      rwa [hpeek, h]
    · rintro _ _ ⟨read, c, ⟨hA, hpeek⟩, rfl, hkept⟩
      exact ⟨read, c, hA, hpeek.trans h, rfl, hkept⟩
  · exact .pure fun _ _ h => h.1

/-- At the end of a line there is nothing but its end. -/
theorem lineEnd {kept : σ} : Carries (Fresh kept) Parse.lineEnd fun _ read c =>
    (∀ t ∈ read, t.kind = .newline) ∧ c.kept = kept := by
  refine .bind (accept (by nofun)) fun b => ?_
  split
  · refine .pure ?_
    rintro _ _ ⟨_, c, ⟨rfl, rfl⟩, hkind, rfl, hkept⟩
    exact ⟨List.forall_mem_singleton.mpr hkind, hkept⟩
  · refine .bind kind fun _ => ?_
    split
    · refine .pure ?_
      rintro _ _ ⟨⟨rfl, hkept⟩, -⟩
      exact ⟨List.forall_mem_nil _, hkept⟩
    · exact expected _

/-! ## Lines -/

theorem faults_nextLine (c : Cursor σ) : c.nextLine.faults = c.faults := by
  have hgo : ∀ (toks : List Token) (last : Span), (Cursor.nextLine.go c last toks).faults = c.faults := by
    intro toks
    induction toks with
    | nil => exact fun _ => rfl
    | cons t rest ih =>
      intro last
      rw [Cursor.nextLine.go]
      split
      · rfl
      · split
        · rfl
        · exact ih _
  exact hgo c.rest c.last

/-- What is tried succeeds, unless a fault is recovered from. -/
theorem recover (hp : Carries A p B) : Carries A (Parse.recover p) fun o read c => ∃ b, o = some b ∧ B b read c := by
  intro c
  have hpc := hp c
  cases h : p c with
  | ok b c' =>
    rw [h] at hpc
    simp only [Parse.recover, h]
    refine ⟨hpc.1, fun read hbehind hA hfaults => ?_⟩
    obtain ⟨seg, hmoves, hB⟩ := hpc.2 read hbehind hA hfaults
    exact ⟨seg, hmoves, b, rfl, hB⟩
  | error e c' =>
    rw [h] at hpc
    simp only [Parse.recover, h, faults_nextLine, List.length_append, List.length_singleton]
    refine ⟨by omega, fun _ _ _ hfaults => ?_⟩
    -- a fault has been added
    omega

/-- Some tokens are layout, with comments or without, and their documentation has been collected behind `doc`. -/
def Skips (comments : Bool) (doc : Option String) (read : List Token) (doc' : Option String) : Prop :=
  (∀ t ∈ read, t.kind.isLayout = true ∨ (comments = true ∧ ∃ text, t.kind = .comment text)) ∧
    doc' = (docTexts read).foldl joinDoc doc

theorem Skips.cons {comments : Bool} {doc next doc' : Option String} (h : Skips comments next read doc')
    (hnext : next = t.kind.docText?.toList.foldl joinDoc doc)
    (ht : t.kind.isLayout = true ∨ (comments = true ∧ ∃ text, t.kind = .comment text)) :
    Skips comments doc (t :: read) doc' := by
  refine ⟨List.forall_mem_cons.mpr ⟨ht, h.1⟩, ?_⟩
  rw [h.2, hnext, ← List.singleton_append, docTexts_append, docTexts_singleton, List.foldl_append]

/-- Layout is passed over, and the lines of documentation in it are collected. -/
theorem layout (kept : σ) (comments : Bool) (doc : Option String) :
    Carries (Fresh kept) (Parse.layout comments doc) fun doc' read c =>
      Skips comments doc read doc' ∧ c.kept = kept := by
  intro c
  have hgo (toks : List Token) (doc : Option String) (last : Span) :
      ∃ seg rest last', (Parse.layout.go comments c doc last toks).2 = { c with rest := rest, last := last' } ∧
        Cursor.Moves { c with rest := toks, last := last } seg { c with rest := rest, last := last' } ∧
        Skips comments doc seg (Parse.layout.go comments c doc last toks).1 := by
    have hstop (doc : Option String) : Skips comments doc [] doc := ⟨List.forall_mem_nil _, rfl⟩
    have hstep (t : Token) (rest : List Token) (last : Span) :
        Cursor.Moves { c with rest := t :: rest, last := last } [t] { c with rest := rest, last := t.span } := ⟨rfl, rfl⟩
    fun_induction Parse.layout.go comments c doc last toks with
    | case1 | case5 | case6 => exact ⟨[], _, _, rfl, .refl _, hstop _⟩
    | case2 doc last t rest hkind ih | case3 doc last t rest text hkind ih =>
      obtain ⟨seg, rest', last', hc, hmoves, hskips⟩ := ih
      exact ⟨t :: seg, rest', last', hc, (hstep t rest last).trans hmoves,
        hskips.cons (by rw [hkind]; rfl) (.inl (by rw [hkind]; rfl))⟩
    | case4 doc last t rest text hkind hcomments ih =>
      obtain ⟨seg, rest', last', hc, hmoves, hskips⟩ := ih
      exact ⟨t :: seg, rest', last', hc, (hstep t rest last).trans hmoves,
        hskips.cons (by rw [hkind]; rfl) (.inr ⟨hcomments, text, hkind⟩)⟩
  obtain ⟨seg, rest, last, hc, hmoves, hskips⟩ := hgo c.rest doc c.last
  have hlayout : Parse.layout comments doc c = .ok _ _ := congrArg (EStateM.Result.ok _) hc
  rw [hlayout]
  refine ⟨Nat.le_refl _, ?_⟩
  rintro read - ⟨rfl, rfl⟩ -
  exact ⟨seg, hmoves, hskips, rfl⟩

end Carries

/-! ## Results -/

/-- Whatever a reader gives has a property. -/
def Gives {β : Type} (p : Reading σ β) (P : β → Prop) : Prop := ∀ c b c', p c = .ok b c' → P b

namespace Gives

variable {β γ : Type} {p : Reading σ β} {f : β → Reading σ γ} {P : β → Prop} {Q : γ → Prop}

theorem pure {b : β} (h : P b) : Gives (Pure.pure b : Reading σ β) P := by
  rintro c _ _ ⟨⟩
  exact h

theorem bind (hp : Gives p P) (hf : ∀ b, P b → Gives (f b) Q) : Gives (p >>= f) Q := by
  intro c g c' hg
  obtain ⟨b, c₁, hb, hg⟩ := bind_eq_ok.mp hg
  exact hf b (hp c b c₁ hb) c₁ g c' hg

/-- Whatever is read first, what follows gives it. -/
theorem later (hf : ∀ b, Gives (f b) Q) : Gives (p >>= f) Q :=
  bind (P := fun _ => True) (fun _ _ _ _ => trivial) fun b _ => hf b

theorem enter {α : Type} [Keeping σ α] {span : Span} {build : α → β} {node : β → Node α} (h : ∀ tag, P (build tag)) :
    Gives (Parse.enter span build node : Reading σ β) P := by
  rintro c _ _ ⟨⟩
  exact h _

theorem failAt (error : SyntaxError) (span : Span) : Gives (Parse.failAt error span : Reading σ β) P := by
  intro c b c' h
  cases h

theorem expected (what : String) : Gives (Parse.expected what : Reading σ β) P := by
  intro c b c' h
  cases h

end Gives

theorem Carries.gives {β : Type} {p : Reading σ β} {A : List Token → Cursor σ → Prop}
    {B : β → List Token → Cursor σ → Prop} {P : β → Prop} (hp : Carries A p B) (hP : Gives p P) :
    Carries A p fun b read c => P b ∧ B b read c := by
  refine hp.of_run fun c b c' h hfaults read hbehind hA => ?_
  obtain ⟨seg, hmoves, hB⟩ := hp.run h hfaults hbehind hA
  exact ⟨seg, hmoves, hP c b c' h, hB⟩

/-! ## Trees -/

variable {β γ : Type} {kept : Arena} {c : Cursor Arena} {p : Reading Arena β} {f : β → Reading Arena γ}
  {C : γ → List Token → Cursor Arena → Prop} {trees : List (Tree (Node Mark))} {V : β → List (Tree (Node Mark))}
  {start : Option Span} {head : Span}

/-- Some trees lie on what has been read, and the arena has grown by them. -/
def Laying (kept : Arena) (trees : List (Tree (Node Mark))) (read : List Token) (c : Cursor Arena) : Prop :=
  Tree.LiesAll (·.tag.span) trees read ∧ Grows kept trees c.kept

/-- The trees of what a reader gives lie on the tokens that it reads, and the arena grows by them. -/
def Lays (p : Reading Arena β) (V : β → List (Tree (Node Mark))) : Prop :=
  ∀ kept, Carries (Fresh kept) p fun b => Laying kept (V b)

/-- The count began with a token at `start`, if that is known, and these trees lie on what has been read. -/
def Since (kept : Arena) (start : Option Span) (trees : List (Tree (Node Mark))) (read : List Token)
    (c : Cursor Arena) : Prop :=
  (∀ s ∈ start, s.Opens read) ∧ Laying kept trees read c

/-- Nothing has been read, and this token is next. -/
def Next (kept : Arena) (t : Token) (read : List Token) (c : Cursor Arena) : Prop := Fresh kept read c ∧ c.peek = t

/-- A tree lies on some tokens, but for the end of a line. -/
def Tree.Lined (t : Tree (Node Mark)) (toks : List Token) : Prop :=
  ∃ seg tail, toks = seg ++ tail ∧ t.Lies (·.tag.span) seg ∧ ∀ u ∈ tail, u.kind = .newline

/-- The tree of what a reader gives lies on the tokens that it reads but for the end of the line, and the arena grows
by it. -/
def LaysLine (p : Reading Arena β) (tree : β → Tree (Node Mark)) : Prop :=
  ∀ kept, Carries (Fresh kept) p fun b read c => (tree b).Lined read ∧ Grows kept [tree b] c.kept

theorem Since.of_singleton (ht : t.kind.isLayout = false) (hkept : c.kept = kept) :
    Since kept (some t.span) [] [t] c :=
  ⟨fun _ hs => Option.some.inj hs ▸ Span.opens_singleton ht, Tree.liesAll_nil, hkept ▸ .refl _⟩

theorem Since.covers {s : Span} (h : Since kept (some head) trees read c)
    (hs : ∀ t ∈ read.getLast?, s = head.merge t.span) : s.Covers read := by
  have hopens := h.1 head rfl
  cases read with
  | nil => cases hopens.first
  | cons u read =>
    have hlast : (u :: read).getLast? = some ((u :: read).getLast (List.cons_ne_nil u read)) :=
      List.getLast?_eq_some_getLast _
    exact ⟨head, hopens, _, hlast, hs _ hlast⟩

/-- A literal that was read as an expression lies where the expression does. -/
theorem Laying.unwrap {m : Mark} {l : Literal Mark} (h : Laying kept [(Expr.literal m l).tree] read c) :
    Laying kept [l.tree] read c :=
  ⟨h.1.below, h.2.unwrap⟩

theorem Lays.of_line {tree : β → Tree (Node Mark)} (h : LaysLine p tree) : Lays p fun b => [tree b] := by
  refine fun kept => (h kept).conseq (fun _ _ h => h) ?_
  rintro b _ c ⟨⟨seg, tail, rfl, hlies, -⟩, hgrows⟩
  exact ⟨hlies.all.before tail, hgrows⟩

/-- A reader of trees that has nothing to do with the start of a node. -/
theorem Lays.of_since (h : ∀ kept, Carries (Since kept none []) p fun b => Since kept none (V b)) : Lays p V := by
  refine fun kept => (h kept).conseq ?_ fun _ _ _ h => h.2
  rintro _ c ⟨rfl, rfl⟩
  exact ⟨fun _ hs => (nomatch hs), Tree.liesAll_nil, .refl _⟩

theorem Lays.since (hp : Lays p V) :
    Carries (Since kept start trees) p fun b => Since kept start (trees ++ V b) := by
  refine (Carries.after hp).conseq (fun _ _ h => h) ?_
  rintro b _ c ⟨old, new, c₀, rfl, hold, hnew⟩
  exact ⟨fun s hs => (hold.1 s hs).append new, hold.2.1.append hnew.1, hold.2.2.trans hnew.2⟩

theorem Lays.keep (hp : Lays p fun _ => []) :
    Carries (Since kept start trees) p fun _ => Since kept start trees := by
  refine hp.since.conseq (fun _ _ h => h) fun b read c h => ?_
  rwa [List.append_nil] at h

/-- A reader of trees starts them with the token that is next. -/
theorem Lays.first (hp : Lays p V) (hV : ∀ b, V b ≠ []) :
    Carries (Next kept t) p fun b => Since kept (some t.span) (V b) := by
  refine (Carries.headed (hp kept)).conseq (fun _ _ h => h) ?_
  rintro b read c ⟨hlaying, hhead⟩
  refine ⟨fun s hs => ?_, hlaying⟩
  have hsolid := hlaying.1.solid (hV b)
  refine ⟨?_, hsolid⟩
  cases read with
  | nil =>
    obtain ⟨u, hu, -⟩ := hsolid
    cases hu
  | cons u read => rw [List.head?_cons, Option.map_some, hhead u rfl, Option.some.inj hs]

namespace Carries

/-- Reads more trees. -/
theorem next (hp : Lays p V) (hf : ∀ b, Carries (Since kept start (trees ++ V b)) (f b) C) :
    Carries (Since kept start trees) (p >>= f) C := .bind hp.since hf

/-- Reads something that is not part of the tree. -/
theorem skip (hp : Lays p fun _ => []) (hf : ∀ b, Carries (Since kept start trees) (f b) C) :
    Carries (Since kept start trees) (p >>= f) C := .bind hp.keep hf

theorem done {b : β} (h : V b = trees) :
    Carries (Since kept start trees) (Pure.pure b) fun b => Since kept start (V b) := by
  refine .pure fun read c hsince => ?_
  rw [h]
  exact hsince

theorem finish {b : β} (h : V b = trees) :
    Carries (Since kept start trees) (Pure.pure b) fun b => Laying kept (V b) :=
  (done h).conseq (fun _ _ h => h) fun _ _ _ h => h.2

section Enter

variable {build : Mark → β} {node : β → Node Mark}

/-- Enters a node under the next number. -/
theorem enter {A : List Token → Cursor Arena → Prop} {B : β → List Token → Cursor Arena → Prop} {span : Span}
    (h : ∀ read c, A read c → ∀ m : Mark, m.id = c.kept.size → m.span = span →
      B (build m) read { c with kept := c.kept.push (node (build m)) }) :
    Carries A (Parse.enter span build node) B := by
  intro c
  refine ⟨Nat.le_refl _, fun read _ hA _ => ⟨[], ⟨rfl, rfl⟩, ?_⟩⟩
  rw [List.append_nil]
  exact h read c hA _ rfl rfl

/-- A node with its mark is above some trees, and it is no literal read as an expression. -/
structure Heads (n : Node Mark) (m : Mark) (trees : List (Tree (Node Mark))) : Prop where
  tag : n.tag = m
  tree : n.tree = .node n trees
  bare : (n.sort == .literalExpr) = false

theorem Heads.laying {n : Node Mark} {m : Mark} (hn : Heads n m trees) (h : Laying kept trees read c)
    (hid : m.id = c.kept.size) (hm : m.span.Covers read) :
    n.tree.Lies (·.tag.span) read ∧ Grows kept [n.tree] (c.kept.push n) := by
  constructor
  · have hcovers : n.tag.span.Covers read := by rwa [hn.tag]
    rw [hn.tree]
    exact ⟨hcovers, h.1⟩
  · refine h.2.push (by rw [hn.tag, hid]) hn.tree fun m' l hml => ?_
    have hbare := hn.bare
    rw [hml] at hbare
    cases hbare

/-- Makes a node of the trees there are, which goes on. -/
theorem closing (hn : ∀ m, Heads (node (build m)) m trees) :
    Carries (Since kept (some head) trees) (Parse.close head build node) fun b =>
      Since kept (some head) [(node b).tree] := by
  refine .bind (spanFrom head) fun s => .enter ?_
  rintro read c ⟨h, hs⟩ m hid rfl
  obtain ⟨hlies, hgrows⟩ := (hn m).laying h.2 hid (h.covers hs)
  exact ⟨h.1, hlies.all, hgrows⟩

/-- Makes a node of the trees there are. -/
theorem close (hn : ∀ m, Heads (node (build m)) m trees) :
    Carries (Since kept (some head) trees) (Parse.close head build node) fun b => Laying kept [(node b).tree] :=
  (closing hn).conseq (fun _ _ h => h) fun _ _ _ h => h.2

/-- Makes a node of the next token. -/
theorem leaf {g : β → Reading Arena γ} (tree : β → Tree (Node Mark)) (hk : k.isLayout = false)
    (hn : ∀ m, Heads (node (build m)) m []) (htree : ∀ m, tree (build m) = (node (build m)).tree)
    (hg : ∀ b, Carries (Since kept start (trees ++ [tree b])) (g b) C) :
    Carries (fun read c => Since kept start trees read c ∧ c.peek.kind = k)
      (Parse.advance >>= fun t => Parse.enter t.span build node >>= g) C := by
  refine .bind (advance ?_) fun t => .bind (.enter ?_) hg
  · rintro _ c ⟨-, rfl⟩
    exact TokenKind.ne_eof_of_not_isLayout hk
  · rintro _ c ⟨read, c₀, ⟨h, hkind⟩, rfl, rfl, hkept⟩ m hid hspan
    have hcovers : m.span.Covers [c₀.peek] := hspan ▸ Span.covers_singleton (hkind ▸ hk)
    obtain ⟨hlies, hgrows⟩ := (hn m).laying (c := c) ⟨Tree.liesAll_nil, .refl _⟩ hid hcovers
    rw [htree]
    refine ⟨fun s hs => (h.1 s hs).append _, h.2.1.append hlies.all, h.2.2.trans ?_⟩
    rw [← hkept]
    exact hgrows

/-- The line ends, and a node is made of the trees before. -/
theorem ended {span : Span} (hn : ∀ m, Heads (node (build m)) m trees) :
    Carries (fun read c => Laying kept trees read c ∧ span.Covers read)
      (Parse.lineEnd >>= fun _ => Parse.enter span build node) fun b read c =>
        (node b).tree.Lined read ∧ Grows kept [(node b).tree] c.kept := by
  refine .bind (after fun _ => lineEnd) fun _ => .enter ?_
  rintro _ c ⟨seg, tail, c₀, rfl, ⟨hlaying, hcovers⟩, htail, hkept⟩ m hid rfl
  rw [hkept] at hid ⊢
  obtain ⟨hlies, hgrows⟩ := (hn m).laying hlaying hid hcovers
  exact ⟨⟨seg, tail, rfl, hlies, htail⟩, hgrows⟩

/-- Makes a node of the trees there are, up to the end of the line. -/
theorem line (hn : ∀ m, Heads (node (build m)) m trees) :
    Carries (Since kept (some head) trees) (Parse.closeLine head build node) fun b read c =>
      (node b).tree.Lined read ∧ Grows kept [(node b).tree] c.kept := by
  refine .bind (spanFrom head) fun s => (ended hn).weaken ?_
  rintro read c ⟨h, hs⟩
  exact ⟨h.2, h.covers hs⟩

end Enter

/-- A node starts with a token of one kind. -/
theorem opening {what : String} {f : Token → Reading Arena γ} (hk : k.isLayout = false)
    (hf : ∀ t, Carries (Since kept (some t.span) []) (f t) C) :
    Carries (Fresh kept) (Parse.expect k what >>= f) C := by
  refine .bind (expect (TokenKind.ne_eof_of_not_isLayout hk) what) fun t => (hf t).weaken ?_
  rintro _ _ ⟨_, c, ⟨rfl, rfl⟩, rfl, rfl, rfl, hkept⟩
  exact .of_singleton hk hkept

section Next

variable {t : Token} {k : TokenKind}

/-- A node starts with the token that has been looked at. -/
theorem opened {f : Token → Reading Arena γ} (hk : k.isLayout = false)
    (hf : ∀ u, Carries (Since kept (some t.span) []) (f u) C) :
    Carries (fun read c => Next kept t read c ∧ c.peek.kind = k) (Parse.advance >>= f) C := by
  refine .bind (advance ?_) fun u => (hf u).weaken ?_
  · rintro _ c ⟨-, rfl⟩
    exact TokenKind.ne_eof_of_not_isLayout hk
  · rintro _ _ ⟨_, c, ⟨⟨⟨rfl, rfl⟩, rfl⟩, rfl⟩, rfl, rfl, hkept⟩
    exact .of_singleton hk hkept

/-- Of the token that has been looked at, the kind does not matter. -/
theorem looked {p : Reading Arena γ} (hp : Carries (Next kept t) p C) :
    Carries (fun read c => Next kept t read c ∧ c.peek.kind = k) p C :=
  hp.weaken fun _ _ h => h.1

theorem expectNext (hk : k.isLayout = false) (what : String) :
    Carries (Next kept t) (Parse.expect k what) fun _ => Since kept (some t.span) [] := by
  refine (expect (TokenKind.ne_eof_of_not_isLayout hk) what).conseq (fun _ _ h => h) ?_
  rintro u _ _ ⟨_, c, ⟨⟨rfl, rfl⟩, rfl⟩, rfl, rfl, rfl, hkept⟩
  exact .of_singleton hk hkept

/-- The node starts with a token of one kind, or that token is not next. -/
theorem acceptNext {f : Bool → Reading Arena γ} (hk : k.isLayout = false)
    (htrue : Carries (Since kept (some t.span) []) (f true) C) (hfalse : Carries (Next kept t) (f false) C) :
    Carries (Next kept t) (Parse.accept k >>= f) C := by
  refine .bind (accept (TokenKind.ne_eof_of_not_isLayout hk)) fun b => ?_
  cases b with
  | true =>
    refine htrue.weaken ?_
    rintro _ _ ⟨_, c, ⟨⟨rfl, rfl⟩, rfl⟩, rfl, rfl, hkept⟩
    exact .of_singleton hk hkept
  | false => exact hfalse.weaken fun _ _ h => h

theorem name (what : String) : Carries (Next kept t) (Parse.name what) fun _ => Since kept (some t.span) [] := by
  refine .bind kind fun k => ?_
  split
  · rename_i text
    refine .bind (modifyAdvance ?_) fun _ => .pure ?_
    · rintro _ c ⟨-, hkind⟩
      rw [hkind]
      nofun
    · rintro _ _ ⟨_, c, ⟨⟨⟨rfl, rfl⟩, rfl⟩, hkind⟩, rfl, hkept⟩
      exact .of_singleton (by rw [hkind]; rfl) hkept
  · exact expected what

end Next

end Carries

/-! ## Names and lists -/

/-- A reader makes no node. -/
def Steady (p : Reading Arena β) : Prop :=
  ∀ kept, Carries (fun _ c => c.kept = kept) p fun _ _ c => c.kept = kept

/-- A reader of which only matters that it moves the cursor. -/
theorem Lays.of_steady (hp : Steady p) : Lays p fun _ => [] := by
  refine fun kept => (hp kept).conseq (fun _ _ h => h.2) ?_
  rintro _ _ c rfl
  exact ⟨Tree.liesAll_nil, .refl _⟩

/-- A token is read, or it is the end of the file. -/
theorem Steady.modifyAdvance : Steady (modify Cursor.advance) := by
  intro kept c
  refine ⟨Nat.le_of_eq (by rw [Cursor.faults_advance]), fun read _ hkept _ => ?_⟩
  have hkept' : c.advance.kept = kept := c.kept_advance.trans hkept
  by_cases h : c.peek.kind = .eof
  · exact ⟨[], by rw [Cursor.advance_of_eof h]; exact .refl c, hkept'⟩
  · exact ⟨[c.peek], Cursor.moves_advance h, hkept'⟩

namespace Lays

theorem kind : Lays Parse.kind fun _ => [] :=
  .of_steady fun _ => Carries.kind.conseq (fun _ _ h => h) fun _ _ _ h => h.1

theorem left : Lays Parse.left fun _ => [] := .of_steady fun _ => .left

theorem get : Lays MonadState.get fun _ => [] := .of_steady fun _ => .get

theorem advance : Lays Parse.advance fun _ => [] :=
  .of_steady fun kept => .bind .look fun _ => .bind ((Steady.modifyAdvance kept).weaken fun _ _ h => h.1) fun _ =>
    .pure fun _ _ h => h

theorem accept (k : TokenKind) : Lays (Parse.accept k) fun _ => [] := by
  refine .of_steady fun kept => .bind .kind fun k' => .weaken ?_ fun _ _ h => h.1
  split
  · exact .bind (Steady.modifyAdvance kept) fun _ => .pure fun _ _ h => h
  · exact .pure fun _ _ h => h

theorem expect (k : TokenKind) (what : String) : Lays (Parse.expect k what) fun _ => [] := by
  refine .of_steady fun kept => .bind .kind fun k' => .weaken ?_ fun _ _ h => h.1
  split
  · exact .bind .look fun t => .bind ((Steady.modifyAdvance kept).weaken fun _ _ h => h.1) fun _ => .pure fun _ _ h => h
  · exact .expected what

theorem lineEnd : Lays Parse.lineEnd fun _ => [] := by
  refine fun kept => Carries.lineEnd.conseq (fun _ _ h => h) ?_
  rintro _ _ c ⟨-, rfl⟩
  exact ⟨Tree.liesAll_nil, .refl _⟩

theorem name (what : String) : Lays (Parse.name what) fun _ => [] := by
  refine .of_steady fun kept => .bind .kind fun k => .weaken ?_ fun _ _ h => h.1
  split
  · exact .bind (Steady.modifyAdvance kept) fun _ => .pure fun _ _ h => h
  · exact .expected what

theorem dottedRest : ∀ (count : Nat) (text : String), Lays (Parse.dottedRest count text) fun _ => []
  | 0, _ => .of_since fun _ => .done rfl
  | count + 1, text => by
    refine .of_since fun _ => .skip (accept _) fun _ => ?_
    split
    · exact .skip (name _) fun segment => (dottedRest count _).keep
    · exact .done rfl

theorem dottedName (what : String) : Lays (Parse.dottedName what) fun _ => [] :=
  .of_since fun _ => .skip (name what) fun _ => .skip left fun _ => (dottedRest _ _).keep

theorem separated (hp : Lays p V) : ∀ count, Lays (Parse.separated p count) fun bs => bs.flatMap V
  | 0 => .of_since fun _ => .done rfl
  | count + 1 => by
    refine .of_since fun _ => .next hp fun b => .skip (accept _) fun _ => ?_
    split
    · exact .next (separated hp count) fun bs => .done rfl
    · exact .done (by simp)

theorem enclosed (hp : Lays p V) (close : TokenKind) :
    ∀ count, Lays (Parse.enclosed p close count) fun bs => bs.flatMap V
  | 0 => .of_since fun _ => .done rfl
  | count + 1 => by
    refine .of_since fun _ => .skip kind fun _ => ?_
    split
    · exact .done rfl
    · refine .next hp fun b => .skip (accept _) fun _ => ?_
      split
      · exact .next (enclosed hp close count) fun bs => .done rfl
      · exact .done (by simp)

theorem separatedUnless (hp : Lays p V) (close : TokenKind) (count : Nat) :
    Lays (Parse.separatedUnless p close count) fun bs => bs.flatMap V := by
  refine .of_since fun _ => .skip kind fun _ => ?_
  split
  · exact .done rfl
  · exact (separated hp count).since

end Lays

theorem Carries.dottedName (what : String) :
    Carries (Next kept t) (Parse.dottedName what) fun _ => Since kept (some t.span) [] :=
  .bind (.name what) fun _ => .skip .left fun _ => (Lays.dottedRest _ _).keep

end QiIdl
