import QiIdl.Proofs.Grammar.ReadBack.Values

/-!
# Declarations and statements are read back

The tokens of a canonical declaration or statement are read as that declaration or statement, up to tags.
Documentation comes first: comment lines are joined to one text again. Then blocks, once for all: a block whose
items are read back is read back. The rest is one lemma per sort of line.
-/

namespace QiIdl

open Takes

variable {α : Type} {next ks : List TokenKind} {comments : Bool}

/-! ## Documentation -/

/-- The kind of a token that does not belong to the layout of lines. Plain comments count only where they are
passed over. -/
structure TokenKind.IsSolid (comments : Bool) (k : TokenKind) : Prop where
  newline : k ≠ .newline
  docComment : ∀ text, k ≠ .docComment text
  comment : comments = true → ∀ text, k ≠ .comment text

theorem layout_solid (h : (headKind next).IsSolid comments) (doc : Option String) :
    Takes (σ := Arena) (Parse.layout comments doc) [] next fun d => d = doc := by
  intro toks rest last faults kept htoks hrest
  rw [List.map_eq_nil_iff] at htoks
  subst htoks
  refine ⟨doc, last, kept, ?_, rfl⟩
  cases rest with
  | nil => rfl
  | cons t rest =>
    subst hrest
    have hkind : headKind ((t :: rest).map Token.kind) = t.kind := rfl
    rw [hkind] at h
    simp only [Parse.layout, List.nil_append, Parse.layout.go]
    split
    · rename_i hk
      exact absurd hk h.newline
    · rename_i hk
      exact absurd hk (h.docComment _)
    · rename_i hk
      rw [if_neg fun hc => h.comment hc _ hk]
    · rfl

/-- Of the cursor where it starts, the layout of lines only keeps the faults and the nodes. -/
theorem layout_go_congr {c c' : Cursor Arena} (h : c.faults = c'.faults) (hkept : c.kept = c'.kept) :
    ∀ (toks : List Token) (doc : Option String) (last : Span),
    Parse.layout.go comments c doc last toks = Parse.layout.go comments c' doc last toks
  | [], doc, last => by simp only [Parse.layout.go, h, hkept]
  | t :: toks, doc, last => by
    have ih : ∀ doc last, Parse.layout.go comments c doc last toks = Parse.layout.go comments c' doc last toks :=
      layout_go_congr h hkept toks
    simp only [Parse.layout.go, h, hkept, ih]

theorem layout_docLine {line : String} {doc : Option String} {Q : Option String → Prop}
    (h : Takes (σ := Arena) (Parse.layout comments (joinDoc doc line)) ks next Q) :
    Takes (σ := Arena) (Parse.layout comments doc) (.docComment line :: .newline :: ks) next Q := by
  intro toks rest last faults kept htoks hrest
  obtain ⟨first, toks, rfl, hfirst, htoks⟩ := List.map_eq_cons_iff.mp htoks
  obtain ⟨second, toks, rfl, hsecond, htoks⟩ := List.map_eq_cons_iff.mp htoks
  obtain ⟨d, last', kept', hok, hd⟩ := h toks rest second.span faults kept htoks hrest
  refine ⟨d, last', kept', ?_, hd⟩
  rw [← hok]
  simp only [Parse.layout, List.cons_append, Parse.layout.go, hfirst, hsecond]
  exact congrArg (fun r : Option String × Cursor Arena => EStateM.Result.ok r.1 r.2)
    (layout_go_congr (by rfl) (by rfl) _ _ _)

theorem joinDoc_lines (lines : List (List Char)) (text : List Char) :
    lines.foldl (fun doc line => joinDoc doc (String.ofList line)) (some (String.ofList text)) =
      some (String.ofList (['\n'].intercalate (text :: lines))) := by
  induction lines generalizing text with
  | nil => simp
  | cons line lines ih =>
    have hjoin : joinDoc (some (String.ofList text)) (String.ofList line) =
        some (String.ofList (text ++ '\n' :: line)) := by
      simp [joinDoc, toString, ← String.toList_inj]
    rw [List.foldl_cons, hjoin, ih]
    cases lines with
    | nil => simp [List.intercalate_cons_cons]
    | cons second lines => simp [List.intercalate_cons_cons]

/-- The comment lines of a documentation text are joined to the text again. -/
theorem takes_layout (hnext : (headKind next).IsSolid comments) (doc : Option String) :
    Takes (σ := Arena) (Parse.layout comments none) (docKinds doc) next fun d => d = doc := by
  have hlines : ∀ (lines : List (List Char)) (doc : Option String), Takes (σ := Arena) (Parse.layout comments doc)
      (lines.flatMap fun line => [.docComment (String.ofList line), .newline]) next
      fun d => d = lines.foldl (fun doc line => joinDoc doc (String.ofList line)) doc := by
    intro lines
    induction lines with
    | nil => exact layout_solid hnext
    | cons line lines ih => exact fun doc => layout_docLine (ih _)
  cases doc with
  | none => exact layout_solid hnext none
  | some text =>
    obtain ⟨line, lines, hpieces⟩ := List.exists_cons_of_ne_nil (Text.pieces_ne_nil '\n' text.toList)
    refine (hlines (Text.pieces '\n' text.toList) none).mono fun d hd => ?_
    rw [hd, hpieces, List.foldl_cons]
    show List.foldl _ (some (String.ofList line)) lines = some text
    rw [joinDoc_lines, ← hpieces, Text.intercalate_pieces, String.ofList_toList]

/-! ## Blocks -/

/-- The kind of a token that starts an item of a block. -/
structure TokenKind.StartsItem (k : TokenKind) : Prop extends k.IsSolid true where
  endKw : k ≠ .keyword .endKw
  eof : k ≠ .eof

theorem TokenKind.startsItem_keyword {keyword : Keyword} (h : keyword ≠ .endKw) :
    (TokenKind.keyword keyword).StartsItem :=
  ⟨⟨by simp, by simp, by simp⟩, by simpa using h, by simp⟩

theorem TokenKind.startsItem_ident (name : String) : (TokenKind.ident name).StartsItem :=
  ⟨⟨by simp, by simp, by simp⟩, by simp, by simp⟩

section Blocks

variable {β ι δ : Type} {item : Option String → Reading Arena β} {d : ι → Option String} {kinds : ι → List TokenKind}
  {seen : β → δ} {meant : ι → δ}

theorem length_le_flatMap {items : List ι} {f : ι → List TokenKind} (h : ∀ i ∈ items, f i ≠ []) :
    items.length ≤ (items.flatMap f).length := by
  induction items with
  | nil => exact Nat.zero_le _
  | cons i items ih =>
    have hi := List.length_pos_iff.mpr (h i (by simp))
    have := ih fun i hi => h i (by simp [hi])
    rw [List.flatMap_cons, List.length_append, List.length_cons]
    omega

/-- A block is read back if its items are. -/
theorem takes_parseBlock (name : String) : ∀ (items : List ι) (count : Nat), items.length < count →
    (∀ i ∈ items, kinds i ≠ [] ∧ (headKind (kinds i)).StartsItem) →
    (∀ i ∈ items, ∀ next, Takes (item (d i)) (kinds i) next fun b => seen b = meant i) →
    Takes (parseBlock name item count)
      ((items.flatMap fun i => docKinds (d i) ++ kinds i) ++ [.keyword .endKw, .newline]) next
      fun r => r.1.map seen = items.map meant
  | [], count + 1, _, _, _ => by
    refine .peek (layout_solid ⟨by simp [headKind], by simp [headKind], by simp [headKind]⟩ none) fun _ _ =>
      .onKind rfl <| .step (advance (by simp)) fun _ _ => .step lineEnd fun _ _ => .pure rfl
  | i :: items, count + 1, hlt, hstart, hitem => by
    obtain ⟨hne, hfirst⟩ := hstart i (by simp)
    have ih := takes_parseBlock name items count (Nat.lt_of_succ_lt_succ hlt) (fun i hi => hstart i (by simp [hi]))
      (fun i hi => hitem i (by simp [hi]))
    rw [List.flatMap_cons, List.append_assoc, List.append_assoc]
    have hhead (js : List TokenKind) : headKind (kinds i ++ js ++ next) = headKind (kinds i) := by
      rw [List.append_assoc, headKind_append hne]
    refine .bind (takes_layout ?_ (d i)) fun text htext => .onKind (hhead _) ?_
    · rw [hhead]
      exact hfirst.toIsSolid
    subst htext
    split
    · rename_i hk
      exact absurd hk hfirst.endKw
    · rename_i hk
      exact absurd hk hfirst.eof
    · refine .bind (recover (hitem i (by simp) _)) fun o ho => .last ih fun r hr => .pure ?_
      obtain ⟨b, rfl, hb⟩ := ho
      simp [hb, hr]

theorem takes_parseBody (name : String) (items : List ι)
    (hstart : ∀ i ∈ items, kinds i ≠ [] ∧ (headKind (kinds i)).StartsItem)
    (hitem : ∀ i ∈ items, ∀ next, Takes (item (d i)) (kinds i) next fun b => seen b = meant i) :
    Takes (parseBody name item)
      ((items.flatMap fun i => docKinds (d i) ++ kinds i) ++ [.keyword .endKw, .newline]) next
      fun r => r.1.map seen = items.map meant := by
  refine .peek left fun count hcount => takes_parseBlock name items _ ?_ hstart hitem
  have hle : items.length ≤ (items.flatMap fun i => docKinds (d i) ++ kinds i).length :=
    length_le_flatMap fun i hi => by simp [(hstart i hi).1]
  rw [hcount, List.length_append, List.length_append]
  omega

theorem takes_parseHeir {γ : Type} {keyword : Keyword} {name : String} {inherits : List String} {items : List ι}
    {build : Mark → String → List String → List β → γ} {node : γ → Node Mark} {R : γ → Prop}
    (hstart : ∀ i ∈ items, kinds i ≠ [] ∧ (headKind (kinds i)).StartsItem)
    (hitem : ∀ i ∈ items, ∀ next, Takes (item (d i)) (kinds i) next fun b => seen b = meant i)
    (hbuild : ∀ s bs, bs.map seen = items.map meant → R (build s name inherits bs)) :
    Takes (parseHeir keyword item build node)
      (blockKinds (.keyword keyword :: .ident name :: inheritsKinds inherits)
        (items.flatMap fun i => docKinds (d i) ++ kinds i)) next R := by
  rw [blockKinds, List.cons_append, List.cons_append]
  refine .step (expect (by simp) _) fun _ _ => .step (Takes.name _ _) fun n hn =>
    .bind (takes_parseInherits inherits (by simp [headKind])) fun ns hns => .step lineEnd fun _ _ =>
    .last (takes_parseBody _ items hstart hitem) fun r hr => .enter fun _ => ?_
  rw [hn, hns]
  exact hbuild _ _ hr

end Blocks

/-! ## Lines -/

/-- What tells the start of a type from what stands behind it tells whether there is a type. -/
theorem test_headKind_optionalType (test : TokenKind → Bool) (type : Option (TypeExpr α))
    (hstart : ∀ k, TypeExpr.startsWith k = true → test k = true) (hnext : test (headKind next) = false) :
    test (headKind (optionalTypeKinds type ++ next)) = type.isSome := by
  cases type with
  | none => exact hnext
  | some t =>
    refine hstart _ ?_
    show TypeExpr.startsWith (headKind (t.kinds ++ next)) = true
    rw [headKind_append t.startsWith_kinds.1]
    exact t.startsWith_kinds.2

theorem not_isLineEnd_of_startsWith : ∀ k, TypeExpr.startsWith k = true → (!k.isLineEnd) = true
  | .ident _, _ | .lbracket, _ | .lparen, _ => rfl

theorem Fn.takes_parse {d : Fn α} (h : d.tree.Every Node.Sound) :
    Takes (σ := Arena) (Fn.parse d.doc) d.kinds next fun d' => d'.erase = d.erase := by
  obtain ⟨-, hparams, hret⟩ := Fn.every_tree.mp h
  have harrow : headKind (optionalTypeKinds d.ret ++ .newline :: next) ≠ .arrow := by
    cases hd : d.ret with
    | none => simp [optionalTypeKinds, headKind]
    | some t =>
      show headKind (t.kinds ++ _) ≠ .arrow
      rw [headKind_append t.startsWith_kinds.1]
      exact t.headKind_ne rfl
  have hwanted : (false || !(headKind (optionalTypeKinds d.ret ++ .newline :: next)).isLineEnd) = d.ret.isSome :=
    test_headKind_optionalType (fun k => !k.isLineEnd) d.ret not_isLineEnd_of_startsWith rfl
  have hassoc : optionalTypeKinds d.ret ++ [.newline] ++ next = optionalTypeKinds d.ret ++ .newline :: next := by simp
  rw [kinds, List.cons_append, List.cons_append, List.append_assoc]
  exact .step (expect (by simp) _) fun _ _ => .step (Takes.name _ _) fun n hn =>
    .bind (Param.takes_parseList d.params hparams) fun ps hps => .declined (hassoc ▸ harrow) <| .onKind rfl <|
    .bind (TypeExpr.takes_parseIf (hassoc ▸ hwanted) hret (by simp [headKind])) fun ret hret =>
    .closeLine fun _ => by simp [erase, hn, hps, hret]

theorem Channel.takes_parse (keyword : Keyword) (node : Channel Mark → Node Mark) {d : Channel α}
    (h : ∀ t ∈ Param.trees d.params, t.Every Node.Sound) :
    Takes (σ := Arena) (Channel.parse keyword node d.doc) (d.kinds keyword) next fun d' => d'.erase = d.erase := by
  have hparams : ∀ p ∈ d.params, p.type.tree.Every Node.Sound := fun p hp => h _ (List.mem_map_of_mem hp)
  refine .step (expect (by simp) _) fun _ _ => .step (Takes.name _ _) fun n hn =>
    .bind (Param.takes_parseList d.params hparams) fun ps hps => .closeLine fun _ => ?_
  simp [erase, hn, hps]

theorem Member.takes_parse {d : Member α} (h : d.tree.Every Node.Sound) :
    Takes (σ := Arena) (Member.parse d.doc) d.kinds next fun d' => d'.erase = d.erase := by
  cases d with
  | fn d => exact .onKind rfl <| .last (Fn.takes_parse h) fun d' hd => .pure (congrArg Member.fn hd)
  | emit d =>
    exact .onKind rfl <| .last (Channel.takes_parse .emit .emit (Tree.every_node.mp h).2) fun d' hd =>
      .pure (congrArg Member.emit hd)
  | prop d =>
    exact .onKind rfl <| .last (Channel.takes_parse .prop .prop (Tree.every_node.mp h).2) fun d' hd =>
      .pure (congrArg Member.prop hd)

theorem headKind_initial (value : Option (Value α)) (next : List TokenKind) :
    headKind (initialKinds value ++ .newline :: next) = .eq ∨
      headKind (initialKinds value ++ .newline :: next) = .newline := by
  cases value with
  | none => exact .inr rfl
  | some v => exact .inl rfl

theorem headKind_initial_ne_dot (value : Option (Value α)) (next : List TokenKind) :
    headKind (initialKinds value ++ .newline :: next) ≠ .dot := by
  rcases headKind_initial value next with hk | hk <;> simp [hk]

theorem Field.takes_parse {d : Field α} (h : d.tree.Every Node.Sound) :
    Takes (σ := Arena) Field.parse d.kinds next fun d' => d'.erase = d.erase := by
  obtain ⟨⟨-, hproper⟩, htype, hvalue⟩ := Field.every_tree.mp h
  rw [kinds, List.cons_append, List.append_assoc]
  refine .peek look fun _ _ => .step (Takes.name _ _) fun n hn => .bind (d.type.takes_parse htype ?_) fun t ht =>
    .bind (Value.takes_parseInitial d.initial hvalue hproper) fun v hv =>
    .closeLine fun _ => by simp [erase, hn, ht, hv]
  rw [List.append_assoc]
  exact headKind_initial_ne_dot d.initial next

theorem EnumItem.takes_parse {d : EnumItem α} (h : d.tree.Every Node.Sound) :
    Takes (σ := Arena) EnumItem.parse d.kinds next fun d' => d'.erase = d.erase := by
  obtain ⟨⟨-, hproper⟩, hbelow⟩ := Tree.every_node.mp h
  obtain ⟨tag, name, meaning⟩ := d
  have hline {ks : List TokenKind} (hread : Takes (σ := Arena) EnumItem.parseMeaning ks (.newline :: next)
      fun r => r.1 = name ∧ r.2.erase = meaning.erase) :
      Takes (σ := Arena) EnumItem.parse (ks ++ [.newline]) next
        fun d' => d'.erase = EnumItem.erase ⟨tag, name, meaning⟩ :=
    .peek look fun _ _ => .bind hread fun r hr => .closeLine fun _ => by simp only [erase, hr]
  cases meaning with
  | const v =>
    exact hline <| .accepted (by simp) <| .step (Takes.name _ _) fun n hn => .step (expect (by simp) _) fun _ _ =>
      .last (v.takes_parse (hbelow _ (by simp)) hproper (v.follows_newline _)) fun v' hv =>
      .pure ⟨hn, congrArg EnumMeaning.const hv⟩
  | type t =>
    exact hline <| .declined (by simp [headKind]) <| .accepted (by simp) <|
      .bind (t.takes_parse (hbelow _ (by simp)) (by simp [headKind])) fun t' ht => .step (Takes.name _ _)
      fun n hn => .pure ⟨hn, congrArg EnumMeaning.type ht⟩

theorem ne_eq_of_startsWith : ∀ k, TypeExpr.startsWith k = true → decide (k ≠ .eq) = true
  | .ident _, _ | .lbracket, _ | .lparen, _ => by simp

theorem Const.takes_parse {d : Const α} (h : (Node.const d).tree.Every Node.Sound) :
    Takes (σ := Arena) Const.parse (Node.const d).kinds next
      fun d' => (Node.const d').erase = (Node.const d).erase := by
  obtain ⟨⟨-, hproper⟩, htype, hvalue⟩ := Node.every_const.mp h
  rw [Node.kinds, List.cons_append, List.cons_append, List.append_assoc, List.cons_append]
  refine .step (expect (by simp) _) fun _ _ => .step (Takes.name _ _) fun n hn => .onKind rfl <|
    .bind (TypeExpr.takes_parseIf ?_ htype (by simp [headKind])) fun t ht => .step (expect (by simp) _) fun _ _ =>
    .bind (d.value.takes_parse hvalue hproper (d.value.follows_newline _)) fun v hv =>
    .closeLine fun _ => by simp [Node.erase, hn, ht, hv]
  rw [List.append_assoc]
  exact test_headKind_optionalType (fun k => decide (k ≠ .eq)) d.type ne_eq_of_startsWith rfl

theorem Typedef.takes_parse {d : Typedef α} (h : d.type.tree.Every Node.Sound) :
    Takes (σ := Arena) Typedef.parse (Node.typedef d).kinds next
      fun d' => (Node.typedef d').erase = (Node.typedef d).erase := by
  rw [Node.kinds, List.cons_append, List.append_assoc]
  exact .step (expect (by simp) _) fun _ _ => .bind (d.type.takes_parse h (by simp [headKind])) fun t ht =>
    .step (Takes.name _ _) fun n hn => .closeLine fun _ => by simp [Node.erase, hn, ht]

theorem Var.takes_parse {d : Var α} (h : (Node.var d).tree.Every Node.Sound) :
    Takes (σ := Arena) Var.parse (Node.var d).kinds next fun d' => (Node.var d').erase = (Node.var d).erase := by
  obtain ⟨⟨-, hproper⟩, htype, hvalue⟩ := Node.every_var.mp h
  have hinitial := headKind_initial d.value next
  have hassoc : initialKinds d.value ++ [.newline] ++ next = initialKinds d.value ++ .newline :: next := by simp
  rw [Node.kinds, List.cons_append, List.cons_append, List.append_assoc]
  refine .step (expect (by simp) _) fun _ _ => .step (Takes.name _ _) fun n hn => .onKind rfl <|
    .bind (TypeExpr.takes_parseIf ?_ htype ?_) fun t ht =>
    .bind (Value.takes_parseInitial d.value hvalue hproper) fun v hv =>
    .closeLine fun _ => by simp [Node.erase, hn, ht, hv]
  · rw [List.append_assoc]
    refine test_headKind_optionalType (fun k => decide (k ≠ .eq ∧ ¬k.isLineEnd)) d.type ?_ ?_
    · intro k hk
      have hne := ne_eq_of_startsWith k hk
      have hend := not_isLineEnd_of_startsWith k hk
      simp_all
    · rw [hassoc]
      rcases hinitial with hk | hk <;> rw [hk] <;> rfl
  · rw [hassoc]
    exact headKind_initial_ne_dot d.value next

theorem takes_parsePackage (tag : α) (name : String) :
    Takes (σ := Arena) parsePackage (Node.package tag name).kinds next
      fun n => n.erase = (Node.package tag name).erase := by
  rw [Node.kinds, List.cons_append]
  exact .step (expect (by simp) _) fun _ _ => .bind (dottedName _ name (by simp [headKind])) fun n hn =>
    .closeLine fun _ => by simp [Node.erase, hn]

/-! ## Imports -/

theorem ImportScope.takes_names {listed : List String} (hne : listed ≠ []) :
    Takes (σ := Arena) ImportScope.parse (commaKinds (listed.map fun name => [.ident name])) (.newline :: next)
      fun scope => scope = .names listed := by
  obtain ⟨first, others, rfl⟩ := List.exists_cons_of_ne_nil hne
  cases others with
  | nil =>
    rw [List.map_singleton, commaKinds_singleton]
    exact .declined (by simp [headKind]) <| .step (Takes.name _ _) fun n hn => .declined (by simp [headKind]) <|
      .pure (by rw [hn])
  | cons second others =>
    rw [List.map_cons, List.map_cons, commaKinds_cons_cons]
    refine .declined (by simp [headKind]) <| .step (Takes.name _ _) fun n hn => .accepted (by simp) <|
      .peek left fun count hcount => ?_
    have hle := count_le_commaKinds fun m (_ : m ∈ second :: others) => List.cons_ne_nil (TokenKind.ident m) []
    have hcount : (second :: others).length ≤ count := by
      rw [hcount, List.length_append]
      exact Nat.le_add_right_of_le hle
    have hread : Takes (σ := Arena) (Parse.separated (Parse.name "imported name") count)
        (commaKinds ((second :: others).map fun name => [.ident name])) (.newline :: next)
        fun ns => ns.map id = (second :: others).map id :=
      separated (F := fun _ => True) (fun _ => trivial) trivial (by simp [headKind]) _ count (by simp) hcount
        fun m _ _ _ => Takes.name _ m
    refine .last hread fun ns hns => .pure ?_
    rw [List.map_id, List.map_id] at hns
    rw [hn, hns]

theorem Import.takes_from {package : String} {scope : ImportScope} (tag : α)
    (h : Takes (σ := Arena) ImportScope.parse ks (.newline :: next) fun s => s = scope) :
    Takes (σ := Arena) Import.parse
      (.keyword .fromKw :: (dottedKinds package ++ .keyword .importKw :: ks) ++ [.newline]) next
      fun d' => (Node.imports d').erase = (Node.imports ⟨tag, package, scope⟩).erase := by
  rw [List.cons_append, List.append_assoc, List.cons_append]
  exact .peek look fun _ _ => .declined (by simp [headKind]) <| .step (expect (by simp) _) fun _ _ =>
    .bind (dottedName _ _ (by simp [headKind])) fun p hp => .step (expect (by simp) _) fun _ _ => .bind h fun s hs =>
    .peek (.pure rfl) fun r hr => .closeLine fun _ => by simp [Node.erase, ← hr, hp, hs]

theorem Import.takes_parse {d : Import α} (h : d.scope.Sound) :
    Takes (σ := Arena) Import.parse d.kinds next fun d' => (Node.imports d').erase = (Node.imports d).erase := by
  obtain ⟨tag, package, scope⟩ := d
  cases scope with
  | package =>
    exact .peek look fun _ _ => .accepted (by simp) <| .bind (dottedName _ _ (by simp [headKind])) fun p hp =>
      .peek (.pure rfl) fun r hr => .closeLine fun _ => by simp [Node.erase, ← hr, hp]
  | all => exact takes_from tag (.accepted (by simp) (.pure rfl))
  | names listed => exact takes_from tag (ImportScope.takes_names h.1)

/-! ## Objects -/

/-- The two values of a connection may be written side by side. -/
def Node.Apart : Node α → Prop
  | .object (.connect _ sender receiver) => Separable sender receiver
  | _ => True

instance : DecidablePred (@Node.Apart α)
  | .object (.connect _ sender receiver) => inferInstanceAs (Decidable (Separable sender receiver))
  | .object (.property ..) | .object (.object ..) | .literal _ | .expr _ | .type _ | .interface _ | .fn _ | .emit _
  | .prop _ | .struct _ | .field _ | .const _ | .typedef _ | .enum _ | .enumItem _ | .package .. | .imports _
  | .var _ | .comment .. => .isTrue trivial

namespace ObjectItem

variable {name : String}

theorem startsItem_kinds (o : ObjectItem α) : o.kinds ≠ [] ∧ (headKind o.kinds).StartsItem := by
  cases o with
  | property | connect => exact ⟨List.cons_ne_nil _ _, TokenKind.startsItem_keyword (by simp)⟩
  | object => exact ⟨List.cons_ne_nil _ _, TokenKind.startsItem_keyword (by simp)⟩

theorem takes_parseProperty {tag : α} {value : Value α} (hvalue : value.tree.Every Node.Sound)
    (hproper : value.Proper) : Takes (σ := Arena) parseProperty (ObjectItem.property tag name value).kinds next
      fun o => o.erase = (ObjectItem.property tag name value).erase := by
  rw [kinds, List.cons_append, List.cons_append]
  exact .step (expect (by simp) _) fun _ _ => .step (Takes.name _ _) fun n hn =>
    .bind (value.takes_parse hvalue hproper (value.follows_newline _)) fun v hv =>
    .closeLine fun _ => by simp [erase, hn, hv]

theorem takes_parseConnect {tag : α} {sender receiver : Value α} (hsender : sender.tree.Every Node.Sound)
    (hreceiver : receiver.tree.Every Node.Sound) (hproper : sender.Proper ∧ receiver.Proper)
    (hapart : Separable sender receiver) :
    Takes (σ := Arena) parseConnect (ObjectItem.connect tag sender receiver).kinds next
      fun o => o.erase = (ObjectItem.connect tag sender receiver).erase := by
  rw [kinds, List.cons_append, List.append_assoc]
  have hfollows := hapart.follows hreceiver ([.newline] ++ next)
  rw [← List.append_assoc] at hfollows
  exact .step (expect (by simp) _) fun _ _ => .bind (sender.takes_parse hsender hproper.1 hfollows) fun s hs =>
    .bind (receiver.takes_parse hreceiver hproper.2 (receiver.follows_newline _)) fun r hr =>
    .closeLine fun _ => by simp [erase, hs, hr]

theorem takes_parseObject {item : Reading Arena (ObjectItem Mark)} {tag nameTag : α} {type : TypeExpr α}
    {body : List (ObjectItem α)} (htype : type.tree.Every Node.Sound)
    (hitem : ∀ o ∈ body, ∀ next, Takes item o.kinds next fun o' => o'.erase = o.erase) :
    Takes (parseObject item) (ObjectItem.object tag type nameTag name body).kinds next
      fun o => o.erase = (ObjectItem.object tag type nameTag name body).erase := by
  rw [kinds, blockKinds, kindsAll_eq_flatMap, List.cons_append, List.append_assoc]
  refine .step (expect (by simp) _) fun _ _ => .bind (type.takes_parse htype (by simp [headKind])) fun t ht =>
    .onKind rfl <| .step (advance (by simp)) fun _ _ => .peek (P := fun _ => True) (.enter fun _ => trivial)
    fun _ _ => .step lineEnd fun _ _ => .last
    (takes_parseBody (d := fun _ => none) _ body (fun o _ => o.startsItem_kinds) hitem) fun r hr => .enter fun _ => ?_
  simp [erase, eraseAll_eq_map, ht, hr]

theorem length_lt_kinds_object {tag nameTag : α} {type : TypeExpr α} {body : List (ObjectItem α)} {o : ObjectItem α}
    (h : o ∈ body) : o.kinds.length < (ObjectItem.object tag type nameTag name body).kinds.length := by
  have hle : o.kinds.length ≤ (body.flatMap kinds).length :=
    (List.sublist_flatten_of_mem (List.mem_map_of_mem h)).length_le
  rw [kinds, blockKinds, kindsAll_eq_flatMap]
  simp only [List.length_append, List.length_cons]
  omega

/-- A line of the body of an object is read back, nested objects included. -/
theorem takes_parseWithin : ∀ (count : Nat) (o : ObjectItem α), o.kinds.length ≤ count → o.tree.Every Node.Sound →
    o.tree.Every Node.Apart → ∀ next, Takes (σ := Arena) (parseWithin count) o.kinds next fun o' => o'.erase = o.erase
  | 0, o, hlen, _, _, _ => absurd (List.length_eq_zero_iff.mp (Nat.le_zero.mp hlen)) o.startsItem_kinds.1
  | count + 1, .property tag name value, _, ho, _, next => by
    obtain ⟨⟨-, hproper⟩, hvalue⟩ := every_property.mp ho
    exact .onKind rfl (takes_parseProperty hvalue hproper)
  | count + 1, .connect tag sender receiver, _, ho, hapart, next => by
    obtain ⟨hproper, hsender, hreceiver⟩ := every_connect.mp ho
    exact .onKind rfl (takes_parseConnect hsender hreceiver hproper hapart.label)
  | count + 1, .object tag type nameTag name body, hlen, ho, hapart, next => by
    obtain ⟨-, htype, -, hbody⟩ := every_object.mp ho
    obtain ⟨-, -, -, hbody'⟩ := every_object.mp hapart
    refine .onKind rfl (takes_parseObject htype fun o hmem =>
      takes_parseWithin count o ?_ (hbody o hmem) (hbody' o hmem))
    exact Nat.le_of_lt_succ (Nat.lt_of_lt_of_le (length_lt_kinds_object hmem) hlen)

theorem takes_parse {tag nameTag : α} {type : TypeExpr α} {body : List (ObjectItem α)}
    (ho : (ObjectItem.object tag type nameTag name body).tree.Every Node.Sound)
    (hapart : (ObjectItem.object tag type nameTag name body).tree.Every Node.Apart) :
    Takes (σ := Arena) ObjectItem.parse (ObjectItem.object tag type nameTag name body).kinds next
      fun o => o.erase = (ObjectItem.object tag type nameTag name body).erase := by
  obtain ⟨-, htype, -, hbody⟩ := every_object.mp ho
  obtain ⟨-, -, -, hbody'⟩ := every_object.mp hapart
  refine .peek left fun count hcount => takes_parseObject htype fun o hmem =>
    takes_parseWithin _ o ?_ (hbody o hmem) (hbody' o hmem)
  have : o.kinds.length < (ObjectItem.object tag type nameTag name body).kinds.length := length_lt_kinds_object hmem
  rw [hcount, List.length_append]
  omega

end ObjectItem

/-! ## Blocks at the top -/

theorem Interface.takes_parse {d : Interface α} (h : (Node.interface d).tree.Every Node.Sound) :
    Takes (σ := Arena) (Interface.parse d.doc) (Node.interface d).kinds next
      fun d' => (Node.interface d').erase = (Node.interface d).erase := by
  obtain ⟨-, hbelow⟩ := Tree.every_node.mp h
  refine takes_parseHeir (fun m _ => ?_) (fun m hm _ => Member.takes_parse (hbelow _ (List.mem_map_of_mem hm)))
    fun _ members hmembers => by simp [Node.erase, hmembers]
  cases m <;> exact ⟨List.cons_ne_nil _ _, TokenKind.startsItem_keyword (by simp)⟩

theorem Struct.takes_parse {d : Struct α} (h : (Node.struct d).tree.Every Node.Sound) :
    Takes (σ := Arena) (Struct.parse d.doc) (Node.struct d).kinds next
      fun d' => (Node.struct d').erase = (Node.struct d).erase := by
  obtain ⟨-, hbelow⟩ := Tree.every_node.mp h
  exact takes_parseHeir (d := fun _ => none) (fun f _ => ⟨List.cons_ne_nil _ _, TokenKind.startsItem_ident f.name⟩)
    (fun f hf _ => Field.takes_parse (hbelow _ (List.mem_map_of_mem hf)))
    fun _ fields hfields => by simp [Node.erase, hfields]

theorem Enum.takes_parse {d : Enum α} (h : (Node.enum d).tree.Every Node.Sound) :
    Takes (σ := Arena) (Enum.parse d.doc) (Node.enum d).kinds next
      fun d' => (Node.enum d').erase = (Node.enum d).erase := by
  obtain ⟨-, hbelow⟩ := Tree.every_node.mp h
  have hstart : ∀ i ∈ d.items, i.kinds ≠ [] ∧ (headKind i.kinds).StartsItem := by
    rintro ⟨tag, name, meaning⟩ _
    cases meaning <;> exact ⟨List.cons_ne_nil _ _, TokenKind.startsItem_keyword (by simp)⟩
  rw [Node.kinds, blockKinds]
  exact .step (expect (by simp) _) fun _ _ => .step (Takes.name _ _) fun n hn => .step lineEnd fun _ _ =>
    .last (takes_parseBody (d := fun _ => none) _ d.items hstart
      fun i hi _ => EnumItem.takes_parse (hbelow _ (List.mem_map_of_mem hi)))
    fun r hr => .enter fun _ => by simp [Node.erase, hn, hr]

end QiIdl
