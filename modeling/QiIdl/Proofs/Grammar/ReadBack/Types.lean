import QiIdl.Proofs.Grammar.Takes

/-!
# Types are read back

The tokens of a canonical type or parameter list are read as that type or list, up to tags. Readers recurse on a
count, so the induction is on the count, and the number of tokens bounds it.

What follows matters in two places. A dot behind a name would go on with the name; and a name before something
that starts a type is the name of a parameter, so an unnamed parameter has to end right there (`FollowsParam`).
-/

namespace QiIdl

open Takes

variable {α : Type} {next : List TokenKind}

/-! ## Types -/

theorem headKind_dottedKinds (name : String) (next : List TokenKind) :
    ∃ segment, headKind (dottedKinds name ++ next) = .ident segment := by
  obtain ⟨segment, ks, hk⟩ := dottedKinds_eq_cons name
  exact ⟨segment, by rw [hk]; rfl⟩

theorem TypeExpr.startsWith_kinds (t : TypeExpr α) :
    t.kinds ≠ [] ∧ TypeExpr.startsWith (headKind t.kinds) = true := by
  cases t with
  | builtin _ type =>
    obtain ⟨segment, ks, hk⟩ := dottedKinds_eq_cons type.spelling
    rw [kinds, hk]
    exact ⟨by simp, rfl⟩
  | custom _ name =>
    obtain ⟨segment, ks, hk⟩ := dottedKinds_eq_cons name
    rw [kinds, hk]
    exact ⟨by simp, rfl⟩
  | _ => exact ⟨by simp [kinds], rfl⟩

theorem TypeExpr.headKind_ne {k : TokenKind} (hk : TypeExpr.startsWith k = false) (t : TypeExpr α) :
    headKind t.kinds ≠ k := by
  rintro rfl
  rw [t.startsWith_kinds.2] at hk
  cases hk

theorem TypeExpr.erase_ofName_spelling (tag : α) (type : Builtin) :
    (ofName tag type.spelling).erase = .builtin () type := by
  rw [ofName, type.ofSpelling?_spelling]
  rfl

/-- A type that is a dotted name. -/
theorem TypeExpr.takes_name (count : Nat) {name : String} {next : List TokenKind} {t : TypeExpr Unit}
    (hnext : headKind next ≠ .dot) (ht : ∀ tag : Mark, (ofName tag name).erase = t) :
    Takes (σ := Arena) (TypeExpr.parseWithin (count + 1)) (dottedKinds name) next fun t' => t'.erase = t := by
  obtain ⟨segment, hsegment⟩ := headKind_dottedKinds name next
  refine .peek look fun _ _ => .onKind hsegment ?_
  exact .last (dottedName _ _ hnext) fun name' hname => .close fun _ => by rw [hname, ht]

/-- A type is read back before anything but a dot. -/
theorem TypeExpr.takes : ∀ (count : Nat) (t : TypeExpr α), t.kinds.length ≤ count → t.tree.Every Node.Sound →
    ∀ {next : List TokenKind}, headKind next ≠ .dot →
    Takes (σ := Arena) (TypeExpr.parseWithin count) t.kinds next fun t' => t'.erase = t.erase
  | 0, t, hlen, _, _, _ => absurd (List.length_eq_zero_iff.mp (Nat.le_zero.mp hlen)) t.startsWith_kinds.1
  | count + 1, .builtin _ type, _, _, _, hnext => takes_name count hnext fun tag => erase_ofName_spelling tag type
  | count + 1, .custom _ name, _, ht, _, hnext => takes_name count hnext fun _ => by
    rw [ofName, ht.label.2]
    rfl
  | count + 1, .list _ element, hlen, ht, next, hnext => by
    have hlen' : element.kinds.length ≤ count := by simp only [kinds, List.length_cons] at hlen; omega
    exact .peek look fun _ _ => .onKind rfl <| .step (advance (by simp)) fun _ _ => .accepted (by simp) <|
      .last (takes count element hlen' (every_list.mp ht).2 hnext) fun element' he =>
      .close fun _ => by simp only [erase, he]
  | count + 1, .map _ key value, hlen, ht, next, hnext => by
    obtain ⟨-, hkey, hvalue⟩ := every_map.mp ht
    have hlen' : key.kinds.length ≤ count ∧ value.kinds.length ≤ count := by
      simp only [kinds, List.length_cons, List.length_append] at hlen
      omega
    have hdecline : headKind (key.kinds ++ .rbracket :: value.kinds ++ next) ≠ .rbracket := by
      rw [List.append_assoc, headKind_append key.startsWith_kinds.1]
      exact headKind_ne rfl key
    exact .peek look fun _ _ => .onKind rfl <| .step (advance (by simp)) fun _ _ => .declined hdecline <|
      .bind (takes count key hlen'.1 hkey (by simp [headKind])) fun key' hk => .step (expect (by simp) _) fun _ _ =>
      .last (takes count value hlen'.2 hvalue hnext) fun value' hv => .close fun _ => by simp only [erase, hk, hv]
  | count + 1, .tuple _ elements, hlen, ht, next, hnext => by
    obtain ⟨-, helements⟩ := every_tuple.mp ht
    simp only [kinds, kindsAll_eq_map, List.length_cons, List.length_append, List.length_nil] at hlen
    have hcount := count_le_commaKinds fun (t : TypeExpr α) (_ : t ∈ elements) => t.startsWith_kinds.1
    rw [kinds, kindsAll_eq_map]
    refine .peek look fun _ _ => .onKind rfl <| .step (advance (by simp)) fun _ _ => .bind
      (separatedUnless (F := fun l => headKind l ≠ .dot) (by simp [headKind]) (by simp [headKind]) (by simp) count
        (by omega) (fun t _ => t.startsWith_kinds.1) (fun t _ => headKind_ne rfl t)
        fun t hmem l hl => takes count t ?_ (helements t hmem) hl)
      fun elements' he => .step (expect (by simp) _) fun _ _ => .close fun _ => ?_
    · have := length_le_commaKinds (List.mem_map_of_mem (f := kinds) hmem)
      omega
    · simp only [erase, eraseAll_eq_map, he]

theorem TypeExpr.takes_parse (t : TypeExpr α) (ht : t.tree.Every Node.Sound) (hnext : headKind next ≠ .dot) :
    Takes (σ := Arena) TypeExpr.parse t.kinds next fun t' => t'.erase = t.erase := by
  refine .peek left fun count hcount => takes _ t ?_ ht hnext
  rw [hcount, List.length_append]
  omega

/-- A type that may be missing is read back where it is looked for just if it is there. -/
theorem TypeExpr.takes_parseIf {type : Option (TypeExpr α)} {wanted : Bool} (hwanted : wanted = type.isSome)
    (ht : ∀ t ∈ type, t.tree.Every Node.Sound) (hnext : headKind next ≠ .dot) :
    Takes (σ := Arena) (TypeExpr.parseIf wanted) (optionalTypeKinds type) next
      fun t => t.map erase = type.map erase := by
  subst hwanted
  cases type with
  | none => exact .pure rfl
  | some t => exact .last (t.takes_parse (ht t rfl) hnext) fun t' ht' => .pure (congrArg some ht')

/-! ## Parameters -/

/-- What may stand behind a parameter. -/
def FollowsParam (next : List TokenKind) : Prop := headKind next = .comma ∨ headKind next = .rparen

theorem FollowsParam.ne_nil (h : FollowsParam next) : next ≠ [] := by
  rintro rfl
  rcases h with h | h <;> cases h

theorem FollowsParam.startsWith (h : FollowsParam next) : TypeExpr.startsWith (headKind next) = false := by
  rcases h with h | h <;> rw [h] <;> rfl

/-- Behind a name no type starts, so that the name is not taken for the name of a parameter. -/
theorem startsWith_behind_name (name : String) (h : FollowsParam next) :
    TypeExpr.startsWith (headKind ((dottedKinds name ++ next).drop 1)) = false := by
  obtain ⟨segment, segments, hs⟩ := List.exists_cons_of_ne_nil (Text.segments_ne_nil name)
  rw [dottedKinds_eq hs]
  cases segments with
  | nil => exact h.startsWith
  | cons _ _ => rfl

theorem TypeExpr.startsWith_second (t : TypeExpr α) {name : String} (ht : headKind t.kinds = .ident name)
    (h : FollowsParam next) : TypeExpr.startsWith (headKind ((t.kinds ++ next).drop 1)) = false := by
  cases t with
  | builtin _ type => exact startsWith_behind_name _ h
  | custom _ name => exact startsWith_behind_name _ h
  | _ => cases ht

theorem Param.takes (p : Param α) (hp : p.type.tree.Every Node.Sound) (hnext : FollowsParam next) :
    Takes (σ := Arena) Param.parse p.kinds next fun p' => p'.erase = p.erase := by
  have hdot : headKind next ≠ .dot := by rcases hnext with h | h <;> rw [h] <;> simp
  have hlen : 0 < next.length := List.length_pos_iff.mpr hnext.ne_nil
  obtain ⟨name, type⟩ := p
  cases name with
  | some name =>
    refine .peek get fun c hc => ?_
    obtain ⟨hpeek, hsecond⟩ := hc
    have hfirst : c.peek.kind = .ident name := hpeek
    have hstarts : TypeExpr.startsWith c.peekSecond.kind = true := by
      rw [hsecond (by simp [Param.kinds]; omega)]
      show TypeExpr.startsWith (headKind (type.kinds ++ next)) = true
      rw [headKind_append type.startsWith_kinds.1]
      exact type.startsWith_kinds.2
    simp only [hfirst, hstarts, if_true]
    exact .step (advance (by simp)) fun _ _ => .last (type.takes_parse hp hdot) fun type' ht =>
      .pure (by simp [Param.erase, ht])
  | none =>
    have hread : Takes (σ := Arena) (do let type ← TypeExpr.parse; Pure.pure (⟨none, type⟩ : Param Mark))
        type.kinds next
        fun p' => p'.erase = Param.erase ⟨none, type⟩ :=
      .last (type.takes_parse hp hdot) fun type' ht => .pure (by simp [Param.erase, ht])
    refine .peek get fun c hc => ?_
    obtain ⟨hpeek, hsecond⟩ := hc
    split
    · next name hname =>
      have hfirst : headKind type.kinds = .ident name := by
        rw [← hname, hpeek, ← headKind_append type.startsWith_kinds.1]
        rfl
      have htwo : 1 < (type.kinds ++ next).length := by
        have := List.length_pos_iff.mpr type.startsWith_kinds.1
        rw [List.length_append]
        omega
      have hsecond : TypeExpr.startsWith c.peekSecond.kind = false := by
        rw [hsecond htwo]
        exact type.startsWith_second hfirst hnext
      rw [hsecond]
      exact hread
    · exact hread

theorem Param.takes_parseList (params : List (Param α)) (hparams : ∀ p ∈ params, p.type.tree.Every Node.Sound) :
    Takes (σ := Arena) Param.parseList (Param.kindsAll params) next
      fun ps => ps.map Param.erase = params.map Param.erase := by
  have hkinds : ∀ p : Param α, p.kinds ≠ [] ∧ headKind p.kinds ≠ .rparen := by
    rintro ⟨name, type⟩
    cases name with
    | some name => exact ⟨List.cons_ne_nil _ _, by simp [kinds, headKind]⟩
    | none => exact ⟨type.startsWith_kinds.1, TypeExpr.headKind_ne rfl type⟩
  refine .step (expect (by simp) _) fun _ _ => ?_
  cases params with
  | nil => exact .accepted (by simp) (.pure rfl)
  | cons p params =>
    have hfirst : headKind (commaKinds ((p :: params).map kinds) ++ [.rparen] ++ next) ≠ .rparen := by
      rw [List.append_assoc, headKind_commaKinds (hkinds p).1]
      exact (hkinds p).2
    refine .declined hfirst (.peek left fun count hcount => ?_)
    have hle := count_le_commaKinds fun q (_ : q ∈ p :: params) => (hkinds q).1
    refine .bind (separated (F := FollowsParam) (fun _ => .inl rfl) (.inr rfl) (by simp [headKind]) _ count (by simp) ?_
      fun p hp l hl => p.takes (hparams p hp) hl) fun ps hps => .step (expect (by simp) _) fun _ _ => .pure hps
    rw [hcount]
    simp only [List.length_append]
    omega

theorem takes_parseInherits (names : List String) (hnext : headKind next ≠ .lparen) :
    Takes (σ := Arena) parseInherits (inheritsKinds names) next fun ns => ns = names := by
  cases names with
  | nil => exact .declined hnext (.pure rfl)
  | cons name names =>
    have hkinds : ∀ n, dottedKinds n ≠ [] ∧ headKind (dottedKinds n) ≠ .rparen := by
      intro n
      obtain ⟨segment, ks, hk⟩ := dottedKinds_eq_cons n
      rw [hk]
      exact ⟨List.cons_ne_nil _ _, by simp [headKind]⟩
    refine .accepted (by simp) (.peek left fun count hcount => ?_)
    have hle := count_le_commaKinds fun n (_ : n ∈ name :: names) => (hkinds n).1
    have hcount : (name :: names).length ≤ count := by
      rw [hcount]
      simp only [List.length_append]
      omega
    have hread : Takes (σ := Arena) (Parse.separatedUnless (Parse.dottedName "base name") .rparen count)
        (commaKinds ((name :: names).map dottedKinds)) (.rparen :: next)
        fun ns => ns.map id = (name :: names).map id :=
      separatedUnless (F := fun l => headKind l ≠ .dot) (by simp [headKind]) (by simp [headKind]) (by simp) count
        hcount (fun n _ => (hkinds n).1) (fun n _ => (hkinds n).2) fun n _ l hl => dottedName _ n hl
    refine .bind hread fun ns hns => .step (expect (by simp) _) fun _ _ => .pure ?_
    simpa using hns

end QiIdl
