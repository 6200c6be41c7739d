import QiIdl.Proofs.Text.Pieces
import QiIdl.Proofs.Token.Cut

/-!
# What a spelling is read as

A text that is put together from words, signs, numbers and strings is cut at its seams again, as long as no
part can be continued by what follows it. `Reads rest cs ks` says this of the text `cs` in front of `rest`: it is
cut into blanks and tokens of the kinds `ks`, without flaws, and the cut falls between `cs` and `rest`.

Texts are put together by `Reads.append`; what is left to say is how each single lexeme reads. The characters
that may follow any of them (`isBoundary`) are those that the canonical form puts there.
-/

namespace QiIdl

variable {c : Char}

/-! ## Words -/

namespace Text

theorem not_isAlphabetic_of_lt (h : c.toNat < 0x41) : isAlphabetic c = false := by
  rw [isAlphabetic, alphabeticRuns, Runs.contains, if_pos h]

theorem le_toNat_of_isWordStart (h : isWordStart c = true) : 0x41 ≤ c.toNat := by
  apply Nat.le_of_not_lt
  intro hlt
  rw [isWordStart, not_isAlphabetic_of_lt hlt, Bool.false_or, beq_iff_eq] at h
  subst h
  exact absurd hlt (by decide)

theorem isWordPart_of_isWordStart (h : isWordStart c = true) : isWordPart c = true := by
  rw [isWordStart, Bool.or_eq_true] at h
  rcases h with h | h <;> simp [isWordPart, h]

end Text

/-- A name: a word that is no keyword. -/
structure IsName (name : String) : Prop where
  word : ∃ c cs, name.toList = c :: cs ∧ Text.isWordStart c = true ∧ ∀ d ∈ cs, Text.isWordPart d = true
  free : Keyword.ofSpelling? name = none

/-- A dotted name: its segments are names. -/
def IsDotted (name : String) : Prop := ∀ segment ∈ Text.segments name, IsName segment

theorem IsName.isWordPart {name : String} (h : IsName name) : ∀ c ∈ name.toList, Text.isWordPart c = true := by
  obtain ⟨c, cs, hlist, hc, hcs⟩ := h.word
  intro d hd
  rw [hlist] at hd
  rcases List.mem_cons.mp hd with rfl | hd
  · exact Text.isWordPart_of_isWordStart hc
  · exact hcs d hd

theorem IsName.not_dot_mem {name : String} (h : IsName name) : '.' ∉ name.toList := by
  intro hdot
  exact absurd (h.isWordPart '.' hdot) (by decide)

theorem IsName.isDotted {name : String} (h : IsName name) : IsDotted name := by
  intro segment hs
  rw [Text.segments_of_not_mem h.not_dot_mem, List.mem_singleton] at hs
  rwa [hs]

theorem IsDotted.snoc {name segment : String} (h : IsDotted name) (hs : IsName segment) :
    IsDotted (name ++ "." ++ segment) := by
  intro s hmem
  rw [Text.segments_snoc hs.not_dot_mem, List.mem_append, List.mem_singleton] at hmem
  rcases hmem with hmem | rfl
  · exact h s hmem
  · exact hs

namespace Lexeme

variable {p : Char → Bool}

/-! ## Reading a text that is put together -/

/-- In front of `rest`, a text is cut into blanks and tokens of some kinds, and the cut falls right before `rest`. -/
inductive Reads (rest : List Char) : List Char → List TokenKind → Prop where
  | nil : Reads rest [] []
  | gap {c : Char} {cs : List Char} {ks : List TokenKind} :
    isGap c = true → Reads rest cs ks → Reads rest (c :: cs) ks
  | token {c : Char} {text cs : List Char} {k : TokenKind} {ks : List TokenKind} :
    k ≠ .newline → first c (text ++ (cs ++ rest)) = (ofToken (c :: text) k, cs ++ rest) →
    Reads rest cs ks → Reads rest (c :: (text ++ cs)) (k :: ks)

variable {rest cs ds : List Char} {k : TokenKind} {ks js : List TokenKind}

theorem Reads.append (hc : Reads (ds ++ rest) cs ks) (hd : Reads rest ds js) :
    Reads rest (cs ++ ds) (ks ++ js) := by
  induction hc with
  | nil => exact hd
  | gap hgap _ ih => exact .gap hgap ih
  | token hk hfirst _ ih =>
    rw [List.cons_append, List.append_assoc]
    refine .token hk ?_ ih
    rw [List.append_assoc]
    exact hfirst

/-- One lexeme. -/
theorem Reads.single {text : List Char} (hk : k ≠ .newline)
    (h : first c (text ++ rest) = (ofToken (c :: text) k, rest)) : Reads rest (c :: text) [k] := by
  have hread := Reads.token hk (show first c (text ++ ([] ++ rest)) = _ from h) .nil
  rwa [List.append_nil] at hread

/-- In front of `rest`, a text is one lexeme, which is a token of some kind. -/
def Spells (rest cs : List Char) (k : TokenKind) : Prop :=
  ∃ c text, cs = c :: text ∧ first c (text ++ rest) = (ofToken cs k, rest)

theorem Spells.reads (h : Spells rest cs k) (hk : k ≠ .newline) : Reads rest cs [k] := by
  obtain ⟨c, text, rfl, hfirst⟩ := h
  exact .single hk hfirst

theorem Reads.space : Reads rest [' '] [] := .gap rfl .nil

/-- The characters that stand behind words and numbers in a canonical text. -/
def isBoundary (c : Char) : Bool :=
  c == ' ' || c == '\n' || c == ',' || c == ':' || c == '(' || c == ')' || c == '[' || c == ']' || c == '\x7d'

/-- Whether what follows a word or a number in a canonical text cannot go on with it. -/
def Ends (rest : List Char) : Prop := rest.head?.all isBoundary = true

theorem isBoundary_cases (h : isBoundary c = true) : c ∈ [' ', '\n', ',', ':', '(', ')', '[', ']', '\x7d'] := by
  simp only [isBoundary, Bool.or_eq_true, beq_iff_eq] at h
  simp only [List.mem_cons, List.not_mem_nil, or_false]
  simpa only [or_assoc] using h

/-- The first character of what follows, if there is one, fails a test. -/
def Stops (p : Char → Bool) (rest : List Char) : Prop := ∀ c ∈ rest.head?, p c = false

theorem Ends.stops (hp : [' ', '\n', ',', ':', '(', ')', '[', ']', '\x7d'].all (fun c => !p c) = true) (h : Ends rest) :
    Stops p rest := by
  intro c hc
  rw [Ends, Option.all_eq_true] at h
  simpa using List.all_eq_true.mp hp c (isBoundary_cases (h c hc))

theorem takeWhile_append_of_stops (hcs : ∀ c ∈ cs, p c = true) (h : Stops p rest) : (cs ++ rest).takeWhile p = cs := by
  rw [List.takeWhile_append_of_pos hcs]
  cases rest with
  | nil => simp
  | cons c rest => simp [h c rfl]

theorem dropWhile_append_of_stops (hcs : ∀ c ∈ cs, p c = true) (h : Stops p rest) :
    (cs ++ rest).dropWhile p = rest := by
  rw [List.dropWhile_append_of_pos hcs]
  cases rest with
  | nil => rfl
  | cons c rest => simp [h c rfl]

/-! ## Words -/

theorem first_eq_word (hc : Text.isWordStart c = true) : first c cs = word c cs := by
  have hle := Text.le_toNat_of_isWordStart hc
  have hgap : isGap c = false := by
    simp only [isGap, Bool.or_eq_false_iff, beq_eq_false_iff_ne]
    refine ⟨⟨?_, ?_⟩, ?_⟩ <;> rintro rfl <;> exact absurd hle (by decide)
  have hdigit : c.isDigit = false := by
    rw [Bool.eq_false_iff]
    intro hd
    rw [Char.isDigit, Bool.and_eq_true, decide_eq_true_eq, decide_eq_true_eq] at hd
    have : c.toNat ≤ 57 := UInt32.le_iff_toNat_le.mp hd.2
    omega
  have hfeed : c ≠ '\n' := by rintro rfl; exact absurd hle (by decide)
  have hhash : c ≠ '#' := by rintro rfl; exact absurd hle (by decide)
  have hquote : c ≠ '"' := by rintro rfl; exact absurd hle (by decide)
  simp [first, hgap, hfeed, hhash, hquote, hdigit, hc]

theorem wordKind_ne_newline (name : String) : wordKind name ≠ .newline := by
  unfold wordKind
  split <;> simp

theorem Reads.word {c : Char} (hc : Text.isWordStart c = true) (hcs : ∀ d ∈ cs, Text.isWordPart d = true)
    (h : Stops Text.isWordPart rest) : Reads rest (c :: cs) [wordKind (String.ofList (c :: cs))] := by
  refine .single (wordKind_ne_newline _) ?_
  rw [first_eq_word hc, Lexeme.word, takeWhile_append_of_stops hcs h, dropWhile_append_of_stops hcs h]

theorem Ends.stops_isWordPart (h : Ends rest) : Stops Text.isWordPart rest :=
  h.stops (by decide)

theorem Reads.name {name : String} (hn : IsName name) (h : Stops Text.isWordPart rest) :
    Reads rest name.toList [.ident name] := by
  obtain ⟨c, cs, hlist, hc, hcs⟩ := hn.word
  have hread := Reads.word hc hcs h
  rw [← hlist, String.ofList_toList] at hread
  rwa [show wordKind name = .ident name by simp [wordKind, hn.free]] at hread

theorem Reads.keyword (keyword : Keyword) (h : Ends rest) :
    Reads rest keyword.spelling.toList [.keyword keyword] := by
  have hword : ∃ c cs, keyword.spelling.toList = c :: cs ∧ Text.isWordStart c = true ∧
      (∀ d ∈ cs, Text.isWordPart d = true) ∧ wordKind (String.ofList (c :: cs)) = .keyword keyword := by
    cases keyword <;> exact ⟨_, _, rfl, by decide, List.all_eq_true.mp (by decide), by decide⟩
  obtain ⟨c, cs, hlist, hc, hcs, hkind⟩ := hword
  rw [hlist, ← hkind]
  exact .word hc hcs h.stops_isWordPart

/-! ## Signs -/

theorem first_eq_sign {c : Char} (h : (shortSign? c).isSome = true) : first c cs = sign c cs := by
  have hplain : isGap c = false ∧ c ≠ '\n' ∧ c ≠ '#' ∧ c ≠ '"' ∧ c.isDigit = false ∧
      Text.isWordStart c = false := by
    unfold shortSign? at h
    split at h
    all_goals first | decide | cases h
  obtain ⟨hgap, hfeed, hhash, hquote, hdigit, hstart⟩ := hplain
  simp [first, hgap, hfeed, hhash, hquote, hdigit, hstart]

theorem shortSign?_ne_newline (h : shortSign? c = some k) : k ≠ .newline := by
  unfold shortSign? at h
  split at h <;> cases h <;> simp

theorem Reads.sign (h : shortSign? c = some k) (hlong : ∀ d ∈ rest.head?, longSign? c d = none) :
    Reads rest [c] [k] := by
  refine .single (shortSign?_ne_newline h) ?_
  rw [List.nil_append, first_eq_sign (by simp [h]), sign_eq_shortSign hlong, shortSign, h]

/-- A sign that no longer one starts with. -/
theorem Reads.bracket (h : shortSign? c = some k) (hlong : ∀ d, longSign? c d = none) : Reads rest [c] [k] :=
  .sign h fun d _ => hlong d

theorem Reads.lparen : Reads rest ['('] [.lparen] := .bracket rfl fun _ => rfl
theorem Reads.rparen : Reads rest [')'] [.rparen] := .bracket rfl fun _ => rfl
theorem Reads.lbracket : Reads rest ['['] [.lbracket] := .bracket rfl fun _ => rfl
theorem Reads.rbracket : Reads rest [']'] [.rbracket] := .bracket rfl fun _ => rfl
theorem Reads.lbrace : Reads rest ['\x7b'] [.lbrace] := .bracket rfl fun _ => rfl
theorem Reads.rbrace : Reads rest ['\x7d'] [.rbrace] := .bracket rfl fun _ => rfl
theorem Reads.dot : Reads rest ['.'] [.dot] := .bracket rfl fun _ => rfl
theorem Reads.comma : Reads rest [','] [.comma] := .bracket rfl fun _ => rfl
theorem Reads.colon : Reads rest [':'] [.colon] := .bracket rfl fun _ => rfl
theorem Reads.commaSpace : Reads rest [',', ' '] [.comma] := Reads.comma.append .space
theorem Reads.colonSpace : Reads rest [':', ' '] [.colon] := Reads.colon.append .space

/-- An operator between blanks. -/
theorem Reads.infixOperator {op : Operator} (h : op.isInfix = true) :
    Reads (' ' :: rest) op.spelling.toList [.operator op] := by
  cases op with
  | fetch | negate => cases h
  | _ =>
    refine .single (by simp) ?_
    rw [first_eq_sign rfl]
    rfl

/-- An operator right before its operand. -/
theorem Reads.prefixOperator {op : Operator} (h : op.isPrefix = true)
    (hrest : ∀ d ∈ rest.head?, d ≠ '>' ∧ d ≠ '=') : Reads rest op.spelling.toList [.operator op] := by
  cases op with
  | minus =>
    refine .sign (c := '-') rfl fun d hd => ?_
    have hne := (hrest d hd).1
    unfold longSign?
    split <;> simp_all
  | negate =>
    refine .sign (c := '!') rfl fun d hd => ?_
    have hne := (hrest d hd).2
    unfold longSign?
    split <;> simp_all
  | _ => cases h

/-! ## Lists and dotted names -/

/-- Some texts with a separator between them. `P` is what each of them asks of what follows it. -/
theorem Reads.intercalate {ι : Type} {P : List Char → Prop} {sep : List Char}
    (hsep : ∀ rest, Reads rest sep [k]) (hP : ∀ rest, P (sep ++ rest)) (items : List ι)
    (text : ι → List Char) (kinds : ι → List TokenKind)
    (hitem : ∀ i ∈ items, ∀ rest, P rest → Reads rest (text i) (kinds i)) (h : P rest) :
    Reads rest (sep.intercalate (items.map text)) ([k].intercalate (items.map kinds)) := by
  induction items with
  | nil => exact .nil
  | cons i items ih =>
    cases items with
    | nil =>
      simp only [List.map_cons, List.map_nil, List.intercalate_singleton]
      exact hitem i (by simp) rest h
    | cons j items =>
      simp only [List.map_cons, List.intercalate_cons_cons, List.append_assoc]
      refine .append (hitem i (by simp) _ ?_) (.append (hsep _) (ih fun i hi => hitem i (by simp_all)))
      rw [List.append_assoc]
      exact hP _

end Lexeme

/-- The kinds of the tokens of a dotted name. -/
def dottedKinds (name : String) : List TokenKind :=
  [.dot].intercalate ((Text.segments name).map fun segment => [.ident segment])

namespace Lexeme

variable {rest cs : List Char}

theorem Reads.dotted {name : String} (hn : IsDotted name) (h : Ends rest) :
    Reads rest name.toList (dottedKinds name) := by
  have htext : name.toList = ['.'].intercalate ((Text.segments name).map String.toList) := by
    have := congrArg String.toList (Text.intercalate_segments name)
    rw [String.toList_intercalate] at this
    exact this.symm
  rw [htext]
  refine .intercalate (P := Stops Text.isWordPart) (fun _ => .dot) ?_ _ _ _ ?_ h.stops_isWordPart
  · intro rest c hc
    cases hc
    decide
  · intro segment hs rest hrest
    exact .name (hn segment hs) hrest

/-! ## Strings -/

theorem escape?_eq_none_iff :
    Text.escape? c = none ↔ c ≠ '\n' ∧ c ≠ '\t' ∧ c ≠ '\r' ∧ c ≠ '\\' ∧ c ≠ '"' := by
  unfold Text.escape?
  split <;> simp_all

theorem stringBody_escape {e value : Char} (h : Text.unescape? e = some value) (before : Nat) :
    stringBody before ('\\' :: e :: rest) =
      (stringBody (before + 1 + e.utf8Size) rest).after ['\\', e] value [] := by
  rw [stringBody, h]

theorem stringBody_plain {c : Char} (h : Text.escape? c = none) (before : Nat) :
    stringBody before (c :: rest) = (stringBody (before + c.utf8Size) rest).after [c] c [] := by
  obtain ⟨hfeed, -, -, hslash, hquote⟩ := escape?_eq_none_iff.mp h
  rw [stringBody]
  · exact hquote
  · exact hfeed
  · exact fun h _ => hslash h
  · exact fun _ _ h _ => hslash h

theorem stringBody_quoted (before : Nat) (cs rest : List Char) :
    stringBody before (cs.flatMap Text.quoteChar ++ '"' :: rest) =
      ⟨cs.flatMap Text.quoteChar ++ ['"'], cs, [], true, rest⟩ := by
  induction cs generalizing before with
  | nil => simp [stringBody]
  | cons c cs ih =>
    simp only [List.flatMap_cons, List.append_assoc]
    cases hc : Text.escape? c with
    | none =>
      simp only [Text.quoteChar, hc, List.cons_append, List.nil_append]
      rw [stringBody_plain hc, ih]
      rfl
    | some e =>
      simp only [Text.quoteChar, hc, List.cons_append, List.nil_append]
      rw [stringBody_escape (Text.unescape?_escape? hc), ih]
      rfl

theorem Reads.quoted (value : String) : Reads rest (Text.quote value).toList [.string value] := by
  have hlist : (Text.quote value).toList = '"' :: (value.toList.flatMap Text.quoteChar ++ ['"']) := by
    simp [Text.quote, Text.quoteChars]
  rw [hlist]
  refine .single (by simp) ?_
  have hfirst : ∀ cs, first '"' cs = string cs := fun cs => by simp [first, isGap]
  rw [hfirst, string, List.append_assoc, List.singleton_append, stringBody_quoted]
  simp [ofToken]

end Lexeme
end QiIdl