import QiIdl.Format.Dump
import QiIdl.Proofs.Output.Writes

/-!
# Nested lists and their text

A dump is a text of brackets, words and quoted texts. `scan` cuts such a text into these pieces, one character at a
time: it is outside, in a word, in a quoted text, or behind a backslash in one. Blanks and line feeds only separate.

What a text says is a sequence of nested lists, and the pieces of nested lists determine them
(`Sexp.piecesAll_injective`): a list is closed where its own bracket is closed. `Says cs ps` says that the text `cs` is
cut into the pieces `ps` in front of anything that ends a word. The text of a nested list is cut into its own pieces if
each of its words is one (`Sexp.Plain`), on one line or on many.
-/

namespace QiIdl

/-! ## Pieces -/

/-- A piece of a text of nested lists. Of a quoted text, what it stands for. -/
inductive Piece where
  | opening
  | closing
  | word (text : List Char)
  | quoted (text : List Char)
deriving DecidableEq, Repr

namespace Piece

/-- Where a scan is: outside, in a word, in a quoted text, or behind a backslash there. Texts are kept backwards. -/
inductive Scan where
  | outside
  | word (read : List Char)
  | quoted (read : List Char)
  | escaped (read : List Char)
deriving DecidableEq, Repr

/-- Whether a character ends a word. -/
def isDelimiter (c : Char) : Bool := c == '(' || c == ')' || c == ' ' || c == '\n' || c == '"'

/-- A character outside. -/
def enter (c : Char) : List Piece × Scan :=
  if c = '(' then ([.opening], .outside)
  else if c = ')' then ([.closing], .outside)
  else if c = '"' then ([], .quoted [])
  else if c = ' ' ∨ c = '\n' then ([], .outside)
  else ([], .word [c])

/-- One character: the pieces that are complete then, and where the scan goes on. -/
def step : Scan → Char → List Piece × Scan
  | .outside, c => enter c
  | .word read, c => if isDelimiter c then (.word read.reverse :: (enter c).1, (enter c).2) else ([], .word (c :: read))
  | .quoted read, c =>
    if c = '"' then ([.quoted read.reverse], .outside)
    else if c = '\\' then ([], .escaped read)
    else ([], .quoted (c :: read))
  | .escaped read, c => ([], .quoted ((Text.unescape? c).getD c :: read))

/-- The pieces of a text, from where a scan is. What is open at the end counts as far as it goes. -/
def scanFrom : Scan → List Char → List Piece
  | .outside, [] => []
  | .word read, [] => [.word read.reverse]
  | .quoted read, [] | .escaped read, [] => [.quoted read.reverse]
  | s, c :: cs => (step s c).1 ++ scanFrom (step s c).2 cs

/-- The pieces of a text. -/
def scan (cs : List Char) : List Piece := scanFrom .outside cs

/-- What follows ends a word. -/
def Delimited (rest : List Char) : Prop := ∀ c ∈ rest.head?, isDelimiter c = true

/-- In front of what ends a word, a text is cut into some pieces. -/
def Says (cs : List Char) (ps : List Piece) : Prop := ∀ rest, Delimited rest → scan (cs ++ rest) = ps ++ scan rest

variable {cs ds rest : List Char} {ps qs : List Piece}

theorem scan_nil : scan [] = [] := rfl

theorem scan_opening : scan ('(' :: cs) = .opening :: scan cs := rfl

theorem scan_closing : scan (')' :: cs) = .closing :: scan cs := rfl

theorem scan_blank : scan (' ' :: cs) = scan cs := rfl

theorem scan_feed : scan ('\n' :: cs) = scan cs := rfl

theorem scan_blanks (n : Nat) : scan (List.replicate n ' ' ++ cs) = scan cs := by
  induction n with
  | zero => rfl
  | succ n ih => rw [List.replicate_succ, List.cons_append, scan_blank, ih]

theorem delimited_cons {c : Char} (h : isDelimiter c = true) : Delimited (c :: rest) := by
  intro d hd
  cases hd
  exact h

/-! ## Words and quoted texts -/

/-- A word: it is not empty and nothing in it ends a word. -/
def IsWord (cs : List Char) : Prop := cs ≠ [] ∧ ∀ c ∈ cs, isDelimiter c = false

-- the instance is named: a search may find the one that runs through all characters
instance (cs : List Char) : Decidable (IsWord cs) :=
  letI : Decidable (∀ c ∈ cs, isDelimiter c = false) := List.decidableBAll _ cs
  inferInstanceAs (Decidable (_ ∧ _))

theorem scanFrom_word (hcs : ∀ c ∈ cs, isDelimiter c = false) (hrest : Delimited rest) (read : List Char) :
    scanFrom (.word read) (cs ++ rest) = .word (read.reverse ++ cs) :: scan rest := by
  induction cs generalizing read with
  | nil =>
    cases rest with
    | nil => rw [List.append_nil, List.append_nil]; rfl
    | cons c rest =>
      have hc := hrest c rfl
      rw [List.nil_append, List.append_nil, scanFrom, step, if_pos hc]
      rfl
  | cons c cs ih =>
    obtain ⟨hc, hcs⟩ := List.forall_mem_cons.mp hcs
    rw [List.cons_append, scanFrom, step, if_neg (by rw [hc]; nofun), List.nil_append, ih hcs, List.reverse_cons,
      List.append_assoc]
    rfl

theorem says_word (h : IsWord cs) : Says cs [.word cs] := by
  intro rest hrest
  obtain ⟨hne, hcs⟩ := h
  obtain ⟨c, cs, rfl⟩ := List.exists_cons_of_ne_nil hne
  obtain ⟨hc, hcs⟩ := List.forall_mem_cons.mp hcs
  simp only [isDelimiter, Bool.or_eq_false_iff, beq_eq_false_iff_ne] at hc
  have henter : enter c = ([], .word [c]) := by simp [enter, hc]
  rw [List.cons_append, scan, scanFrom, step, henter]
  exact scanFrom_word hcs hrest [c]

/-- A character in a quoted text, as it is written there. -/
theorem scanFrom_quoteChar (c : Char) (read : List Char) :
    scanFrom (.quoted read) (Text.quoteChar c ++ cs) = scanFrom (.quoted (c :: read)) cs := by
  unfold Text.quoteChar
  cases he : Text.escape? c with
  | some e =>
    -- the backslash and the letter behind it stand for the character
    change scanFrom (.quoted ((Text.unescape? e).getD e :: read)) cs = _
    rw [Text.unescape?_escape? he, Option.getD_some]
  | none =>
    have hquote : c ≠ '"' := by
      rintro rfl
      cases he
    have hslash : c ≠ '\\' := by
      rintro rfl
      cases he
    change (step (.quoted read) c).1 ++ scanFrom (step (.quoted read) c).2 cs = _
    rw [step, if_neg hquote, if_neg hslash, List.nil_append]

theorem scanFrom_quoted (read : List Char) : scanFrom (.quoted read) (cs.flatMap Text.quoteChar ++ '"' :: rest) =
    .quoted (read.reverse ++ cs) :: scan rest := by
  induction cs generalizing read with
  | nil => rw [List.append_nil]; rfl
  | cons c cs ih =>
    rw [List.flatMap_cons, List.append_assoc, scanFrom_quoteChar, ih, List.reverse_cons, List.append_assoc]
    rfl

theorem says_quote (s : String) : Says (Text.quote s).toList [.quoted s.toList] := by
  intro rest _
  rw [Text.quote, String.toList_ofList, Text.quoteChars, List.cons_append, List.append_assoc]
  exact scanFrom_quoted []

/-! ## Texts put together -/

theorem Says.nil : Says [] [] := fun _ _ => rfl

/-- Texts with a blank between them. -/
theorem Says.blank (hc : Says cs ps) (hd : Says ds qs) : Says (cs ++ ' ' :: ds) (ps ++ qs) := by
  intro rest hrest
  rw [List.append_assoc, List.cons_append, hc _ (delimited_cons rfl), scan_blank, hd rest hrest, List.append_assoc]

/-- A text in brackets. -/
theorem Says.brackets (h : Says cs ps) : Says ('(' :: (cs ++ [')'])) (.opening :: (ps ++ [.closing])) := by
  intro rest _
  have hcs : scan (cs ++ ')' :: rest) = ps ++ scan (')' :: rest) := h _ (delimited_cons rfl)
  rw [List.cons_append, List.append_assoc, List.singleton_append, scan_opening, hcs, scan_closing, List.cons_append,
    List.append_assoc, List.singleton_append]

end Piece

/-! ## Nested lists -/

namespace Sexp

open Piece

mutual

/-- The pieces of a nested list. -/
def pieces : Sexp → List Piece
  | word text => [.word text.toList]
  | quoted text => [.quoted text.toList]
  | list items => .opening :: (piecesAll items ++ [.closing])

def piecesAll : List Sexp → List Piece
  | [] => []
  | s :: ss => pieces s ++ piecesAll ss

end

theorem piecesAll_eq_flatMap (ss : List Sexp) : piecesAll ss = ss.flatMap pieces := by
  induction ss with
  | nil => rfl
  | cons s ss ih => rw [piecesAll, ih, List.flatMap_cons]

theorem piecesAll_append (ss ts : List Sexp) : piecesAll (ss ++ ts) = piecesAll ss ++ piecesAll ts := by
  rw [piecesAll_eq_flatMap, List.flatMap_append, ← piecesAll_eq_flatMap, ← piecesAll_eq_flatMap]

mutual

/-- No nested list starts like another one. -/
theorem eq_of_pieces_append : ∀ (s t : Sexp) {r r' : List Piece}, s.pieces ++ r = t.pieces ++ r' → s = t ∧ r = r'
  | word a, t, r, r', h => by
    cases t with
    | word b =>
      simp only [pieces, List.cons_append, List.nil_append, List.cons.injEq, Piece.word.injEq, String.toList_inj] at h
      exact ⟨congrArg word h.1, h.2⟩
    | quoted b => simp [pieces] at h
    | list items => simp [pieces] at h
  | quoted a, t, r, r', h => by
    cases t with
    | word b => simp [pieces] at h
    | quoted b =>
      simp only [pieces, List.cons_append, List.nil_append, List.cons.injEq, Piece.quoted.injEq,
        String.toList_inj] at h
      exact ⟨congrArg quoted h.1, h.2⟩
    | list items => simp [pieces] at h
  | list items, t, r, r', h => by
    cases t with
    | word b => simp [pieces] at h
    | quoted b => simp [pieces] at h
    | list items' =>
      simp only [pieces, List.cons_append, List.append_assoc, List.nil_append, List.cons.injEq, true_and] at h
      obtain ⟨rfl, hr⟩ := eq_of_piecesAll_append items items' h
      exact ⟨rfl, hr⟩

/-- A bracket that closes tells where nested lists end. -/
theorem eq_of_piecesAll_append : ∀ (ss ts : List Sexp) {r r' : List Piece},
    piecesAll ss ++ .closing :: r = piecesAll ts ++ .closing :: r' → ss = ts ∧ r = r'
  | [], ts, r, r', h => by
    cases ts with
    | nil => simpa [piecesAll] using h
    | cons t ts => cases t <;> simp [piecesAll, pieces] at h
  | s :: ss, ts, r, r', h => by
    cases ts with
    | nil => cases s <;> simp [piecesAll, pieces] at h
    | cons t ts =>
      rw [piecesAll, piecesAll, List.append_assoc, List.append_assoc] at h
      obtain ⟨rfl, hrest⟩ := eq_of_pieces_append s t h
      obtain ⟨rfl, hr⟩ := eq_of_piecesAll_append ss ts hrest
      exact ⟨rfl, hr⟩

end

/-- Nested lists are known from their pieces. -/
theorem piecesAll_injective {ss ts : List Sexp} (h : piecesAll ss = piecesAll ts) : ss = ts := by
  have hclosed : piecesAll ss ++ [.closing] = piecesAll ts ++ [.closing] := by rw [h]
  exact (eq_of_piecesAll_append ss ts hclosed).1

/-! ## Texts of nested lists -/

mutual

/-- Each word of a nested list is one. -/
inductive Plain : Sexp → Prop
  | word {text : String} (h : IsWord text.toList) : Plain (word text)
  | quoted {text : String} : Plain (quoted text)
  | list {items : List Sexp} (h : PlainAll items) : Plain (list items)

inductive PlainAll : List Sexp → Prop
  | nil : PlainAll []
  | cons {s : Sexp} {ss : List Sexp} (h : Plain s) (hs : PlainAll ss) : PlainAll (s :: ss)

end

theorem Plain.headed {head : String} {items : List Sexp} (hhead : IsWord head.toList) (h : PlainAll items) :
    Plain (headed head items) :=
  .list (.cons (.word hhead) h)

theorem PlainAll.map {ι : Type} {is : List ι} {sexp : ι → Sexp} (h : ∀ i ∈ is, (sexp i).Plain) :
    PlainAll (is.map sexp) := by
  induction is with
  | nil => exact .nil
  | cons i is ih =>
    obtain ⟨hi, his⟩ := List.forall_mem_cons.mp h
    exact .cons hi (ih his)

theorem PlainAll.option {ι : Type} {o : Option ι} {sexp : ι → Sexp} (h : ∀ i ∈ o, (sexp i).Plain) :
    PlainAll (o.toList.map sexp) :=
  .map fun i hi => h i (Option.mem_toList.mp hi)

theorem PlainAll.append {ss ts : List Sexp} (hs : PlainAll ss) (ht : PlainAll ts) : PlainAll (ss ++ ts) := by
  induction ss with
  | nil => exact ht
  | cons s ss ih =>
    cases hs with
    | cons h hs => exact .cons h (ih hs)

mutual

/-- The text of a nested list is cut into its pieces. -/
theorem Plain.cut : ∀ {s : Sexp}, s.Plain → Says s.text.toList s.pieces
  | _, .word h => says_word h
  | _, .quoted => says_quote _
  | _, .list h => by
    have hitems := (PlainAll.cut h).brackets
    simpa [text, pieces, String.toList_append] using hitems

theorem PlainAll.cut : ∀ {ss : List Sexp}, PlainAll ss → Says (" ".intercalate (textAll ss)).toList (piecesAll ss)
  | _, .nil => Says.nil
  | _, .cons h .nil => by
    rw [textAll, textAll, String.intercalate_singleton, piecesAll, piecesAll, List.append_nil]
    exact Plain.cut h
  | _, .cons h (.cons h' hs) => by
    have hrest := (Plain.cut h).blank (PlainAll.cut (.cons h' hs))
    simp only [textAll, String.intercalate_cons_cons, String.toList_append, List.append_assoc] at hrest ⊢
    exact hrest

end

end Sexp

open Piece Sexp

/-! ## Lines of nested lists -/

/-- At the start of a line, these steps write lines that are cut into some pieces. -/
def Shows (steps : List Step) (ps : List Piece) : Prop :=
  Writes steps fun cs => ∀ rest, scan (cs ++ rest) = ps ++ scan rest

namespace Shows

variable {steps more : List Step} {ps qs : List Piece}

theorem nil : Shows [] [] := Writes.nil fun _ => rfl

theorem append (hs : Shows steps ps) (hm : Shows more qs) : Shows (steps ++ more) (ps ++ qs) := by
  refine Writes.append hs hm fun cs ds hcs hds rest => ?_
  rw [List.append_assoc, hcs, hds, List.append_assoc]

theorem flatMap {ι : Type} {items : List ι} {dump : ι → List Step} {sexp : ι → Sexp}
    (h : ∀ i ∈ items, Shows (dump i) (sexp i).pieces) : Shows (items.flatMap dump) (piecesAll (items.map sexp)) := by
  induction items with
  | nil => exact nil
  | cons i items ih =>
    obtain ⟨hi, hitems⟩ := List.forall_mem_cons.mp h
    rw [List.flatMap_cons, List.map_cons, piecesAll]
    exact hi.append (ih hitems)

theorem scope (hs : Shows steps ps) : Shows [.scope steps] ps := Writes.scope hs

theorem line {text : String} (hne : text ≠ "") (h : Says text.toList ps) : Shows [.writeLine text] ps := by
  refine Writes.writeLine hne fun margin rest => ?_
  rw [List.append_assoc, List.append_assoc, scan_blanks, List.singleton_append, h _ (delimited_cons rfl), scan_feed]

/-- Nested lists on lines of their own. -/
theorem lines {ss : List Sexp} (h : PlainAll ss) : Shows (dumpLines ss) (piecesAll ss) := by
  induction ss with
  | nil => exact nil
  | cons s ss ih =>
    cases h with
    | cons h hs =>
      refine append (line ?_ h.cut) (ih hs)
      intro hempty
      -- the empty text has no pieces, a nested list has some
      have hnone := h.cut [] nofun
      rw [hempty] at hnone
      cases s <;> simp [pieces, scan_nil] at hnone

theorem sexp {s : Sexp} (h : s.Plain) : Shows (dumpLines [s]) s.pieces := by
  have hline := lines (.cons h .nil)
  rwa [piecesAll, piecesAll, List.append_nil] at hline

/-- An open list with its first items, the others on lines of their own, and its end. -/
theorem block {head : String} {firsts items : List Sexp} {body : List Step} (hhead : IsWord head.toList)
    (hfirsts : PlainAll firsts) (hbody : Shows body (piecesAll items)) :
    Shows (dumpBlock head firsts body) (Sexp.headed head (firsts ++ items)).pieces := by
  have hopen : Shows [.writeLine ("(" ++ " ".intercalate (textAll (.word head :: firsts)))]
      (.opening :: piecesAll (.word head :: firsts)) := by
    refine line (by simp) fun rest hrest => ?_
    rw [String.toList_append]
    exact congrArg (Piece.opening :: ·) ((PlainAll.cons (.word hhead) hfirsts).cut rest hrest)
  have hclose : Shows [.writeLine ")"] [.closing] := line (by decide) fun rest _ => rfl
  rw [Sexp.headed, pieces, piecesAll, piecesAll_append, ← List.append_assoc]
  exact (hopen.append hbody.scope).append hclose

end Shows

end QiIdl
