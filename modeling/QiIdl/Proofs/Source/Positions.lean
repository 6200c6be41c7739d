import QiIdl.Proofs.Token.Tiling

/-!
# Lines and columns of offsets

The line of an offset is counted in the line feeds before it, and its column from the last of these. What is shown of a
fault is the line of its offset, which is found by splitting the text at line feeds, with a caret at the column.

Both come from one split of the text at the line of the offset (`exists_line`): what stands before the line ends in a
line feed or is empty, the line has none, and behind it is a line feed or nothing.
-/

namespace QiIdl

namespace Text

/-- The bytes of a text. -/
def bytes (source : String) : List UInt8 := source.toByteArray.data.toList

def encoded (cs : List Char) : List UInt8 := cs.flatMap String.utf8EncodeChar

theorem bytes_eq (source : String) : bytes source = encoded source.toList := by
  rw [bytes, ← String.utf8Encode_toList, List.utf8Encode, List.data_toByteArray]
  rfl

theorem encoded_append (cs ds : List Char) : encoded (cs ++ ds) = encoded cs ++ encoded ds := List.flatMap_append

theorem length_encoded (cs : List Char) : (encoded cs).length = byteLength cs := by
  induction cs with
  | nil => rfl
  | cons c cs ih =>
    rw [encoded, List.flatMap_cons, List.length_append, String.length_utf8EncodeChar, byteLength, ← ih]
    rfl

/-- A line feed is one byte, and no other character has that byte. -/
theorem feed_not_mem_utf8EncodeChar {c : Char} (h : c ≠ '\n') : 10 ∉ String.utf8EncodeChar c := by
  have hval : c.val.toNat ≠ 10 := fun heq => h (Char.ext (UInt32.toNat_inj.mp heq))
  unfold String.utf8EncodeChar
  generalize c.val.toNat = v at hval
  simp only
  split_ifs <;> simp [← UInt8.toNat_inj] <;> omega

theorem count_encoded (cs : List Char) : (encoded cs).count 10 = cs.count '\n' := by
  induction cs with
  | nil => rfl
  | cons c cs ih =>
    rw [encoded, List.flatMap_cons, List.count_append, ← encoded, ih, List.count_cons, Nat.add_comm]
    by_cases hc : c = '\n'
    · rw [hc]
      rfl
    · rw [List.count_eq_zero.mpr (feed_not_mem_utf8EncodeChar hc), if_neg (by simpa using hc)]

/-- Where the last line of some bytes starts: just behind the last line feed, or at zero. -/
def lineStart (bs : List UInt8) : Nat := bs.length - (bs.reverse.takeWhile (· != 10)).length

theorem lineStart_append {bs cs : List UInt8} (h : 10 ∉ cs) : lineStart (bs ++ cs) = lineStart bs := by
  have hcs : ∀ b ∈ cs.reverse, (b != 10) = true := by
    intro b hb
    rw [bne_iff_ne]
    rintro rfl
    exact h (List.mem_reverse.mp hb)
  rw [lineStart, List.reverse_append, List.takeWhile_append_of_pos hcs]
  simp only [List.length_append, List.length_reverse, lineStart]
  omega

theorem lineStart_feed (bs : List UInt8) : lineStart (bs ++ [10]) = bs.length + 1 := by
  simp [lineStart]

theorem length_pieces (sep : Char) (cs : List Char) : (pieces sep cs).length = cs.count sep + 1 := by
  induction cs with
  | nil => rfl
  | cons c cs ih =>
    by_cases hc : c = sep
    · rw [hc, pieces_cons_sep, List.length_cons, ih, List.count_cons_self]
    · obtain ⟨p, ps, hp, hpc⟩ := pieces_cons_of_ne hc cs
      rw [hp] at ih
      rw [hpc, List.count_cons_of_ne hc]
      exact ih

/-- A line that is not the last was ended by a line feed. -/
theorem linesOfPieces_append (ps : List (List Char)) {qs : List (List Char)} (h : qs ≠ []) :
    linesOfPieces (ps ++ qs) = ps.map dropReturn ++ linesOfPieces qs := by
  induction ps with
  | nil => rfl
  | cons p ps ih =>
    obtain ⟨next, rest, hrest⟩ := List.exists_cons_of_ne_nil (List.append_ne_nil_of_right_ne_nil ps h)
    rw [hrest] at ih
    rw [List.cons_append, hrest, linesOfPieces, ih]
    · rfl
    · simp

end Text

/-! ## The line of an offset -/

/-- A text is split at the line of an offset. An offset behind the end of the text is on the last line. -/
structure LineAt (cs : List Char) (offset : Nat) (before line rest : List Char) : Prop where
  text : cs = before ++ (line ++ rest)
  starts : before = [] ∨ ∃ front, before = front ++ ['\n']
  unbroken : '\n' ∉ line
  le : byteLength before ≤ offset
  ends : rest = [] ∨ ∃ more, rest = '\n' :: more ∧ offset ≤ byteLength before + byteLength line

theorem exists_line (cs : List Char) (offset : Nat) : ∃ before line rest, LineAt cs offset before line rest := by
  have hfeed : '\n'.utf8Size = 1 := rfl
  induction cs generalizing offset with
  | nil => exact ⟨[], [], [], rfl, .inl rfl, List.not_mem_nil, Nat.zero_le _, .inl rfl⟩
  | cons c cs ih =>
    by_cases hc : c = '\n'
    · subst hc
      cases offset with
      | zero => exact ⟨[], [], '\n' :: cs, rfl, .inl rfl, List.not_mem_nil, Nat.le_refl 0, .inr ⟨cs, rfl, Nat.le_refl 0⟩⟩
      | succ offset =>
        obtain ⟨before, line, rest, rfl, hstarts, hline, hle, hends⟩ := ih offset
        refine ⟨'\n' :: before, line, rest, rfl, .inr ?_, hline, ?_, ?_⟩
        · rcases hstarts with rfl | ⟨front, rfl⟩
          · exact ⟨[], rfl⟩
          · exact ⟨'\n' :: front, rfl⟩
        · rw [byteLength, hfeed]
          omega
        · refine hends.imp_right ?_
          rintro ⟨more, rfl, hmore⟩
          refine ⟨more, rfl, ?_⟩
          rw [byteLength, hfeed]
          omega
    · -- the first line, if the offset is in its first character or the line of the offset in the rest is the first one
      obtain ⟨before, line, rest, rfl, hstarts, hline, hle, hends⟩ := ih (offset - c.utf8Size)
      have hcons : '\n' ∉ c :: line := by simp [hline, Ne.symm hc]
      rcases hstarts with rfl | ⟨front, rfl⟩
      · refine ⟨[], c :: line, rest, rfl, .inl rfl, hcons, Nat.zero_le _, hends.imp_right ?_⟩
        rintro ⟨more, rfl, hmore⟩
        refine ⟨more, rfl, ?_⟩
        simp only [byteLength] at hmore ⊢
        omega
      · refine ⟨c :: (front ++ ['\n']), line, rest, rfl, .inr ⟨c :: front, rfl⟩, hline, ?_, hends.imp_right ?_⟩
        · simp only [byteLength, byteLength_append, hfeed] at hle ⊢
          omega
        · rintro ⟨more, rfl, hmore⟩
          refine ⟨more, rfl, ?_⟩
          simp only [byteLength] at hmore ⊢
          omega

namespace LineIndex

theorem startsAfterFeeds_append (offset : Nat) (cs ds : List Char) : startsAfterFeeds offset (cs ++ ds) =
    startsAfterFeeds offset cs ++ startsAfterFeeds (offset + byteLength cs) ds := by
  induction cs generalizing offset with
  | nil => rfl
  | cons c cs ih =>
    simp only [List.cons_append, startsAfterFeeds, ih, byteLength, Nat.add_assoc]
    split <;> rfl

theorem startsAfterFeeds_of_not_mem {cs : List Char} (h : '\n' ∉ cs) (offset : Nat) :
    startsAfterFeeds offset cs = [] := by
  induction cs generalizing offset with
  | nil => rfl
  | cons c cs ih =>
    rw [List.mem_cons, not_or] at h
    rw [startsAfterFeeds, if_neg (Ne.symm h.1), ih h.2]

theorem length_startsAfterFeeds (offset : Nat) (cs : List Char) :
    (startsAfterFeeds offset cs).length = cs.count '\n' := by
  induction cs generalizing offset with
  | nil => rfl
  | cons c cs ih =>
    rw [startsAfterFeeds, List.count_cons, ← ih (offset + c.utf8Size)]
    split <;> simp_all

theorem startsAfterFeeds_le {offset : Nat} {cs : List Char} :
    ∀ start ∈ startsAfterFeeds offset cs, start ≤ offset + byteLength cs := by
  induction cs generalizing offset with
  | nil => exact List.forall_mem_nil _
  | cons c cs ih =>
    have hrest : ∀ start ∈ startsAfterFeeds (offset + c.utf8Size) cs, start ≤ offset + byteLength (c :: cs) := by
      rw [byteLength, ← Nat.add_assoc]
      exact ih
    rw [startsAfterFeeds]
    split
    · refine List.forall_mem_cons.mpr ⟨?_, hrest⟩
      rw [byteLength]
      omega
    · exact hrest

variable {cs before line rest : List Char} {offset : Nat}

/-- The starts up to an offset are those in front of its line, and that of the line. -/
theorem takeWhile_starts (h : LineAt cs offset before line rest) :
    (ofText cs).starts.takeWhile (· ≤ offset) = 0 :: startsAfterFeeds 0 before := by
  obtain ⟨rfl, -, hline, hle, hends⟩ := h
  have hbefore : ∀ start ∈ 0 :: startsAfterFeeds 0 before, decide (start ≤ offset) = true := by
    refine List.forall_mem_cons.mpr ⟨decide_eq_true (Nat.zero_le _), fun start hstart => decide_eq_true ?_⟩
    have := startsAfterFeeds_le start hstart
    omega
  have hrest : (startsAfterFeeds (byteLength before + byteLength line) rest).takeWhile (· ≤ offset) = [] := by
    rcases hends with rfl | ⟨more, rfl, hmore⟩
    · rfl
    · rw [startsAfterFeeds, if_pos rfl, List.takeWhile_cons_of_neg]
      have : '\n'.utf8Size = 1 := rfl
      simp only [decide_eq_true_iff]
      omega
  rw [ofText, startsAfterFeeds_append, startsAfterFeeds_append, startsAfterFeeds_of_not_mem hline, Nat.zero_add,
    List.nil_append, ← List.cons_append, List.takeWhile_append_of_pos hbefore, hrest, List.append_nil]

theorem getLast?_starts (h : LineAt cs offset before line rest) :
    (0 :: startsAfterFeeds 0 before).getLast? = some (byteLength before) := by
  rcases h.starts with rfl | ⟨front, rfl⟩
  · rfl
  · rw [startsAfterFeeds_append, byteLength_append, Nat.zero_add]
    exact List.getLast?_concat (l := 0 :: startsAfterFeeds 0 front)

theorem position_eq (h : LineAt cs offset before line rest) : (ofText cs).position offset =
    .ofCounts (before.count '\n' + 1) (offset - byteLength before + 1) := by
  simp only [position, takeWhile_starts h, List.getLastD_eq_getLast?, getLast?_starts h, Option.getD_some,
    List.length_cons, length_startsAfterFeeds]

theorem getElem?_starts (h : LineAt cs offset before line rest) :
    (ofText cs).starts[before.count '\n']? = some (byteLength before) := by
  obtain ⟨more, hmore⟩ := List.takeWhile_prefix (· ≤ offset) (l := (ofText cs).starts)
  have hlength : (0 :: startsAfterFeeds 0 before).length = before.count '\n' + 1 := by
    rw [List.length_cons, length_startsAfterFeeds]
  rw [takeWhile_starts h] at hmore
  rw [← hmore, List.getElem?_append_left (by omega), ← getLast?_starts h, List.getLast?_eq_getElem?, hlength,
    Nat.add_sub_cancel]

end LineIndex

namespace LineAt

variable {cs before line rest : List Char} {offset : Nat}

open Text

/-- The bytes in front of an offset are those in front of its line, and some of the line. -/
theorem exists_take (h : LineAt cs offset before line rest) :
    ∃ bs, (encoded cs).take offset = encoded before ++ bs ∧ 10 ∉ bs := by
  have hline : ∀ n, 10 ∉ (encoded line).take n := by
    intro n hmem
    obtain ⟨c, hc, hbyte⟩ := List.mem_flatMap.mp (List.mem_of_mem_take hmem)
    exact feed_not_mem_utf8EncodeChar (fun heq => h.unbroken (heq ▸ hc)) hbyte
  refine ⟨(encoded line).take (offset - byteLength before), ?_, hline _⟩
  obtain ⟨rfl, -, -, hle, hends⟩ := h
  rw [encoded_append, encoded_append, List.take_append, List.take_of_length_le (by rwa [length_encoded]), length_encoded]
  congr 1
  rcases hends with rfl | ⟨more, rfl, hmore⟩
  · rw [encoded, encoded, List.flatMap_nil, List.append_nil]
  · rw [List.take_append_of_le_length]
    rw [length_encoded]
    omega

theorem count_take (h : LineAt cs offset before line rest) :
    ((encoded cs).take offset).count 10 = before.count '\n' := by
  obtain ⟨bs, heq, hbs⟩ := h.exists_take
  rw [heq, List.count_append, List.count_eq_zero.mpr hbs, Nat.add_zero, count_encoded]

theorem lineStart_take (h : LineAt cs offset before line rest) :
    lineStart ((encoded cs).take offset) = byteLength before := by
  obtain ⟨bs, heq, hbs⟩ := h.exists_take
  rw [heq, lineStart_append hbs]
  rcases h.starts with rfl | ⟨front, rfl⟩
  · rfl
  · rw [encoded_append, byteLength_append, ← length_encoded front]
    exact lineStart_feed (encoded front)

/-- What is shown of the line: not the carriage return in front of a line feed. -/
def shown (line rest : List Char) : List Char := if rest.isEmpty then line else dropReturn line

/-- Among the lines of a text, the line of an offset has the number of the line feeds in front of it. -/
theorem getD_lines (h : LineAt cs offset before line rest) :
    (lines cs).getD (before.count '\n') [] = shown line rest := by
  obtain ⟨ps, hps, hlength⟩ : ∃ ps, pieces '\n' cs = ps ++ pieces '\n' (line ++ rest) ∧
      ps.length = before.count '\n' := by
    rcases h.starts with rfl | ⟨front, rfl⟩
    · exact ⟨[], by rw [h.text]; rfl, rfl⟩
    · refine ⟨pieces '\n' front, ?_, ?_⟩
      · rw [h.text, List.append_assoc, List.singleton_append, pieces_append_cons]
      · rw [length_pieces, List.count_append]
        rfl
  rw [lines, hps, linesOfPieces_append _ (pieces_ne_nil _ _), ← hlength]
  rcases h.ends with rfl | ⟨more, rfl, -⟩
  · rw [List.append_nil, pieces_of_not_mem h.unbroken]
    by_cases hempty : line.isEmpty
    · simp [linesOfPieces, shown, List.isEmpty_iff.mp hempty]
    · simp [linesOfPieces, shown, hempty]
  · rw [pieces_append_cons, pieces_of_not_mem h.unbroken]
    obtain ⟨q, qs, hq⟩ := List.exists_cons_of_ne_nil (pieces_ne_nil '\n' more)
    simp [hq, linesOfPieces, shown]

end LineAt

/-- A place stands before another: on an earlier line, or on the same line and further left. -/
def Position.Before (p q : Position) : Prop := p.line < q.line ∨ p.line = q.line ∧ p.column < q.column

theorem LineIndex.position_of_lt (source : String) {offset : Nat} (h : offset < Nat.pow 2 32 - 1) :
    let before := (Text.bytes source).take offset
    (ofText source.toList).position offset = ⟨1 + before.count 10, offset - Text.lineStart before + 1⟩ ∧
      Text.lineStart before ≤ offset ∧
      (ofText source.toList).starts[before.count 10]? = some (Text.lineStart before) := by
  intro before
  obtain ⟨front, line, rest, hline⟩ := exists_line source.toList offset
  have hcount : before.count 10 = front.count '\n' := by rw [← hline.count_take, ← Text.bytes_eq]
  have hstart : Text.lineStart before = byteLength front := by rw [← hline.lineStart_take, ← Text.bytes_eq]
  have hle : before.count 10 ≤ offset := List.count_le_length.trans (List.length_take_le _ _)
  refine ⟨?_, hstart ▸ hline.le, ?_⟩
  · -- neither count comes to the size of a word
    have hword : Nat.pow 2 32 = 4294967296 := rfl
    rw [hword] at h
    rw [position_eq hline, ← hcount, ← hstart, Position.ofCounts, hword, Nat.mod_eq_of_lt, Nat.mod_eq_of_lt,
      Nat.add_comm 1]
    · omega
    · omega
  · rw [hcount, hstart]
    exact getElem?_starts hline

theorem LineIndex.position_before {source : String} {offset offset' : Nat} (hlt : offset < offset')
    (h : offset' < Nat.pow 2 32 - 1) :
    ((ofText source.toList).position offset).Before ((ofText source.toList).position offset') := by
  obtain ⟨heq, hle, -⟩ := position_of_lt source (Nat.lt_trans hlt h)
  obtain ⟨heq', -⟩ := position_of_lt source h
  obtain ⟨bs, hbs⟩ := List.take_prefix_take_left (l := Text.bytes source) (Nat.le_of_lt hlt)
  rw [heq, heq', ← hbs, Position.Before]
  by_cases hfeed : 10 ∈ bs
  · have hpos := List.count_pos_iff.mpr hfeed
    left
    simp only [List.count_append]
    omega
  · -- on the same line, which starts at the same offset
    right
    rw [Text.lineStart_append hfeed, List.count_append, List.count_eq_zero.mpr hfeed]
    exact ⟨rfl, by simp only; omega⟩

theorem Fault.sourceLine_position {source : String} {offset : Nat} (h : offset < Nat.pow 2 32 - 1)
    {before line rest : List Char} (hline : LineAt source.toList offset before line rest) :
    sourceLine source ((LineIndex.ofText source.toList).position offset).line =
      String.ofList (LineAt.shown line rest) := by
  rw [(LineIndex.position_of_lt source h).1, sourceLine, Nat.add_sub_cancel_left, Text.bytes_eq, hline.count_take,
    hline.getD_lines]

/-- Lines and columns are counted in line feeds, places are in the order of their offsets, and a fault is shown with the
line of its offset and a caret below it, whatever its span. -/
theorem position_shown {source : String} (hsize : source.utf8ByteSize < Nat.pow 2 32 - 1) :
    let index : LineIndex := .ofText source.toList
    (∀ offset < Nat.pow 2 32 - 1, let before := (Text.bytes source).take offset
      index.position offset = ⟨1 + before.count 10, offset - Text.lineStart before + 1⟩ ∧
        Text.lineStart before ≤ offset ∧ index.starts[before.count 10]? = some (Text.lineStart before)) ∧
      (∀ offset offset', offset < offset' → offset' < Nat.pow 2 32 - 1 →
        (index.position offset).Before (index.position offset')) ∧
      ∀ (file : String) (f : Fault), let offset := min f.span.start source.utf8ByteSize
        let p := index.position offset
        (∃ before line rest, LineAt source.toList offset before line rest ∧
          f.text file source = s!"{file}:{p.line}:{p.column}: {f.kind.text}: {f.message}\n"
            ++ ("  | " ++ String.ofList (LineAt.shown line rest) ++ "\n")
            ++ ("  | " ++ String.ofList (List.replicate (p.column - 1) ' ') ++ "^\n")
            ++ String.join (f.notes.map fun note => s!"  = note: {note}\n")
            ++ String.join (f.hints.map fun hint => s!"  = hint: {hint}\n")) ∧
        (f.report source).offset = offset ∧ (f.report source).offset + (f.report source).length ≤ source.utf8ByteSize := by
  intro index
  refine ⟨fun offset h => LineIndex.position_of_lt source h, fun offset offset' => LineIndex.position_before, fun file f => ?_⟩
  intro offset p
  have hoffset : offset ≤ source.utf8ByteSize := Nat.min_le_right _ _
  obtain ⟨before, line, rest, hline⟩ := exists_line source.toList offset
  refine ⟨⟨before, line, rest, hline, ?_⟩, rfl, ?_⟩
  · rw [← Fault.sourceLine_position (Nat.lt_of_le_of_lt hoffset hsize) hline]
    rfl
  · show offset + min _ (source.utf8ByteSize - offset) ≤ source.utf8ByteSize
    omega

/-- A fault behind the end of a text of two lines, of which the first ends in a carriage return and a line feed. -/
theorem position_shown_behind :
    let f : Fault := ⟨.lexical, "what?", ⟨9, 2⟩, [], []⟩
    (LineIndex.ofText "é\r\nab".toList).position 4 = ⟨2, 1⟩ ∧ f.text "a.qi" "é\r\nab" =
      "a.qi:2:3: lexical error: what?\n  | ab\n  |   ^\n" ∧ (f.report "é\r\nab").offset + (f.report "é\r\nab").length ≤ 6 := by
  have h := @position_shown "é\r\nab" (by decide)
  refine ⟨?_, by decide +kernel, (h.2.2 "a.qi" ⟨.lexical, "what?", ⟨9, 2⟩, [], []⟩).2.2⟩
  rw [(h.1 4 (by decide)).1]
  decide +kernel

end QiIdl
