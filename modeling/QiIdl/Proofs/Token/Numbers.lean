import QiIdl.Proofs.Binary64.ReadBack
import QiIdl.Proofs.Token.Spelling

/-!
# How numbers are read

The digits of a natural number are one lexeme, which is that number (`Spells.int`), and the text of a finite double is
one that is that double (`Spells.float`). A float literal has three parts, of which at least the second or the third is there:

    12     .5        e-3
    whole  fraction  exponent

`decimal_eq_float` says what these parts are read as, whatever they are; each notation for a double is then one
way to fill them in, and that its decimal reads back is `Binary64.ofDecimal_of_within`.
-/

namespace QiIdl.Lexeme

open Binary64 (ofDecimal signed)

variable {rest cs ds ps : List Char} {d : Char}

/-! ## Digits -/

/-- Some characters are decimal digits. -/
def Digits (cs : List Char) : Prop := ∀ c ∈ cs, c.isDigit = true

theorem Digits.append (hc : Digits cs) (hd : Digits ds) : Digits (cs ++ ds) := by
  intro c h
  rcases List.mem_append.mp h with h | h
  · exact hc c h
  · exact hd c h

theorem digits_toDigits (n : Nat) : Digits (Nat.toDigits 10 n) := fun _ h =>
  Nat.isDigit_of_mem_toDigits (by decide) (by decide) h

theorem digits_zeros (n : Nat) : Digits (List.replicate n '0') := by
  intro c h
  rw [List.eq_of_mem_replicate h]
  rfl

theorem toDigits_eq_cons (n : Nat) : ∃ d ds, Nat.toDigits 10 n = d :: ds :=
  List.exists_cons_of_ne_nil (List.length_pos_iff.mp Nat.length_toDigits_pos)

theorem Digits.isDigitOrGap (h : Digits cs) : ∀ c ∈ cs, isDigitOrGap c = true := by
  intro c hc
  rw [Lexeme.isDigitOrGap, h c hc, Bool.true_or]

theorem isDigit_ne {c e : Char} (h : c.isDigit = true) (he : e.isDigit = false) : c ≠ e := by
  rintro rfl
  rw [h] at he
  cases he

theorem Digits.digitsOf_eq (h : Digits cs) : digitsOf cs = cs := by
  rw [digitsOf, List.filter_eq_self]
  intro c hc
  exact bne_iff_ne.mpr (isDigit_ne (h c hc) (by decide))

theorem decimalValue_eq (cs : List Char) : decimalValue cs = Nat.ofDigitChars 10 cs 0 := by
  unfold decimalValue Nat.ofDigitChars
  congr 1
  funext n c
  rw [Nat.mul_comm]

theorem decimalValue_toDigits (n : Nat) : decimalValue (Nat.toDigits 10 n) = n := by
  rw [decimalValue_eq, Nat.ofDigitChars_ten_toDigits]

theorem Ends.stops_isDigitOrGap (h : Ends rest) : Stops isDigitOrGap rest := h.stops (by decide)

/-! ## The parts of a number -/

theorem startsWithDigit_of_digits (h : Digits (d :: ds)) : startsWithDigit (d :: (ds ++ rest)) = true :=
  h d (by simp)

theorem fraction_of_digits (h : Digits (d :: ds)) (hrest : Stops isDigitOrGap rest) :
    fraction ('.' :: (d :: ds ++ rest)) = ('.' :: d :: ds, rest) := by
  rw [fraction]
  simp only [List.cons_append, startsWithDigit_of_digits h, if_true]
  rw [← List.cons_append, takeWhile_append_of_stops h.isDigitOrGap hrest,
    dropWhile_append_of_stops h.isDigitOrGap hrest]

theorem fraction_of_stops (h : Stops (· == '.') rest) : fraction rest = ([], rest) := by
  unfold fraction
  split
  · exact absurd (h '.' rfl) (by decide)
  · rfl

theorem exponent_of_stops (h : Stops (fun c => c == 'e' || c == 'E') rest) : exponent rest = ([], [], rest) := by
  unfold exponent
  split
  · rename_i mark behind
    have hmark := h mark rfl
    simp only [Bool.or_eq_false_iff, beq_eq_false_iff_ne] at hmark
    rw [if_neg (by simp [hmark])]
  · rfl

theorem signed_eq (n : Int) : signed n = (if n < 0 then ['-'] else []) ++ Nat.toDigits 10 n.natAbs := by
  unfold signed
  split <;> rfl

/-- An exponent is read with its sign. -/
theorem exponent_signed (n : Int) (hrest : Stops isDigitOrGap rest) :
    exponent ('e' :: (signed n ++ rest)) =
      ('e' :: if n < 0 then ['-'] else [], Nat.toDigits 10 n.natAbs, rest) := by
  have hdigits := digits_toDigits n.natAbs
  obtain ⟨d, ds, hd⟩ := toDigits_eq_cons n.natAbs
  rw [hd] at hdigits
  have htake := takeWhile_append_of_stops hdigits.isDigitOrGap hrest
  have hdrop := dropWhile_append_of_stops hdigits.isDigitOrGap hrest
  rw [List.cons_append] at htake hdrop
  rw [signed_eq, hd]
  by_cases hneg : n < 0
  · simp only [hneg, if_true, List.cons_append, List.nil_append, exponent, true_or, or_true, true_and,
      startsWithDigit_of_digits hdigits, htake, hdrop]
  · have hsign : ¬((d = '+' ∨ d = '-') ∧ startsWithDigit (ds ++ rest) = true) := by
      rintro ⟨h | h, -⟩ <;> exact isDigit_ne (hdigits d (by simp)) (by decide) h
    simp only [hneg, if_false, List.cons_append, List.nil_append, exponent, true_or, if_true, if_neg hsign,
      hdigits d (by simp), htake, hdrop]

/-! ## Integers -/

theorem first_eq_decimal (hd : d.isDigit = true) (hmark : Stops (fun c => c == 'x' || c == 'X') cs) :
    first d cs = decimal d cs := by
  have hgap : isGap d = false := by
    simp only [isGap, Bool.or_eq_false_iff, beq_eq_false_iff_ne]
    exact ⟨⟨isDigit_ne hd (by decide), isDigit_ne hd (by decide)⟩, isDigit_ne hd (by decide)⟩
  have hnumber : first d cs = number d cs := by
    simp [first, hgap, hd, isDigit_ne hd (e := '\n') (by decide), isDigit_ne hd (e := '#') (by decide),
      isDigit_ne hd (e := '"') (by decide)]
  rw [hnumber, number.eq_def]
  split
  · rename_i mark behind
    have hne := hmark mark rfl
    simp only [Bool.or_eq_false_iff, beq_eq_false_iff_ne] at hne
    rw [if_neg (by simp [hne])]
  · rfl

/-- A test that neither a digit nor what follows the digits passes. -/
theorem stops_digits_append {p : Char → Bool} (hds : Digits ds) (hp : ∀ c, c.isDigit = true → p c = false)
    (h : Stops p rest) : Stops p (ds ++ rest) := by
  cases ds with
  | nil => exact h
  | cons d ds =>
    intro c hc
    cases hc
    exact hp d (hds d (by simp))

theorem not_mark_of_isDigit (c : Char) (h : c.isDigit = true) : (c == 'x' || c == 'X') = false := by
  simp [isDigit_ne h (e := 'x') (by decide), isDigit_ne h (e := 'X') (by decide)]

/-- The digits of a number that fits are read as that number. -/
theorem Spells.int {n : Nat} (hn : n < integerBound) (h : Ends rest) :
    Spells rest (toString n).toList (.int n) := by
  have hdigits := digits_toDigits n
  have hvalue := decimalValue_toDigits n
  rw [Nat.toString_eq_ofList_toDigits, String.toList_ofList]
  obtain ⟨d, ds, hd⟩ := toDigits_eq_cons n
  rw [hd] at hdigits hvalue ⊢
  have hds : Digits ds := fun c hc => hdigits c (by simp [hc])
  refine ⟨d, ds, rfl, ?_⟩
  rw [first_eq_decimal (hdigits d (by simp)) (stops_digits_append hds not_mark_of_isDigit (h.stops (by decide)))]
  simp only [decimal, takeWhile_append_of_stops hds.isDigitOrGap h.stops_isDigitOrGap,
    dropWhile_append_of_stops hds.isDigitOrGap h.stops_isDigitOrGap, fraction_of_stops (h.stops (by decide)),
    exponent_of_stops (h.stops (by decide)), hdigits.digitsOf_eq, hvalue, List.isEmpty_nil, and_self, if_true,
    hn, List.append_nil]

/-! ## Floats -/

/-- What the parts of a float are read as. -/
theorem decimal_eq_float {behind after point mark power : List Char} (hds : Digits (d :: ds))
    (hstop : Stops isDigitOrGap after) (hpoint : fraction after = (point, behind))
    (hpower : exponent behind = (mark, power, rest)) (hfloat : ¬(point.isEmpty = true ∧ mark.isEmpty = true))
    (hplaces : Digits (point.drop 1)) (hdigits : Digits power) :
    decimal d (ds ++ after) =
      (ofToken (d :: ds ++ point ++ mark ++ power) (.float (ofDecimal (decimalValue (d :: ds ++ point.drop 1))
        ((if mark.contains '-' then -(decimalValue power : Int) else decimalValue power) -
          (point.drop 1).length))), rest) := by
  have hds' : Digits ds := fun c hc => hds c (by simp [hc])
  simp only [decimal, takeWhile_append_of_stops hds'.isDigitOrGap hstop,
    dropWhile_append_of_stops hds'.isDigitOrGap hstop, hpoint, hpower, if_neg hfloat, hds.digitsOf_eq,
    hplaces.digitsOf_eq, hdigits.digitsOf_eq]

/-- A float in front of `rest`, where `t` is its text behind the whole digits: a fraction `p`, the mark and sign
`m` of an exponent, and its digits `w`. -/
theorem Spells.float_parts {t b p m w : List Char} {e : Int} (hds : Digits (d :: ds))
    (hhead : ∀ c ∈ (t ++ rest).head?, c = '.' ∨ c = 'e') (hpoint : fraction (t ++ rest) = (p, b))
    (hpower : exponent b = (m, w, rest)) (ht : p ++ m ++ w = t)
    (hfloat : ¬(p.isEmpty = true ∧ m.isEmpty = true)) (hplaces : Digits (p.drop 1)) (hdigits : Digits w)
    (he : (if m.contains '-' then -(decimalValue w : Int) else decimalValue w) - ((p.drop 1).length : Int) = e) :
    Spells rest (d :: ds ++ t) (.float (ofDecimal (decimalValue (d :: ds ++ p.drop 1)) e)) := by
  have hstop : ∀ q : Char → Bool, q '.' = false → q 'e' = false → Stops q (t ++ rest) := by
    intro q hdot hmark c hc
    rcases hhead c hc with rfl | rfl
    · exact hdot
    · exact hmark
  have hds' : Digits ds := fun c hc => hds c (by simp [hc])
  refine ⟨d, ds ++ t, rfl, ?_⟩
  rw [List.append_assoc, first_eq_decimal (hds d (by simp))
    (stops_digits_append hds' not_mark_of_isDigit (hstop _ (by decide) (by decide))),
    decimal_eq_float hds (hstop _ (by decide) (by decide)) hpoint hpower hfloat hplaces hdigits, he, ← ht]
  simp only [List.append_assoc, List.cons_append]

theorem signed_value (n : Int) :
    (if ('e' :: if n < 0 then ['-'] else []).contains '-' then -(decimalValue (Nat.toDigits 10 n.natAbs) : Int)
      else decimalValue (Nat.toDigits 10 n.natAbs)) = n := by
  rw [decimalValue_toDigits]
  by_cases hneg : n < 0
  · simp only [hneg, if_true, List.contains_cons, List.contains_nil]
    exact (if_pos (by decide)).trans (by omega)
  · simp only [hneg, if_false, List.contains_cons, List.contains_nil]
    exact (if_neg (by decide)).trans (by omega)

theorem digits_nil : Digits [] := fun _ h => absurd h List.not_mem_nil

variable {ws : List Char}

/-- A number with a fraction. -/
theorem Spells.float_fraction (hws : Digits ws) (hw : ws ≠ []) (hps : Digits ps) (hp : ps ≠ []) (h : Ends rest) :
    Spells rest (ws ++ '.' :: ps) (.float (ofDecimal (decimalValue (ws ++ ps)) (-(ps.length : Int)))) := by
  obtain ⟨d, ds, rfl⟩ := List.exists_cons_of_ne_nil hw
  obtain ⟨q, ps, rfl⟩ := List.exists_cons_of_ne_nil hp
  refine .float_parts (p := '.' :: q :: ps) (m := []) (w := []) hws ?_
    (fraction_of_digits hps h.stops_isDigitOrGap) (exponent_of_stops (h.stops (by decide))) (by simp) (by simp)
    hps digits_nil (by simp [decimalValue])
  intro c hc
  exact .inl (Option.some.inj hc).symm

/-- A number with an exponent. -/
theorem Spells.float_exponent (hws : Digits ws) (hw : ws ≠ []) (n : Int) (h : Ends rest) :
    Spells rest (ws ++ 'e' :: signed n) (.float (ofDecimal (decimalValue ws) n)) := by
  obtain ⟨d, ds, rfl⟩ := List.exists_cons_of_ne_nil hw
  have hread := Spells.float_parts (p := []) (t := 'e' :: signed n) (e := n) hws
    (fun c hc => .inr (Option.some.inj hc).symm) (fraction_of_stops (by rintro c hc; cases hc; decide))
    (exponent_signed n h.stops_isDigitOrGap) (by rw [signed_eq]; simp) (by simp) digits_nil (digits_toDigits _)
    (by rw [signed_value]; simp)
  rwa [List.drop_nil, List.append_nil] at hread

/-- A number with a fraction and an exponent. -/
theorem Spells.float_fraction_exponent (hws : Digits ws) (hw : ws ≠ []) (hps : Digits ps) (hp : ps ≠ []) (n : Int)
    (h : Ends rest) : Spells rest (ws ++ ('.' :: ps ++ 'e' :: signed n))
      (.float (ofDecimal (decimalValue (ws ++ ps)) (n - ps.length))) := by
  obtain ⟨d, ds, rfl⟩ := List.exists_cons_of_ne_nil hw
  obtain ⟨q, ps, rfl⟩ := List.exists_cons_of_ne_nil hp
  have hpoint : fraction ('.' :: (q :: ps) ++ 'e' :: signed n ++ rest) =
      ('.' :: q :: ps, 'e' :: (signed n ++ rest)) := by
    rw [List.append_assoc]
    exact fraction_of_digits hps (by rintro c hc; cases hc; decide)
  refine .float_parts (p := '.' :: q :: ps) hws ?_ hpoint (exponent_signed n h.stops_isDigitOrGap)
    (by rw [signed_eq]; simp) (by simp) hps (digits_toDigits _) (by rw [signed_value]; rfl)
  intro c hc
  exact .inl (Option.some.inj hc).symm

/-! ## The text of a double -/

theorem decimalValue_append_zeros (n k : Nat) :
    decimalValue (Nat.toDigits 10 n ++ List.replicate k '0') = 10 ^ k * n := by
  rw [decimalValue_eq, Nat.ofDigitChars_append, Nat.ofDigitChars_ten_toDigits, Nat.ofDigitChars_replicate_zero]

theorem decimalValue_zeros_append (k n : Nat) :
    decimalValue (List.replicate k '0' ++ Nat.toDigits 10 n) = n := by
  rw [decimalValue_eq, Nat.ofDigitChars_append, Nat.ofDigitChars_replicate_zero, Nat.mul_zero,
    Nat.ofDigitChars_ten_toDigits]

open Binary64 in
/-- A decimal that is written out in full reads as a decimal of the same value. -/
theorem Spells.positional (v : Decimal) (h : Ends rest) : ∃ r : Decimal,
    v.coefficient * 10 ^ (v.exponent.toNat + (-r.exponent).toNat) =
      r.coefficient * 10 ^ (r.exponent.toNat + (-v.exponent).toNat) ∧
    Spells rest v.positional (.float (ofDecimal r.coefficient r.exponent)) := by
  obtain ⟨c, e⟩ := v
  have hdigits := digits_toDigits c
  have hpos : 0 < (Nat.toDigits 10 c).length := Nat.length_toDigits_pos
  unfold Decimal.positional
  dsimp only
  split
  · -- no places: zeros up to the point, and one behind it
    rename_i he
    have hread := Spells.float_fraction (hdigits.append (digits_zeros e.toNat)) (by simp) (digits_zeros 1)
      (by simp) h
    rw [List.append_assoc (Nat.toDigits 10 c) _ (List.replicate 1 '0'), List.replicate_append_replicate,
      decimalValue_append_zeros] at hread
    refine ⟨⟨10 ^ (e.toNat + 1) * c, -1⟩, ?_, by simpa using hread⟩
    have hnat : (-e).toNat = 0 := by omega
    simp [hnat, Nat.mul_comm]
  · split
    · -- the point falls among the digits
      rename_i he hplaces
      generalize hn : ((Nat.toDigits 10 c).length + e).toNat = n
      have htake : Digits ((Nat.toDigits 10 c).take n) := fun d hd => hdigits d (List.mem_of_mem_take hd)
      have hdrop : Digits ((Nat.toDigits 10 c).drop n) := fun d hd => hdigits d (List.mem_of_mem_drop hd)
      have hread := Spells.float_fraction htake
        (by rw [ne_eq, List.take_eq_nil_iff, ← List.length_eq_zero_iff]; omega) hdrop
        (by rw [ne_eq, List.drop_eq_nil_iff]; omega) h
      rw [List.take_append_drop, decimalValue_toDigits, List.length_drop] at hread
      have hexp : -(((Nat.toDigits 10 c).length - n : Nat) : Int) = e := by omega
      rw [hexp] at hread
      exact ⟨⟨c, e⟩, rfl, hread⟩
    · -- zeros stand between the point and the digits
      rename_i he hplaces
      generalize hn : (-((Nat.toDigits 10 c).length + e)).toNat = n
      have hread := Spells.float_fraction (digits_zeros 1) (by simp) ((digits_zeros n).append hdigits)
        (List.append_ne_nil_of_right_ne_nil _ (List.length_pos_iff.mp hpos)) h
      rw [← List.append_assoc (List.replicate 1 '0'), List.replicate_append_replicate, decimalValue_zeros_append,
        List.length_append, List.length_replicate] at hread
      have hexp : -((n + (Nat.toDigits 10 c).length : Nat) : Int) = e := by omega
      rw [hexp] at hread
      exact ⟨⟨c, e⟩, rfl, hread⟩

open Binary64 in
/-- A decimal that is written with an exponent reads as that decimal. -/
theorem Spells.scientific (v : Decimal) (h : Ends rest) :
    Spells rest v.scientific (.float (ofDecimal v.coefficient v.exponent)) := by
  obtain ⟨c, e⟩ := v
  have hdigits := digits_toDigits c
  have hpos : 0 < (Nat.toDigits 10 c).length := Nat.length_toDigits_pos
  unfold Decimal.scientific
  dsimp only
  split
  · have hread := Spells.float_exponent hdigits (List.length_pos_iff.mp hpos) ((Nat.toDigits 10 c).length - 1 + e) h
    rw [decimalValue_toDigits] at hread
    rwa [show ((Nat.toDigits 10 c).length : Int) - 1 + e = e by omega] at hread ⊢
  · have htake : Digits ((Nat.toDigits 10 c).take 1) := fun d hd => hdigits d (List.mem_of_mem_take hd)
    have hdrop : Digits ((Nat.toDigits 10 c).drop 1) := fun d hd => hdigits d (List.mem_of_mem_drop hd)
    have hread := Spells.float_fraction_exponent htake
      (by rw [ne_eq, List.take_eq_nil_iff, ← List.length_eq_zero_iff]; omega) hdrop
      (by rw [ne_eq, List.drop_eq_nil_iff]; omega) ((Nat.toDigits 10 c).length - 1 + e) h
    rw [List.take_append_drop, decimalValue_toDigits, List.length_drop, ← List.append_assoc] at hread
    rwa [show ((Nat.toDigits 10 c).length : Int) - 1 + e - ((Nat.toDigits 10 c).length - 1 : Nat) = e by omega]
      at hread

open Binary64 in
/-- The text of a finite double is read as that double. -/
theorem Spells.float {x : Binary64} (hfin : x.isInfinite = false) (h : Ends rest) :
    Spells rest x.text.toList (.float x) := by
  unfold Binary64.text
  rw [if_neg (by simp [hfin])]
  split
  · rename_i hzero
    have hread := Spells.float_fraction (digits_zeros 1) (by simp) (digits_zeros 1) (by simp) h
    have hx : ofDecimal 0 (-1) = x := by
      obtain ⟨rank⟩ := x
      simp_all [ofDecimal]
    rw [← hx]
    exact hread
  · rename_i hrank
    have hpos : 0 < x.rank := Nat.pos_of_ne_zero hrank
    have hwithin := within_shortest hpos
    rw [String.toList_ofList, Decimal.text]
    split
    · obtain ⟨r, hvalue, hread⟩ := Spells.positional (shortest x) h
      rwa [ofDecimal_of_within hpos hfin (hwithin.congr hvalue)] at hread
    · have hread := Spells.scientific (shortest x) h
      rwa [ofDecimal_of_within hpos hfin hwithin] at hread

theorem Reads.int {n : Nat} (hn : n < integerBound) (h : Ends rest) : Reads rest (toString n).toList [.int n] :=
  (Spells.int hn h).reads (by simp)

theorem Reads.float {x : Binary64} (hfin : x.isInfinite = false) (h : Ends rest) :
    Reads rest x.text.toList [.float x] :=
  (Spells.float hfin h).reads (by simp)

end QiIdl.Lexeme
