import Mathlib.Tactic.Linarith
import Mathlib.Tactic.Positivity
import Mathlib.Tactic.Ring
import QiIdl.Binary64.Shortest

/-!
# A shortest decimal reads back

`Binary64.shortest` writes a finite double with few digits, `Binary64.ofDecimal` reads a decimal as the nearest
double. This file proves the one fact that ties them together:

> every decimal in the interval of a finite double is read as that double (`ofDecimal_of_within`), and the
> search for the shortest decimal ends in the interval (`within_shortest`).

Both halves are exact arithmetic on natural numbers. What makes them short is one way to take a rank apart:
`rank = b · 2⁵² + m`, where `m` is the significand and `b` the number of doublings (`Split`). Every fact about
neighbouring doubles is then a fact about `m + 1` and `m - 1`, and only the first double of a binade, whose
lower neighbour is twice as near, needs a case of its own.
-/

namespace QiIdl.Binary64

variable {rank b m : Nat} {x : Binary64} {d : Decimal} {e : Int}

-- powers of two and ten are only compared here, so their exponents are never to be computed with
attribute [local irreducible] unitBits

/-! ## Ranks and units -/

/-- `b` and `m` are the doublings and the significand of a rank. The significand may also be the first that is
too large, which makes the next double after a binade the successor of its last. -/
structure Split (rank b m : Nat) : Prop where
  rank_eq : rank = b * binadeSize + m
  le : m ≤ 2 * binadeSize
  ge : b = 0 ∨ binadeSize ≤ m

theorem binadeSize_pos : 0 < binadeSize := by decide

theorem exists_split (rank : Nat) : ∃ b m, Split rank b m ∧ m < 2 * binadeSize := by
  have hB := binadeSize_pos
  have hdiv := Nat.div_add_mod rank binadeSize
  have hmod := Nat.mod_lt rank hB
  cases hq : rank / binadeSize with
  | zero =>
    rw [hq] at hdiv
    exact ⟨0, rank, ⟨by simp, by omega, .inl rfl⟩, by omega⟩
  | succ b =>
    rw [hq, Nat.mul_succ, Nat.mul_comm binadeSize b] at hdiv
    exact ⟨b, binadeSize + rank % binadeSize, ⟨by omega, by omega, .inr (by omega)⟩, by omega⟩

theorem units_of_split (h : Split rank b m) : units rank = m * 2 ^ b := by
  obtain ⟨rfl, hle, hge⟩ := h
  have hB := binadeSize_pos
  unfold units binade
  simp only [Nat.pow_eq]
  rcases Nat.lt_or_ge m (2 * binadeSize) with hlt | hfull
  · have hq : (b * binadeSize + m) / binadeSize - 1 = b := by
      rcases hge with rfl | hge
      · have : m / binadeSize < 2 := (Nat.div_lt_iff_lt_mul hB).mpr (by omega)
        simp only [Nat.zero_mul, Nat.zero_add]
        omega
      · rw [Nat.add_comm, Nat.add_mul_div_right _ _ hB]
        have h1 : m / binadeSize = 1 := Nat.div_eq_of_lt_le (by omega) (by omega)
        omega
    rw [hq, Nat.add_sub_cancel_left]
  · -- the successor of the last double of a binade: it is the first of the next one
    have hm : m = 2 * binadeSize := by omega
    have hq : (b * binadeSize + m) / binadeSize - 1 = b + 1 := by
      rw [hm, ← Nat.add_mul, Nat.mul_div_cancel _ hB]
      omega
    have hsub : b * binadeSize + 2 * binadeSize - (b + 1) * binadeSize = binadeSize := by
      rw [Nat.add_one_mul b]
      omega
    rw [hq, hm, hsub]
    ring

theorem Split.succ (h : Split rank b m) (hlt : m < 2 * binadeSize) : Split (rank + 1) b (m + 1) :=
  ⟨by have := h.rank_eq; omega, by omega, h.ge.imp id fun hge => by omega⟩

/-- The lower neighbour of a double: one significand down, or the last double of the binade before. -/
theorem units_pred (h : Split rank b m) (hpos : 0 < rank) :
    (∃ k, m = k + 1 ∧ (b = 0 ∨ binadeSize ≤ k) ∧ units (rank - 1) = k * 2 ^ b) ∨
      (∃ a, b = a + 1 ∧ m = binadeSize ∧ units (rank - 1) = (2 * binadeSize - 1) * 2 ^ a) := by
  have hB := binadeSize_pos
  obtain ⟨hr, hle, hge⟩ := h
  cases b with
  | zero =>
    obtain ⟨k, rfl⟩ : ∃ k, m = k + 1 := ⟨m - 1, by omega⟩
    have hs : Split (rank - 1) 0 k := ⟨by omega, by omega, .inl rfl⟩
    exact .inl ⟨k, rfl, .inl rfl, units_of_split hs⟩
  | succ a =>
    have hBm : binadeSize ≤ m := by omega
    rcases Nat.eq_or_lt_of_le hBm with rfl | hlt
    · have hs : Split (rank - 1) a (2 * binadeSize - 1) := by
        refine ⟨?_, by omega, .inr (by omega)⟩
        rw [hr, Nat.add_one_mul a]
        omega
      exact .inr ⟨a, rfl, rfl, units_of_split hs⟩
    · obtain ⟨k, rfl⟩ : ∃ k, m = k + 1 := ⟨m - 1, by omega⟩
      have hs : Split (rank - 1) (a + 1) k := ⟨by omega, by omega, .inr (by omega)⟩
      exact .inl ⟨k, rfl, .inr (by omega), units_of_split hs⟩

/-! ## Rounding a ratio -/

/-- A quotient rounds to `q` if it is less than a half away from it, or just a half away and `q` is even. -/
theorem roundEven_eq {num den q : Nat} (hden : 0 < den)
    (hlow : 2 * (q * den) < 2 * num + den ∨ q % 2 = 0 ∧ 2 * (q * den) = 2 * num + den)
    (hhigh : 2 * num < 2 * (q * den) + den ∨ q % 2 = 0 ∧ 2 * num = 2 * (q * den) + den) :
    roundEven num den = q := by
  have hdiv := Nat.div_add_mod num den
  have hmod := Nat.mod_lt num hden
  rw [Nat.mul_comm] at hdiv
  have hle : num / den ≤ q := by
    by_contra hlt
    have : (q + 1) * den ≤ num / den * den := Nat.mul_le_mul_right _ (by omega)
    rw [Nat.add_one_mul q] at this
    omega
  have hge : q ≤ num / den + 1 := by
    by_contra hlt
    have : (num / den + 2) * den ≤ q * den := Nat.mul_le_mul_right _ (by omega)
    rw [Nat.add_mul] at this
    omega
  unfold roundEven
  generalize num / den = t at *
  generalize num % den = s at *
  rcases Nat.eq_or_lt_of_le hle with rfl | hlt
  · dsimp only
    split
    · rfl
    · split <;> omega
  · obtain rfl : q = t + 1 := by omega
    rw [Nat.add_one_mul t] at hlow hhigh
    dsimp only
    split
    · omega
    · split <;> omega

theorem Interval.holds_iff {i : Interval} {factor point : Nat} :
    i.holds factor point = true ↔
      (i.low * factor < point ∨ i.closed = true ∧ i.low * factor = point) ∧
      (point < i.high * factor ∨ i.closed = true ∧ point = i.high * factor) := by
  simp [Interval.holds]

/-- The doublings that reading chooses are those of the binade that the whole part lies in. -/
theorem doublings_eq {whole b : Nat} (hlt : whole < 2 * binadeSize * 2 ^ b)
    (hge : b = 0 ∨ binadeSize * 2 ^ b ≤ whole) :
    (if whole < 2 * binadeSize then 0 else Nat.log2 whole - 52) = b := by
  have hpow : 2 * binadeSize * 2 ^ b = 2 ^ (52 + b + 1) := by
    rw [show 52 + b + 1 = 1 + 52 + b by omega, Nat.pow_add, Nat.pow_add]
    rfl
  have hpow' : binadeSize * 2 ^ b = 2 ^ (52 + b) := (Nat.pow_add 2 52 b).symm
  cases b with
  | zero => rw [if_pos (by simpa using hlt)]
  | succ a =>
    have hge : binadeSize * 2 ^ (a + 1) ≤ whole := hge.resolve_left (by omega)
    have hbig : 2 * binadeSize ≤ binadeSize * 2 ^ (a + 1) := by
      rw [Nat.mul_comm 2]
      exact Nat.mul_le_mul_left _ (Nat.le_self_pow (by omega) 2)
    have hB := binadeSize_pos
    rw [if_neg (by omega), (Nat.log2_eq_iff (k := 52 + (a + 1)) (by omega)).mpr ⟨by omega, by omega⟩]
    omega

/-- Reading a ratio, once its binade and its rounded significand are known. -/
theorem ofRatio_eq {num den b m : Nat} (hden : 0 < den)
    (hlt : num * 2 ^ unitBits < 2 * binadeSize * (den * 2 ^ b))
    (hge : b = 0 ∨ binadeSize * (den * 2 ^ b) ≤ num * 2 ^ unitBits)
    (hround : roundEven (num * 2 ^ unitBits) (den * 2 ^ b) = m)
    (hfin : b * binadeSize + m < infinity.rank) :
    ofRatio num den = ⟨b * binadeSize + m⟩ := by
  have hb : (if num * 2 ^ unitBits / den < 2 * binadeSize then 0
      else Nat.log2 (num * 2 ^ unitBits / den) - 52) = b := by
    refine doublings_eq ((Nat.div_lt_iff_lt_mul hden).mpr ?_) (hge.imp id fun hge => ?_)
    · calc num * 2 ^ unitBits < 2 * binadeSize * (den * 2 ^ b) := hlt
        _ = 2 * binadeSize * 2 ^ b * den := by ring
    · refine (Nat.le_div_iff_mul_le hden).mpr ?_
      calc binadeSize * 2 ^ b * den = binadeSize * (den * 2 ^ b) := by ring
        _ ≤ num * 2 ^ unitBits := hge
  unfold ofRatio
  simp only [Nat.pow_eq]
  simp only [hb, hround]
  rw [Nat.min_eq_left (Nat.le_of_lt hfin)]

/-- A ratio in the interval of a finite double is read as that double. -/
theorem ofRatio_of_holds {num den : Nat} (hden : 0 < den) (hpos : 0 < x.rank) (hfin : x.isInfinite = false)
    (h : (interval x).holds den (2 * (num * 2 ^ unitBits)) = true) : ofRatio num den = x := by
  obtain ⟨b, m, hs, hlt⟩ := exists_split x.rank
  obtain ⟨hlow, hhigh⟩ := Interval.holds_iff.mp h
  simp only [interval, units_of_split hs, units_of_split (hs.succ hlt), beq_iff_eq] at hlow hhigh
  have hB := binadeSize_pos
  have heven : binadeSize % 2 = 0 := by decide
  have hrank : x.rank < infinity.rank := by simpa [isInfinite] using hfin
  have hparity : x.rank % 2 = m % 2 := by
    rw [hs.rank_eq, Nat.add_mod, Nat.mul_mod, heven]
    simp
  rcases units_pred hs hpos with ⟨k, rfl, hk, hpred⟩ | ⟨a, rfl, rfl, hpred⟩
  · -- the neighbours are both one significand away: the ratio lies in the double's own binade
    rw [hpred] at hlow
    rw [show x = ⟨b * binadeSize + (k + 1)⟩ by rw [← hs.rank_eq]]
    rw [hs.rank_eq] at hrank
    obtain ⟨P, hP⟩ : ∃ P, P = den * 2 ^ b := ⟨_, rfl⟩
    have hP0 : 0 < P := by rw [hP]; positivity
    have hl : (k * 2 ^ b + (k + 1) * 2 ^ b) * den = 2 * (k * P) + P := by rw [hP]; ring
    have hh : ((k + 1) * 2 ^ b + (k + 1 + 1) * 2 ^ b) * den = 2 * (k * P) + 3 * P := by rw [hP]; ring
    have hmul : (k + 1) * P = k * P + P := Nat.add_one_mul k P
    have hup : (k + 2) * P ≤ 2 * binadeSize * P := Nat.mul_le_mul_right _ (by omega)
    rw [Nat.add_mul] at hup
    rw [hl, hparity] at hlow
    rw [hh, hparity] at hhigh
    refine ofRatio_eq hden ?_ (hk.imp id fun hk => ?_) (roundEven_eq (hP ▸ hP0) ?_ ?_) hrank
    · rw [← hP]; omega
    · have := Nat.mul_le_mul_right P hk
      rw [← hP]; omega
    · rw [← hP, hmul]; omega
    · rw [← hP, hmul]; omega
  · -- the first double of a binade: below it the ratio lies in the binade before, and rounds up out of it
    rw [hpred] at hlow
    obtain ⟨P, hP⟩ : ∃ P, P = den * 2 ^ a := ⟨_, rfl⟩
    have hP0 : 0 < P := by rw [hP]; positivity
    have hl : ((2 * binadeSize - 1) * 2 ^ a + binadeSize * 2 ^ (a + 1)) * den + P =
        4 * (binadeSize * P) := by
      obtain ⟨c, hc⟩ : ∃ c, binadeSize = c + 1 := ⟨binadeSize - 1, by omega⟩
      rw [hP, hc, show 2 * (c + 1) - 1 = 2 * c + 1 by omega]
      ring
    have hh : (binadeSize * 2 ^ (a + 1) + (binadeSize + 1) * 2 ^ (a + 1)) * den =
        4 * (binadeSize * P) + 2 * P := by
      rw [hP]
      ring
    have hPs : den * 2 ^ (a + 1) = 2 * P := by rw [hP]; ring
    have h2P : binadeSize * (2 * P) = 2 * (binadeSize * P) := by ring
    have hBP : P ≤ binadeSize * P := Nat.le_mul_of_pos_left P hB
    rw [hh] at hhigh
    by_cases hin : 2 * (binadeSize * P) ≤ num * 2 ^ unitBits
    · rw [show x = ⟨(a + 1) * binadeSize + binadeSize⟩ by rw [← hs.rank_eq]]
      rw [hs.rank_eq] at hrank
      refine ofRatio_eq hden ?_ (.inr ?_) (roundEven_eq (by omega) ?_ ?_) hrank
      · rw [hPs, Nat.mul_assoc, h2P]; omega
      · rw [hPs, h2P]; exact hin
      · rw [hPs, h2P]; omega
      · rw [hPs, h2P]; omega
    · have hrank' : x.rank = a * binadeSize + 2 * binadeSize := by
        rw [hs.rank_eq, Nat.add_one_mul a]
        omega
      rw [show x = ⟨a * binadeSize + 2 * binadeSize⟩ by rw [← hrank']]
      rw [hrank'] at hrank
      refine ofRatio_eq hden ?_ (.inr ?_) (roundEven_eq (hP ▸ hP0) ?_ ?_) hrank
      · rw [← hP, Nat.mul_assoc]; omega
      · rw [← hP]; omega
      · rw [← hP, Nat.mul_assoc]; omega
      · rw [← hP, Nat.mul_assoc]; omega

/-! ## Reading a decimal -/

/-- The decimal lies in the interval of a double. -/
structure Decimal.Within (d : Decimal) (x : Binary64) : Prop where
  holds : (interval x).holds (10 ^ (-d.exponent).toNat)
    (d.coefficient * (2 ^ (unitBits + 1) * 10 ^ d.exponent.toNat)) = true

theorem lt_pow_digitCount (n : Nat) : n < 10 ^ digitCount n :=
  (Nat.length_toDigits_le_iff (by decide) Nat.length_toDigits_pos).mp (Nat.le_refl _)

theorem digitCount_pos (n : Nat) : 0 < digitCount n := Nat.length_toDigits_pos

theorem pow_digitCount_le {n : Nat} (hn : 0 < n) : 10 ^ (digitCount n - 1) ≤ n := by
  rcases Nat.lt_or_ge 1 (digitCount n) with h1 | h1
  · by_contra hlt
    have := (Nat.length_toDigits_le_iff (b := 10) (n := n) (by decide) (Nat.sub_pos_of_lt h1)).mpr
      (by omega)
    simp only [digitCount] at *
    omega
  · have := digitCount_pos n
    rw [show digitCount n - 1 = 0 by omega, Nat.pow_zero]
    exact hn

/-- The units of a finite double and of the one after it are at most those of the double before infinity and of
infinity. The number of the last binade is kept general, so that no power of it is ever computed. -/
theorem units_add_units_succ_le {t : Nat} (ht : infinity.rank = (t + 2) * binadeSize) (hfin : x.isInfinite = false) :
    units x.rank + units (x.rank + 1) ≤ 4 * binadeSize * 2 ^ t := by
  obtain ⟨b, m, hs, hlt⟩ := exists_split x.rank
  have hrank : x.rank < infinity.rank := by simpa [isInfinite] using hfin
  have hB := binadeSize_pos
  have hb : b ≤ t := by
    by_contra hbig
    have hge : binadeSize ≤ m := hs.ge.resolve_left (by omega)
    have hmul : (t + 1) * binadeSize ≤ b * binadeSize := Nat.mul_le_mul_right _ (by omega)
    have hr := hs.rank_eq
    rw [Nat.add_mul] at ht hmul
    omega
  rw [units_of_split hs, units_of_split (hs.succ hlt), ← Nat.add_mul]
  exact Nat.mul_le_mul (by omega) (Nat.pow_le_pow_right Nat.two_pos hb)

theorem units_pos (h : 0 < rank) : 0 < units rank := by
  obtain ⟨b, m, hs, -⟩ := exists_split rank
  have hB := binadeSize_pos
  have hm : 0 < m := by
    rcases hs.ge with rfl | hge
    · have := hs.rank_eq
      omega
    · omega
  rw [units_of_split hs]
  positivity

/-- A decimal in the interval of a finite double other than zero is neither too small nor too large to be
looked at in full. -/
theorem Decimal.Within.magnitude (hpos : 0 < x.rank) (hfin : x.isInfinite = false) (h : d.Within x) :
    d.coefficient ≠ 0 ∧ -324 < (digitCount d.coefficient + d.exponent : Int) ∧
      (digitCount d.coefficient + d.exponent : Int) < 310 := by
  obtain ⟨hlow, hhigh⟩ := Interval.holds_iff.mp h.holds
  have hu := units_pos hpos
  -- the largest power of two, and the two powers of ten it lies between, by name: they are only compared
  obtain ⟨T, hT⟩ : ∃ T, T = 4 * binadeSize * 2 ^ 2045 := ⟨_, rfl⟩
  obtain ⟨M, hM⟩ : ∃ M, M = 10 ^ 309 := ⟨_, rfl⟩
  have htop := hT ▸ units_add_units_succ_le (t := 2045) rfl hfin
  obtain ⟨c, e⟩ := d
  simp only [interval] at hlow hhigh
  dsimp only
  obtain ⟨f, hf⟩ : ∃ f, f = 10 ^ (-e).toNat := ⟨_, rfl⟩
  obtain ⟨g, hg⟩ : ∃ g, g = 10 ^ e.toNat := ⟨_, rfl⟩
  rw [← hf, ← hg] at hlow hhigh
  have hf0 : 0 < f := by rw [hf]; positivity
  have hlow : f ≤ c * (2 ^ (unitBits + 1) * g) :=
    calc f ≤ (units (x.rank - 1) + units x.rank) * f := Nat.le_mul_of_pos_left _ (by omega)
      _ ≤ _ := by omega
  have hhigh : c * (2 ^ (unitBits + 1) * g) ≤ T * f :=
    calc c * (2 ^ (unitBits + 1) * g) ≤ (units x.rank + units (x.rank + 1)) * f := by omega
      _ ≤ _ := Nat.mul_le_mul_right _ htop
  have hc : 0 < c := by
    by_contra h0
    rw [show c = 0 by omega, Nat.zero_mul] at hlow
    omega
  refine ⟨by omega, ?_, ?_⟩
  · by_contra hsmall
    have hdc := lt_pow_digitCount c
    rw [show e.toNat = 0 by have := digitCount_pos c; omega, Nat.pow_zero] at hg
    have hbound : 2 ^ (unitBits + 1) ≤ 10 ^ 324 := by decide +kernel
    have : f < f :=
      calc f ≤ c * 2 ^ (unitBits + 1) := by rw [hg] at hlow; simpa using hlow
        _ < 10 ^ digitCount c * 2 ^ (unitBits + 1) := Nat.mul_lt_mul_of_pos_right hdc (by positivity)
        _ ≤ 10 ^ digitCount c * 10 ^ 324 := Nat.mul_le_mul_left _ hbound
        _ = 10 ^ (digitCount c + 324) := by rw [Nat.pow_add]
        _ ≤ f := by rw [hf]; exact Nat.pow_le_pow_right (by decide) (by omega)
    omega
  · by_contra hlarge
    have hdc := pow_digitCount_le hc
    have hbound : T < M * 2 ^ (unitBits + 1) := by rw [hT, hM]; decide +kernel
    have : T * f < T * f :=
      calc T * f < M * 2 ^ (unitBits + 1) * f := Nat.mul_lt_mul_of_pos_right hbound hf0
        _ = 2 ^ (unitBits + 1) * 10 ^ (309 + (-e).toNat) := by
          rw [hf, hM, Nat.pow_add 10 309, Nat.mul_assoc, Nat.mul_left_comm]
        _ ≤ 2 ^ (unitBits + 1) * 10 ^ (digitCount c - 1 + e.toNat) :=
          Nat.mul_le_mul_left _ (Nat.pow_le_pow_right (by decide) (by omega))
        _ = 10 ^ (digitCount c - 1) * (2 ^ (unitBits + 1) * g) := by rw [hg, Nat.pow_add]; ring
        _ ≤ c * (2 ^ (unitBits + 1) * g) := Nat.mul_le_mul_right _ hdc
        _ ≤ T * f := hhigh
    omega

/-- A decimal in the interval of a finite double other than zero is read as that double. -/
theorem ofDecimal_of_within (hpos : 0 < x.rank) (hfin : x.isInfinite = false) (h : d.Within x) :
    ofDecimal d.coefficient d.exponent = x := by
  obtain ⟨hc, hsmall, hlarge⟩ := h.magnitude hpos hfin
  have hpow (n : Nat) : 2 ^ (n + 1) = 2 * 2 ^ n := Nat.pow_succ'
  unfold ofDecimal
  simp only [Nat.pow_eq]
  rw [if_neg (by omega), if_neg (by omega)]
  replace h := h.holds
  split
  · rename_i he
    rw [show (-d.exponent).toNat = 0 by omega, hpow] at h
    refine ofRatio_of_holds (by decide) hpos hfin ?_
    generalize 2 ^ unitBits = w at h ⊢
    rw [← h]
    congr 1
    ring
  · rename_i he
    rw [show d.exponent.toNat = 0 by omega, hpow] at h
    refine ofRatio_of_holds (by positivity) hpos hfin ?_
    generalize 2 ^ unitBits = w at h ⊢
    rw [← h]
    congr 1
    ring

/-- A rank that a double has: there is none beyond infinity. -/
def IsDouble (x : Binary64) : Prop := x.rank ≤ infinity.rank

theorem isDouble_ofRatio (num den : Nat) : (ofRatio num den).IsDouble := Nat.min_le_right _ _

theorem isDouble_ofDecimal (coefficient : Nat) (exponent : Int) : (ofDecimal coefficient exponent).IsDouble := by
  unfold ofDecimal
  dsimp only
  split
  · exact Nat.zero_le _
  · split
    · exact Nat.le_refl _
    · split
      · exact isDouble_ofRatio _ _
      · exact isDouble_ofRatio _ _

theorem IsDouble.eq_infinity (h : x.IsDouble) (hinf : x.isInfinite = true) : x = infinity := by
  have hle : infinity.rank ≤ x.rank := of_decide_eq_true hinf
  obtain ⟨rank⟩ := x
  exact congrArg Binary64.mk (Nat.le_antisymm h hle)

/-! ## The search for the shortest decimal -/

/-- Whatever a grid offers lies in the interval. -/
theorem within_of_onGrid (h : (interval x).onGrid e = some d) : d.Within x := by
  unfold Interval.onGrid at h
  simp only [Nat.pow_eq] at h
  refine ⟨?_⟩
  split at h
  · rename_i hup
    cases h
    exact (Bool.and_eq_true _ _ |>.mp hup).1
  · split at h
    · rename_i hlo
      cases h
      exact hlo
    · cases h

/-- The value of a double is below the gap to its lower neighbour, taken 2⁵⁴ times. -/
theorem units_lt_gap (hpos : 0 < rank) :
    units rank < 2 ^ 54 * (units rank - units (rank - 1)) ∧ units (rank - 1) ≤ units rank ∧
      units rank < units (rank + 1) := by
  obtain ⟨b, m, hs, hlt⟩ := exists_split rank
  have hB : 4 * binadeSize = 2 ^ 54 := rfl
  have hB0 := binadeSize_pos
  have hp : 0 < 2 ^ b := by positivity
  rw [units_of_split hs, units_of_split (hs.succ hlt), Nat.add_one_mul m]
  have hm : m * 2 ^ b < 2 * binadeSize * 2 ^ b := Nat.mul_lt_mul_of_pos_right hlt hp
  rcases units_pred hs hpos with ⟨k, rfl, -, hpred⟩ | ⟨a, rfl, rfl, hpred⟩
  · rw [hpred, Nat.add_one_mul k]
    rw [Nat.mul_assoc] at hm
    have hgap : k * 2 ^ b + 2 ^ b - k * 2 ^ b = 2 ^ b := by omega
    have : 4 * binadeSize * 2 ^ b = 4 * (binadeSize * 2 ^ b) := Nat.mul_assoc ..
    rw [hgap, ← hB]
    rw [Nat.add_one_mul k] at hm
    refine ⟨by omega, by omega, by omega⟩
  · rw [hpred]
    have h1 : binadeSize * 2 ^ (a + 1) = 2 * binadeSize * 2 ^ a := by ring
    have hgap : 2 * binadeSize * 2 ^ a - (2 * binadeSize - 1) * 2 ^ a = 2 ^ a := by
      rw [← Nat.sub_mul, show 2 * binadeSize - (2 * binadeSize - 1) = 1 by omega, Nat.one_mul]
    have hle : (2 * binadeSize - 1) * 2 ^ a ≤ 2 * binadeSize * 2 ^ a := Nat.mul_le_mul_right _ (by omega)
    have h4 : 4 * binadeSize * 2 ^ a = 2 * (2 * binadeSize * 2 ^ a) := by ring
    have hpa : 0 < 2 * binadeSize * 2 ^ a := by positivity
    rw [h1, hgap, ← hB, h4]
    refine ⟨by omega, hle, by omega⟩

/-- The leading digit of a double is where `leadingExponent` says: seventeen places further down, a step of the
grid is at most a 10¹⁷th of the value. -/
theorem step_le (hpos : 0 < x.rank) (he : e = leadingExponent x - 17) :
    2 ^ (unitBits + 1) * 10 ^ e.toNat * 10 ^ 17 ≤ 2 * units x.rank * 10 ^ (-e).toNat := by
  have hV := units_pos hpos
  obtain ⟨w, hw⟩ : ∃ w, w = 2 ^ unitBits := ⟨_, rfl⟩
  obtain ⟨n, hn⟩ : ∃ n, n = 340 := ⟨_, rfl⟩
  obtain ⟨t, ht⟩ : ∃ t, t = 10 ^ n := ⟨_, rfl⟩
  have hw0 : 0 < w := by rw [hw]; positivity
  have hwt : w ≤ t := by rw [hw, ht, hn]; decide +kernel
  obtain ⟨q, hq⟩ : ∃ q, q = units x.rank * t / w := ⟨_, rfl⟩
  have hq0 : 0 < q := by
    rw [hq]
    exact Nat.div_pos (Nat.le_trans hwt (Nat.le_mul_of_pos_left t hV)) hw0
  have hlen : e + 358 = digitCount q := by
    rw [he, leadingExponent, ← hn, Nat.pow_eq, Nat.pow_eq, ← hw, ← ht, ← hq]
    omega
  have hdc := pow_digitCount_le hq0
  have hdc0 := digitCount_pos q
  have hlead : 10 ^ (digitCount q - 1) * w ≤ units x.rank * t :=
    Nat.le_trans (Nat.mul_le_mul_right w hdc) (hq ▸ Nat.div_mul_le_self _ _)
  refine Nat.le_of_mul_le_mul_right (c := t) ?_ (by omega)
  calc 2 ^ (unitBits + 1) * 10 ^ e.toNat * 10 ^ 17 * t
      = 2 * w * (10 ^ e.toNat * 10 ^ 17 * t) := by rw [Nat.pow_succ, ← hw]; ring
    _ = 2 * w * (10 ^ (digitCount q - 1) * 10 ^ (-e).toNat) := by
        rw [ht, ← Nat.pow_add, ← Nat.pow_add, ← Nat.pow_add,
          show e.toNat + 17 + n = digitCount q - 1 + (-e).toNat by omega]
    _ = 2 * (10 ^ (digitCount q - 1) * w) * 10 ^ (-e).toNat := by ring
    _ ≤ 2 * (units x.rank * t) * 10 ^ (-e).toNat :=
        Nat.mul_le_mul_right _ (Nat.mul_le_mul_left 2 hlead)
    _ = 2 * units x.rank * 10 ^ (-e).toNat * t := by ring

/-- Seventeen places below the leading digit the grid has a point in the interval: the one below the value. -/
theorem onGrid_isSome (hpos : 0 < x.rank) (he : e = leadingExponent x - 17) :
    ((interval x).onGrid e).isSome = true := by
  have hstep := step_le hpos he
  obtain ⟨hgap, hle, hup⟩ := units_lt_gap hpos
  obtain ⟨f, hf⟩ : ∃ f, f = 10 ^ (-e).toNat := ⟨_, rfl⟩
  obtain ⟨s, hs⟩ : ∃ s, s = 2 ^ (unitBits + 1) * 10 ^ e.toNat := ⟨_, rfl⟩
  have hf0 : 0 < f := by rw [hf]; positivity
  have hs0 : 0 < s := by rw [hs]; positivity
  rw [← hs, ← hf] at hstep
  -- a step is smaller than the gap to the lower neighbour, so the point below the value is above the lower end
  have hsmall : s ≤ (units x.rank - units (x.rank - 1)) * f := by
    refine Nat.le_of_mul_le_mul_right (c := 10 ^ 17) ?_ (by decide)
    calc s * 10 ^ 17 ≤ 2 * units x.rank * f := hstep
      _ ≤ 2 * (2 ^ 54 * (units x.rank - units (x.rank - 1))) * f :=
          Nat.mul_le_mul_right _ (Nat.mul_le_mul_left 2 (Nat.le_of_lt hgap))
      _ = (units x.rank - units (x.rank - 1)) * f * 2 ^ 55 := by ring
      _ ≤ (units x.rank - units (x.rank - 1)) * f * 10 ^ 17 := Nat.mul_le_mul_left _ (by decide)
  have hbelow := Nat.div_add_mod (2 * units x.rank * f) s
  have hmod := Nat.mod_lt (2 * units x.rank * f) hs0
  rw [Nat.mul_comm s] at hbelow
  rw [Nat.sub_mul] at hsmall
  have hlow : (interval x).holds f (2 * units x.rank * f / s * s) = true := by
    refine Interval.holds_iff.mpr ⟨.inl ?_, .inl ?_⟩
    · simp only [interval]
      have h2 : (units (x.rank - 1) + units x.rank) * f = units (x.rank - 1) * f + units x.rank * f :=
        Nat.add_mul ..
      have h3 : 2 * units x.rank * f = units x.rank * f + units x.rank * f := by ring
      have h4 : units (x.rank - 1) * f ≤ units x.rank * f := Nat.mul_le_mul_right _ hle
      omega
    · simp only [interval]
      calc 2 * units x.rank * f / s * s ≤ 2 * units x.rank * f := by omega
        _ < (units x.rank + units (x.rank + 1)) * f := Nat.mul_lt_mul_of_pos_right (by omega) hf0
  unfold Interval.onGrid
  simp only [Nat.pow_eq]
  simp only [← hf, ← hs, show (interval x).value = 2 * units x.rank from rfl, hlow]
  split <;> simp

attribute [local irreducible] Interval.onGrid

theorem Interval.search_zero (i : Interval) (e : Int) :
    i.search 0 e = (i.onGrid e).getD ⟨0, e⟩ := rfl

theorem Interval.search_succ (i : Interval) (count : Nat) (e : Int) :
    i.search (count + 1) e = (i.onGrid e).getD (i.search count (e - 1)) := rfl

theorem within_search (hpos : 0 < x.rank) :
    ∀ (count : Nat) (e : Int), e - count = leadingExponent x - 17 → ((interval x).search count e).Within x := by
  intro count
  induction count with
  | zero =>
    intro e he
    obtain ⟨d, hd⟩ := Option.isSome_iff_exists.mp (onGrid_isSome hpos (e := e) (by omega))
    rw [Interval.search_zero, hd, Option.getD_some]
    exact within_of_onGrid hd
  | succ count ih =>
    intro e he
    rw [Interval.search_succ]
    cases hd : (interval x).onGrid e with
    | some d => exact within_of_onGrid hd
    | none => exact ih (e - 1) (by omega)

/-- Whether a point lies in an interval depends on its ratio to the factor alone. -/
theorem Interval.holds_congr {i : Interval} {f p f' p' : Nat} (hf : 0 < f) (hf' : 0 < f')
    (h : p * f' = p' * f) (hp : i.holds f p = true) : i.holds f' p' = true := by
  have hlt {a : Nat} : a * f < p ↔ a * f' < p' := by
    rw [← Nat.mul_lt_mul_right hf', h, Nat.mul_right_comm a, Nat.mul_lt_mul_right hf]
  have hgt {a : Nat} : p < a * f ↔ p' < a * f' := by
    rw [← Nat.mul_lt_mul_right hf', h, Nat.mul_right_comm a, Nat.mul_lt_mul_right hf]
  have heq {a : Nat} : a * f = p ↔ a * f' = p' := by
    have := @hlt a
    have := @hgt a
    omega
  rw [Interval.holds_iff] at hp ⊢
  rw [← hlt, ← hgt, ← heq, eq_comm (a := p'), ← heq]
  rw [eq_comm (a := p)] at hp
  exact hp

/-- Decimals of the same value lie in the same intervals. -/
theorem Decimal.Within.congr {d' : Decimal}
    (h : d.coefficient * 10 ^ (d.exponent.toNat + (-d'.exponent).toNat) =
      d'.coefficient * 10 ^ (d'.exponent.toNat + (-d.exponent).toNat)) (hd : d.Within x) : d'.Within x := by
  refine ⟨Interval.holds_congr (by positivity) (by positivity) ?_ hd.holds⟩
  generalize 2 ^ (unitBits + 1) = w
  rw [Nat.pow_add, Nat.pow_add] at h
  calc d.coefficient * (w * 10 ^ d.exponent.toNat) * 10 ^ (-d'.exponent).toNat
      = w * (d.coefficient * (10 ^ d.exponent.toNat * 10 ^ (-d'.exponent).toNat)) := by ring
    _ = w * (d'.coefficient * (10 ^ d'.exponent.toNat * 10 ^ (-d.exponent).toNat)) := by rw [h]
    _ = d'.coefficient * (w * 10 ^ d'.exponent.toNat) * 10 ^ (-d.exponent).toNat := by ring

theorem Decimal.Within.normal : ∀ (count : Nat) {d : Decimal}, d.Within x →
    (d.normal count).Within x := by
  intro count
  induction count with
  | zero => exact fun h => h
  | succ count ih =>
    intro d h
    rw [Decimal.normal]
    split
    · rename_i hzero
      refine ih (h.congr ?_)
      obtain ⟨c, hc⟩ : ∃ c, d.coefficient = 10 * c := ⟨d.coefficient / 10, by omega⟩
      have hexp : (d.exponent + 1).toNat + (-d.exponent).toNat =
          1 + (d.exponent.toNat + (-(d.exponent + 1)).toNat) := by omega
      simp only [hc, Nat.mul_div_cancel_left c (show 0 < 10 by decide)]
      rw [hexp, Nat.pow_add 10 1]
      ring
    · exact h

/-- The shortest decimal of a double lies in its interval. -/
theorem within_shortest (hpos : 0 < x.rank) : (shortest x).Within x :=
  Decimal.Within.normal 20 (within_search hpos 17 (leadingExponent x) rfl)

end QiIdl.Binary64
