import Mathlib
import TagCatalog.Settings

/-! The part of a score that comes from votes. A weight is cut to whole units without an overflow, and
the term grows with the weight, is flat around zero and odd, for any size that grows from zero at one. -/

namespace TagCatalog

section

variable {α : Type*} [AddCommGroup α]

theorem signed_neg (size : Nat → α) (m : Int) : signed 0 size (-m) = -signed 0 size m := by
  rcases lt_trichotomy m 0 with hneg | rfl | hpos
  · rw [signed, signed, if_neg (by omega), if_pos (by omega), if_neg (by omega), if_neg (by omega),
      Int.natAbs_neg, neg_neg]
  · simp [signed]
  · rw [signed, signed, if_neg (by omega), if_neg (by omega), if_neg (by omega), if_pos hpos,
      Int.natAbs_neg]

theorem signed_eq_sign_smul (size : Nat → α) (m : Int) :
    signed 0 size m = m.sign • size (max m.natAbs 1) := by
  rcases lt_trichotomy m 0 with hneg | rfl | hpos
  · have hsize : max m.natAbs 1 = m.natAbs := by omega
    rw [signed, if_neg (by omega), if_neg (by omega), Int.sign_eq_neg_one_of_neg hneg, hsize,
      neg_one_zsmul]
  · simp [signed]
  · have hsize : max m.natAbs 1 = m.natAbs := by omega
    rw [signed, if_neg (by omega), if_pos hpos, Int.sign_eq_one_of_pos hpos, hsize, one_zsmul]

variable [LinearOrder α] {size : Nat → α} (hsize : ∀ m n, 1 ≤ m → m ≤ n → size m ≤ size n)
  (hone : size 1 = 0)
include hsize hone

theorem signed_nonneg {m : Int} (h : 0 ≤ m) : 0 ≤ signed 0 size m := by
  rcases h.eq_or_lt with rfl | hpos
  · simp [signed]
  · rw [signed, if_neg (by omega), if_pos hpos, ← hone]
    exact hsize 1 m.natAbs le_rfl (by omega)

theorem signed_mono [IsOrderedAddMonoid α] : Monotone (signed 0 size) := by
  intro m n hmn
  have hpositive (m n : Int) (hm : 0 < m) (hmn : m ≤ n) : signed 0 size m ≤ signed 0 size n := by
    rw [signed, signed, if_neg (by omega), if_pos hm, if_neg (by omega), if_pos (by omega)]
    exact hsize m.natAbs n.natAbs (by omega) (by omega)
  -- Numbers of one sign compare by size, and zero lies between the signs.
  rcases lt_or_ge 0 m with hm | hm
  · exact hpositive m n hm hmn
  · rcases lt_or_ge n 0 with hn | hn
    · have hflipped := hpositive (-n) (-m) (by omega) (by omega)
      rwa [signed_neg, signed_neg, neg_le_neg_iff] at hflipped
    · have hlow := signed_nonneg hsize hone (neg_nonneg.mpr hm)
      rw [signed_neg, neg_nonneg] at hlow
      exact hlow.trans (signed_nonneg hsize hone hn)

end

namespace ScoreParams

/-- What votes contribute to a score, if this is the size of so many units. -/
def voteTerm {α : Type*} [Neg α] (p : ScoreParams) (zero : α) (size : Nat → α) (rshares : Int64) : α :=
  signed zero size (p.units rshares).toInt

theorem toInt_atLeastOne (n : Int64) : (atLeastOne n).toInt = max n.toInt 1 := by
  have hone : (1 : Int64).toInt = 1 := rfl
  unfold atLeastOne
  split
  · rename_i h
    rw [Int64.lt_iff_toInt_lt, hone] at h
    omega
  · rename_i h
    rw [Int64.lt_iff_toInt_lt, hone] at h
    omega

/-- The divisor is never minus one, the only one whose quotient may not fit. -/
theorem toInt_units (p : ScoreParams) (rshares : Int64) :
    (p.units rshares).toInt = rshares.toInt.tdiv (max p.rsharesScale.toInt 1) := by
  have hscale := toInt_atLeastOne p.rsharesScale
  have hne : atLeastOne p.rsharesScale ≠ -1 := by
    intro h
    have hminus : (-1 : Int64).toInt = -1 := rfl
    rw [h, hminus] at hscale
    omega
  rw [units, Int64.toInt_div_of_ne_right _ _ hne, hscale]

theorem toNat_natAbs_units (p : ScoreParams) (rshares : Int64) :
    (p.units rshares).toInt.natAbs.toUInt64.toNat = (p.units rshares).toInt.natAbs := by
  have hlow := (p.units rshares).le_toInt
  have hhigh := (p.units rshares).toInt_lt
  exact Nat.mod_eq_of_lt (by omega)

theorem toInt_units_mono (p : ScoreParams) {r r' : Int64} (h : r ≤ r') :
    (p.units r).toInt ≤ (p.units r').toInt := by
  rw [toInt_units, toInt_units]
  exact Int.tdiv_le_tdiv (by omega) (Int64.le_iff_toInt_le.mp h)

theorem toInt_units_eq_zero (p : ScoreParams) {r : Int64}
    (h : |r.toInt| < max p.rsharesScale.toInt 1) : (p.units r).toInt = 0 := by
  rw [Int.abs_eq_natAbs] at h
  rw [toInt_units, ← Int.natAbs_eq_zero, Int.natAbs_tdiv]
  exact Nat.div_eq_of_lt (by omega)

theorem toInt_units_neg (p : ScoreParams) {r : Int64} (h : r ≠ Int64.minValue) :
    (p.units (-r)).toInt = -(p.units r).toInt := by
  have hr : (-r).toInt = -r.toInt := by
    have hlow := r.le_toInt
    have hhigh := r.toInt_lt
    have hne : r.toInt ≠ -2 ^ 63 := fun hmin => h (Int64.toInt_inj.mp hmin)
    rw [Int64.toInt_neg]
    exact Int.bmod_eq_of_le (by omega) (by omega)
  rw [toInt_units, toInt_units, hr, Int.neg_tdiv]

/-- The integers of a score are exact: neither divisor is zero, the quotient is the one cut off towards
zero, and its size is a number of 64 bits. -/
structure ExactUnits (p : ScoreParams) (rshares : Int64) : Prop where
  scale_ne_zero : atLeastOne p.rsharesScale ≠ 0
  scale_eq : (atLeastOne p.rsharesScale).toInt = max p.rsharesScale.toInt 1
  decay_ne_zero : atLeastOne p.decaySeconds ≠ 0
  decay_eq : (atLeastOne p.decaySeconds).toInt = max p.decaySeconds.toInt 1
  units_eq : (p.units rshares).toInt = rshares.toInt.tdiv (max p.rsharesScale.toInt 1)
  size_eq : (p.units rshares).toInt.natAbs.toUInt64.toNat = (p.units rshares).toInt.natAbs

theorem atLeastOne_ne_zero (n : Int64) : atLeastOne n ≠ 0 := by
  intro h
  have hmax := toInt_atLeastOne n
  have hzero : (0 : Int64).toInt = 0 := rfl
  rw [h, hzero] at hmax
  omega

theorem exactUnits (p : ScoreParams) (rshares : Int64) : p.ExactUnits rshares where
  scale_ne_zero := atLeastOne_ne_zero _
  scale_eq := toInt_atLeastOne _
  decay_ne_zero := atLeastOne_ne_zero _
  decay_eq := toInt_atLeastOne _
  units_eq := p.toInt_units rshares
  size_eq := p.toNat_natAbs_units rshares

/-- Whatever the tunables, votes bring the size of the whole units with the sign of the weight. More
weight never brings less, less than one unit brings nothing, and weight against a content counts as
much as weight for it. Only the least weight has no opposite. -/
theorem voteTerm_mono {α : Type*} [AddCommGroup α] [LinearOrder α] [IsOrderedAddMonoid α]
    (p : ScoreParams) {size : Nat → α} (hsize : ∀ m n, 1 ≤ m → m ≤ n → size m ≤ size n)
    (hone : size 1 = 0) :
    (∀ rshares, p.ExactUnits rshares) ∧
    (∀ rshares created, p.score rshares created = .ofFloat
      (p.voteTerm (.ofBits 0) (fun n => (toFloat n).log10) rshares + p.age created)) ∧
    (∀ rshares, p.voteTerm 0 size rshares =
      (p.units rshares).toInt.sign • size (max (p.units rshares).toInt.natAbs 1)) ∧
    (∀ r r', r ≤ r' → p.voteTerm 0 size r ≤ p.voteTerm 0 size r') ∧
    (∀ r : Int64, |r.toInt| < max p.rsharesScale.toInt 1 → p.voteTerm 0 size r = 0) ∧
    ∀ r, r ≠ Int64.minValue → p.voteTerm 0 size (-r) = -p.voteTerm 0 size r := by
  refine ⟨p.exactUnits, fun _ _ => rfl, fun _ => signed_eq_sign_smul size _, ?_, ?_, ?_⟩
  · intro r r' hle
    exact signed_mono hsize hone (p.toInt_units_mono hle)
  · intro r hr
    rw [voteTerm, p.toInt_units_eq_zero hr]
    rfl
  · intro r hr
    rw [voteTerm, p.toInt_units_neg hr, signed_neg]
    rfl

/-- A hundred units for or against content change its score by two. -/
theorem voteTerm_mono_hot :
    let size (n : Nat) := Real.logb 10 n
    (∀ m n, 1 ≤ m → m ≤ n → size m ≤ size n) ∧ size 1 = 0 ∧
      ScoreParams.hot.voteTerm 0 size 1000000000 = 2 ∧
      ScoreParams.hot.voteTerm 0 size (-1000000000) = -2 ∧
      ScoreParams.hot.voteTerm 0 size 9999999 = 0 := by
  intro size
  have hsize : ∀ m n, 1 ≤ m → m ≤ n → size m ≤ size n := by
    intro m n hm hmn
    exact Real.logb_le_logb_of_le (by norm_num) (by exact_mod_cast hm) (by exact_mod_cast hmn)
  have hone : size 1 = 0 := by simp [size]
  obtain ⟨-, -, hterm, -, hflat, hodd⟩ := voteTerm_mono ScoreParams.hot hsize hone
  have hunits : (ScoreParams.hot.units 1000000000).toInt = 100 := by decide
  have hup : ScoreParams.hot.voteTerm 0 size 1000000000 = 2 := by
    have hsquare : ((max (100 : Int).natAbs 1 : Nat) : ℝ) = 10 ^ 2 := by norm_num
    have hsign : (100 : Int).sign = 1 := rfl
    rw [hterm, hunits, hsign, one_zsmul]
    change Real.logb 10 ((max (100 : Int).natAbs 1 : Nat) : ℝ) = 2
    rw [hsquare, Real.logb_pow, Real.logb_self_eq_one (by norm_num)]
    norm_num
  refine ⟨hsize, hone, hup, ?_, hflat 9999999 (by decide)⟩
  rw [hodd 1000000000 (by decide), hup]

end ScoreParams

end TagCatalog
