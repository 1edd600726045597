import Mathlib
import TagCatalog.Score

/-! The order of scores is the total order of doubles, in which a double that is less than another one
comes before it. -/

namespace TagCatalog

namespace Score

open Float.Model

/-- The total order of doubles. Negative ones come first, minus zero among them. Without the sign the
bits grow with the distance from zero, and those of a NaN are beyond those of an infinity. -/
def Below (a b : Score) : Prop :=
  match a.isNegative, b.isNegative with
  | true, false => True
  | false, true => False
  | false, false => a.magnitude < b.magnitude
  | true, true => b.magnitude < a.magnitude

theorem rank_lt_iff {a b : Score} : a.rank < b.rank ↔ a.Below b := by
  unfold rank Below
  cases a.isNegative with
  | true =>
    cases b.isNegative with
    | true => simp
    | false =>
      simp only [if_true, Bool.false_eq_true, if_false, iff_true]
      omega
  | false =>
    cases b.isNegative with
    | true =>
      simp only [Bool.false_eq_true, if_false, if_true, iff_false]
      omega
    | false => simp

/-! ## Scores taken apart -/

theorem toNat_unpackExponent (b : BitVec Format.binary64.numBits) :
    (UnpackedFloat.unpackExponent b).toNat = b.toNat / 2 ^ 52 % 2 ^ 11 := by
  simp [UnpackedFloat.unpackExponent, Format.binary64, Nat.shiftRight_eq_div_pow]

theorem toNat_unpackMantissa (b : BitVec Format.binary64.numBits) :
    (UnpackedFloat.unpackMantissa b).toNat = b.toNat % 2 ^ 52 := by
  simp [UnpackedFloat.unpackMantissa, Format.binary64]

theorem toNat_unpackSign (b : BitVec Format.binary64.numBits) :
    (UnpackedFloat.unpackSign b).toNat = b.toNat / 2 ^ 63 % 2 := by
  simp [UnpackedFloat.unpackSign, Format.binary64, Nat.shiftRight_eq_div_pow]

theorem toNat_one_append {n : Nat} (b : BitVec n) : (1#1 ++ b).toNat = 2 ^ n + b.toNat := by
  rw [BitVec.toNat_append, ← Nat.shiftLeft_add_eq_or_of_lt b.isLt]
  simp [Nat.shiftLeft_eq]

theorem magnitude_infinity : infinity.magnitude = 2047 * 2 ^ 52 := by decide

def sign (s : Score) : UnpackedFloat.Sign := if s.isNegative then .negative else .positive

def unpack (s : Score) : UnpackedFloat := .unpack .binary64 s.bits.toBitVec

/-- What a score of this sign and magnitude is unpacked to. Below infinity the magnitude is that of the
exponent and the significand together, whether the significand has all its bits or not. -/
inductive Unpacks (sign : UnpackedFloat.Sign) (magnitude : Nat) : UnpackedFloat → Prop
  | notANumber (h : infinity.magnitude < magnitude) : Unpacks sign magnitude .notANumber
  | infinity (h : magnitude = infinity.magnitude) : Unpacks sign magnitude (.infinity sign)
  | zero (h : magnitude = 0) : Unpacks sign magnitude (.zero sign)
  | finite (m : Nat) (e : Int) (hm : 0 < m) (h : magnitude < infinity.magnitude)
    (heq : magnitude = (e + 1074) * 2 ^ 52 + m) (hsize : m < 2 ^ 53)
    (hnormal : e = -1074 ∨ -1074 < e ∧ 2 ^ 52 ≤ m) :
    Unpacks sign magnitude (.finite sign m e hm)

theorem ofBitVec_unpackSign (s : Score) :
    UnpackedFloat.Sign.ofBitVec (@UnpackedFloat.unpackSign .binary64 s.bits.toBitVec) =
      s.sign := by
  have hbit := toNat_unpackSign s.bits.toBitVec
  have hlt := s.bits.toNat_lt
  have hbits : s.bits.toBitVec.toNat = s.bits.toNat := rfl
  have hzero : @UnpackedFloat.unpackSign .binary64 s.bits.toBitVec = 0#1 ↔
      ¬ 2 ^ 63 ≤ s.bits.toNat := by
    rw [← BitVec.toNat_inj, hbit, hbits, BitVec.toNat_ofNat]
    omega
  simp only [UnpackedFloat.Sign.ofBitVec, sign, isNegative, hzero, decide_eq_true_eq, ite_not]

theorem unpacks (s : Score) : Unpacks s.sign s.magnitude s.unpack := by
  have hexponent := toNat_unpackExponent s.bits.toBitVec
  have hmantissa := toNat_unpackMantissa s.bits.toBitVec
  have hbits : s.bits.toBitVec.toNat = s.bits.toNat := rfl
  rw [hbits] at hexponent hmantissa
  have hmagnitude : s.magnitude = s.bits.toNat % 2 ^ 63 := rfl
  have hinfinity := magnitude_infinity
  have hbias : (Format.binary64.exponentBias : Int) = 1023 := by decide
  have hwidth : (Format.binary64.mantissaBitsWithoutImplicit : Int) = 52 := by decide
  have hzero {n : Nat} (b : BitVec n) : b = 0#n ↔ b.toNat = 0 := by
    rw [← BitVec.toNat_inj, BitVec.toNat_ofNat, Nat.zero_mod]
  have hones (b : BitVec 11) : b = -1#11 ↔ b.toNat = 2047 := by
    rw [← BitVec.toNat_inj]
    exact Iff.rfl
  simp only [unpack, UnpackedFloat.unpack, ofBitVec_unpackSign, hbias, hwidth]
  split_ifs with hlast hman hfirst hman
  · rw [hones, hexponent] at hlast
    rw [hzero, hmantissa] at hman
    exact .infinity (by omega)
  · rw [hones, hexponent] at hlast
    rw [hzero, hmantissa] at hman
    exact .notANumber (by omega)
  · rw [hzero, hexponent] at hfirst
    rw [hzero, hmantissa] at hman
    exact .zero (by omega)
  · rw [hzero, hexponent] at hfirst
    refine .finite _ _ _ ?_ ?_ ?_ ?_ <;> omega
  · rw [hones, hexponent] at hlast
    rw [hzero, hexponent] at hfirst
    have hone : (1#1 ++ @UnpackedFloat.unpackMantissa .binary64 s.bits.toBitVec).toNat =
        2 ^ 52 + s.bits.toNat % 2 ^ 52 := by rw [toNat_one_append, hmantissa]
    refine .finite _ _ _ ?_ ?_ ?_ ?_ <;> omega

/-! ## Comparisons -/

/-- Of two positive doubles the lesser has the lesser exponent, or of one exponent the lesser
significand. -/
theorem Unpacks.lt_of_compare {i j : Nat} {x y : UnpackedFloat} (hx : Unpacks .positive i x)
    (hy : Unpacks .positive j y) (h : x.compare y = some .lt) : i < j := by
  cases hx with
  | notANumber _ => cases h
  | infinity _ =>
    cases hy with
    | notANumber _ => cases h
    | infinity _ => cases h
    | zero _ => cases h
    | finite _ _ _ _ _ _ _ => cases h
  | zero hi =>
    cases hy with
    | notANumber _ => cases h
    | infinity hj =>
      rw [hi, hj]
      decide
    | zero _ => cases h
    | finite m e hm _ heq _ hnormal => omega
  | finite m e _ hi heq hsize hnormal =>
    cases hy with
    | notANumber _ => cases h
    | infinity hj => rwa [hj]
    | zero _ => cases h
    | finite m' e' _ hj heq' hsize' hnormal' =>
      have h : (compare e e').then (compare m m') = .lt := Option.some.inj h
      rcases Ordering.then_eq_lt.mp h with hlt | ⟨he, hlt⟩
      · have hlt := Std.compare_eq_lt.mp hlt
        omega
      · have he := Std.compare_eq_iff_eq.mp he
        have hlt := Std.compare_eq_lt.mp hlt
        omega

theorem Unpacks.neg {sign : UnpackedFloat.Sign} {i : Nat} {x : UnpackedFloat}
    (h : Unpacks sign i x) : Unpacks (-sign) i x.neg := by
  cases h with
  | notANumber h => exact .notANumber h
  | infinity h => exact .infinity h
  | zero h => exact .zero h
  | finite m e hm h heq hsize hnormal => exact .finite m e hm h heq hsize hnormal

theorem compare_neg (x y : UnpackedFloat) : y.neg.compare x.neg = x.compare y := by
  have hswap (m m' : Nat) (e e' : Int) :
      ((compare e e').then (compare m m')).swap = (compare e' e).then (compare m' m) := by
    rw [Ordering.swap_then, Std.OrientedOrd.eq_swap (a := e'), Std.OrientedOrd.eq_swap (a := m')]
  rcases x with (_ | _) | _ | (_ | _) | ⟨_ | _, m, e, hm⟩ <;>
    rcases y with (_ | _) | _ | (_ | _) | ⟨_ | _, m', e', hm'⟩ <;> try rfl
  · exact congrArg some (hswap m m' e e').symm
  · exact congrArg some (hswap m' m e' e)

theorem Unpacks.not_lt {i j : Nat} {x y : UnpackedFloat} (hx : Unpacks .positive i x)
    (hy : Unpacks .negative j y) : x.compare y ≠ some .lt := by
  cases hx <;> cases hy <;> exact nofun

theorem below_of_lt {f g : Float} (h : f < g) : (ofFloat f).Below (ofFloat g) := by
  have hcompare : (ofFloat f).unpack.compare (ofFloat g).unpack = some .lt := by
    have h : decide (f.toModel < g.toModel) = true := h
    exact eq_of_beq (of_decide_eq_true h)
  have hf := unpacks (ofFloat f)
  have hg := unpacks (ofFloat g)
  unfold Below
  unfold sign at hf hg
  cases hnegf : (ofFloat f).isNegative with
  | true =>
    cases hnegg : (ofFloat g).isNegative with
    | true =>
      rw [hnegf] at hf
      rw [hnegg] at hg
      rw [← compare_neg] at hcompare
      exact hg.neg.lt_of_compare hf.neg hcompare
    | false => trivial
  | false =>
    cases hnegg : (ofFloat g).isNegative with
    | true =>
      rw [hnegf] at hf
      rw [hnegg] at hg
      exact hf.not_lt hg hcompare
    | false =>
      rw [hnegf] at hf
      rw [hnegg] at hg
      exact hf.lt_of_compare hg hcompare

end Score

end TagCatalog
