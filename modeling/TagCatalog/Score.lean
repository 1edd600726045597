import TagCatalog.Decimal.Fixed
import TagCatalog.Instant.Basic

/-! Ranking scores: the order of magnitude of the vote weight plus the age, so that ten times the
weight makes up for a fixed number of seconds. -/

namespace TagCatalog

structure Score where
  bits : UInt64
  deriving DecidableEq, Repr, Inhabited

namespace Score

def ofFloat (f : Float) : Score := ⟨f.toBits⟩

def isNegative (s : Score) : Bool := 2 ^ 63 ≤ s.bits.toNat

def magnitude (s : Score) : Nat := s.bits.toNat % 2 ^ 63

def infinity : Score := ⟨0x7FF0000000000000⟩

def isNaN (s : Score) : Bool := infinity.magnitude < s.magnitude

/-- The place of a score in the total order of doubles: minus zero comes before zero, and NaN
lies beyond the infinity of its sign. -/
def rank (s : Score) : Int :=
  if s.isNegative then -(s.magnitude : Int) - 1 else s.magnitude

theorem rank_injective {a b : Score} (h : a.rank = b.rank) : a = b := by
  obtain ⟨x⟩ := a
  obtain ⟨y⟩ := b
  have hx := x.toNat_lt
  have hy := y.toNat_lt
  simp only [rank, isNegative, magnitude, decide_eq_true_eq] at h
  congr 1
  apply UInt64.toNat_inj.mp
  split at h <;> split at h <;> omega

instance : Ord Score where
  compare := compareOn rank

instance : Std.TransOrd Score :=
  inferInstanceAs <| Std.TransCmp (compareOn Score.rank)

instance : Std.LawfulEqOrd Score where
  eq_of_compare {_ _} h := rank_injective (Std.LawfulEqOrd.eq_of_compare (α := Int) h)

def significand (s : Score) : Nat :=
  if s.magnitude < 2 ^ 52 then s.magnitude else 2 ^ 52 + s.magnitude % 2 ^ 52

def exponent (s : Score) : Int :=
  if s.magnitude < 2 ^ 52 then -1074 else (s.magnitude / 2 ^ 52 : Nat) - 1075

def fixed (places : Nat) (s : Score) : String :=
  if s.isNaN then "NaN"
  else
    let sign := if s.isNegative then "-" else ""
    if s.magnitude = infinity.magnitude then sign ++ "inf"
    else if 0 ≤ s.exponent then
      sign ++ Decimal.fixed places (s.significand * 2 ^ s.exponent.toNat) 1
    else sign ++ Decimal.fixed places s.significand (2 ^ s.exponent.natAbs)

end Score

structure ScoreParams where
  rsharesScale : Int64
  decaySeconds : Int64
  deriving DecidableEq, Repr

namespace ScoreParams

/-- Tunables below one count as one. -/
def atLeastOne (n : Int64) : Int64 := if n < 1 then 1 else n

/-- Vote weight in whole scale units, cut off towards zero. -/
def units (p : ScoreParams) (rshares : Int64) : Int64 :=
  rshares / atLeastOne p.rsharesScale

end ScoreParams

/-- A size with the sign of the number it belongs to. -/
def signed [Neg α] (zero : α) (size : Nat → α) (m : Int) : α :=
  if m = 0 then zero else if 0 < m then size m.natAbs else -size m.natAbs

namespace ScoreParams

def toFloat (n : Nat) : Float := n.toUInt64.toFloat

def weight (m : Int) : Float :=
  signed (.ofBits 0) (fun n => (toFloat n).log10) m

def age (p : ScoreParams) (created : Instant) : Float :=
  signed (.ofBits 0) toFloat created.seconds /
    signed (.ofBits 0) toFloat (atLeastOne p.decaySeconds).toInt

def score (p : ScoreParams) (rshares : Int64) (created : Instant) : Score :=
  .ofFloat (weight (p.units rshares).toInt + p.age created)

end ScoreParams

end TagCatalog
