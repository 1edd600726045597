import TagCatalog.Power

/-! Quotients rounded to a fixed number of decimal places. -/

namespace TagCatalog.Decimal

/-- The integer nearest to `num / den`; halfway, the even one. -/
def roundDiv (num den : Nat) : Nat :=
  let q := num / den
  let r := num % den
  if 2 * r < den then q
  else if den < 2 * r then q + 1
  else q + q % 2

theorem roundDiv_mul (q : Nat) {den : Nat} (h : 0 < den) : roundDiv (q * den) den = q := by
  simp [roundDiv, Nat.mul_div_cancel _ h, h]

def fixed (places num den : Nat) : String :=
  let n := roundDiv (num * 10 ^ places) den
  let ds := Nat.toDigits 10 (n % 10 ^ places)
  let whole := String.ofList (Nat.toDigits 10 (n / 10 ^ places))
  if places = 0 then whole
  else whole ++ "." ++ String.ofList (List.replicate (places - ds.length) '0' ++ ds)

end TagCatalog.Decimal
