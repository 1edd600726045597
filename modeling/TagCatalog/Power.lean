/-! Powers with a natural exponent are those of the core library here, also where a library with
powers of its own is loaded: definitions and theorems speak of the same power. -/

namespace TagCatalog

attribute [scoped instance (high)] instPowNat instNatPowNat Int.instNatPow

-- A numeral in the exponent has no type at first, and a default instance chooses the power.
attribute [default_instance (high + 1)] instPowNat

end TagCatalog
