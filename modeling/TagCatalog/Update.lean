import TagCatalog.Fault

/-! Changes of a state that can stop half way. What was written before the stop stays written. -/

namespace TagCatalog

/-- Why an update stops: a fault it reports, or a sum that its field cannot hold. -/
inductive Halt
  | fault (f : Fault)
  | overflow
  deriving DecidableEq, Repr

abbrev Update (σ : Type) := EStateM Halt σ

namespace Update

def fail (f : Fault) : Update σ α := throw (.fault f)

def within (part : σ → τ) (replace : σ → τ → σ) (m : Update τ α) : Update σ α := fun s =>
  match m (part s) with
  | .ok a t => .ok a (replace s t)
  | .error h t => .error h (replace s t)

def require (f : Fault) : Option α → Update σ α
  | some a => pure a
  | none => fail f

/-- A sum of naturals below `2 ^ bits`. -/
def sum (bits a b : Nat) : Update σ Nat :=
  if a + b < 2 ^ bits then pure (a + b) else throw .overflow

def fits (bits : Nat) (n : Int) : Update σ Int :=
  if -(2 ^ (bits - 1)) ≤ n ∧ n < 2 ^ (bits - 1) then pure n else throw .overflow

end Update

end TagCatalog
