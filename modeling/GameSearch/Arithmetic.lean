/-
  GameSearch.Arithmetic

  Powers and sums of numbers, as the core library has them.  A module that takes these
  instances for its own reads the same wherever other algebra is in scope too.
-/

namespace GameSearch.Arithmetic

/-- The power of the core library. -/
@[reducible] def power {α : Type} [NatPow α] : Pow α Nat := instPowNat

/-- The numeral zero, with which sums start. -/
@[reducible] def zero {α : Type} [OfNat α 0] : Zero α := Zero.ofOfNat0

end GameSearch.Arithmetic
