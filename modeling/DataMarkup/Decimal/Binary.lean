/-! Binary64 numbers, as they are stored and as they are read. A positive finite one is a whole number of
units, each unit a power of two. -/

namespace DataMarkup

/-- The number `m * 2 ^ q`. It is `narrow` when it is the least of its binade, so that the gap below
it is half the gap above. -/
structure Binary where
  m : Nat
  q : Int
  narrow : Bool
  deriving DecidableEq

/-- All 64 bits count for the identity of a number, also those of what is no number. -/
structure Binary64 where
  bits : UInt64

namespace Binary64

inductive Value
  | notANumber
  | infinite (negative : Bool)
  | zero (negative : Bool)
  | finite (negative : Bool) (magnitude : Binary)
  deriving DecidableEq

/-- One bit of sign, eleven of exponent, fifty-two of fraction. Exponent 0 holds the subnormal
numbers, exponent 2047 what is no finite number. -/
def value (x : Binary64) : Value :=
  let bits := x.bits.toNat
  let negative := bits >>> 63 % 2 == 1
  let exponent : Nat := bits >>> 52 % (1 <<< 11)
  let fraction : Nat := bits % (1 <<< 52)
  if exponent = 2047 then
    if fraction = 0 then .infinite negative else .notANumber
  else if exponent = 0 then
    if fraction = 0 then .zero negative else .finite negative ⟨fraction, -1074, false⟩
  else
    .finite negative
      ⟨(1 <<< 52) + fraction, (exponent : Int) - 1075, fraction == 0 && 1 < exponent⟩

def Value.equals : Value → Value → Bool
  | notANumber, _ => false
  | zero _, zero _ => true
  | v, w => v = w

instance : BEq Binary64 := ⟨fun x y => x.value.equals y.value⟩

end Binary64
end DataMarkup
