import DataMarkup.Decimal.Binary

/-! Shortest decimals of binary64 magnitudes. The reals that round to a magnitude form an interval;
the answer lies on the coarsest grid of multiples of a power of ten that meets this interval. -/

namespace DataMarkup

structure Decimal where
  digits : Nat
  exponent : Int
  deriving DecidableEq

namespace Binary

/-- A grid step `10 ^ e` is `stepNum / stepDen` units of `2 ^ q`. -/
def stepNum (b : Binary) (e : Int) : Nat := Nat.pow 10 e.toNat <<< (-b.q).toNat

def stepDen (b : Binary) (e : Int) : Nat := Nat.pow 10 (-e).toNat <<< b.q.toNat

/-- Does the decimal round to `b`? The ends of the interval, half a gap away on either side, belong to
it when `m` is even. Lengths are in quarters of a unit. -/
def readsBack (b : Binary) (d : Decimal) : Bool :=
  let point := 4 * d.digits * b.stepNum d.exponent
  let low := (4 * b.m - if b.narrow then 1 else 2) * b.stepDen d.exponent
  let high := (4 * b.m + 2) * b.stepDen d.exponent
  if b.m % 2 = 0 then low ≤ point ∧ point ≤ high else low < point ∧ point < high

def above (b : Binary) (e : Int) : Decimal :=
  ⟨b.m * b.stepDen e / b.stepNum e + 1, e⟩

def nearest (b : Binary) (e : Int) : Decimal :=
  ⟨(2 * b.m * b.stepDen e + b.stepNum e) / (2 * b.stepNum e), e⟩

/-- The multiple of `10 ^ e` nearest to `b` among those that round to `b`. When the nearest one of all
does not, it lies below a `narrow` value, and the gap above may still hold the next one. -/
def onGrid (b : Binary) (e : Int) : Option Decimal :=
  if b.readsBack (b.nearest e) then some (b.nearest e)
  else if b.readsBack (b.above e) then some (b.above e)
  else none

/-- Every interval lies below `10 ^ (coarsest + 1)`. -/
def coarsest : Int := 308

/-- Every interval is longer than `10 ^ finest`, so this grid meets it. -/
def finest : Int := -324

def search (b : Binary) : Nat → Decimal
  | 0 => b.nearest finest
  | k + 1 => (b.onGrid (finest + (k + 1))).getD (b.search k)

def shortest (b : Binary) : Decimal := b.search (coarsest - finest).toNat

end Binary
end DataMarkup
