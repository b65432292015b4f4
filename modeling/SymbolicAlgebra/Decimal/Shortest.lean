/-
  Shortest decimals
  =================
  The decimal fraction with the fewest digits inside an interval around a number.
  For a binary floating-point number the interval holds exactly the reals that
  round to it, so the fraction found is the shortest text that reads back.

  An interval is given by natural numerators over one denominator. On each grid of
  decimal fractions only the two neighbours of the number can be the nearest grid
  point inside, so `onGrid?` tests these two; `shortest` takes the first hit among
  the grids of 1, 2, … 17 digits. **`within_onGrid?`**: what a grid yields lies in
  the interval.
-/
import SymbolicAlgebra.Decimal.Basic

namespace SymbolicAlgebra.Decimal

-- a power of whole numbers is that of the core library, whatever else has powers
attribute [local instance (1100)] instPowNat

/-- The numbers from `low / den` to `high / den` around `mid / den`, the ends included or not. -/
structure Interval where
  low : Nat
  mid : Nat
  high : Nat
  den : Nat
  closed : Bool

/-- Whether `c · 10 ^ k` lies in the interval; `up` and `down` are the powers of ten that
clear the exponent, `10 ^ k` and one for `k ≥ 0`, one and `10 ^ -k` otherwise. -/
def Interval.holds (i : Interval) (up down c : Nat) : Bool :=
  let point := c * up * i.den
  if i.closed then i.low * down ≤ point && point ≤ i.high * down
  else i.low * down < point && point < i.high * down

/-- The multiple of `10 ^ k` in the interval that is nearest to its middle, if there is one.
Of two equally near multiples the even one is taken. -/
def onGrid? (i : Interval) (k : Int) : Option Nat :=
  let up := 10 ^ k.toNat
  let down := 10 ^ (-k).toNat
  let below := i.mid * down / (up * i.den)
  let above := below + 1
  match i.holds up down below, i.holds up down above with
  | true, true =>
    let toBelow := i.mid * down - below * up * i.den
    let toAbove := above * up * i.den - i.mid * down
    if toBelow < toAbove then some below
    else if toAbove < toBelow then some above
    else if below % 2 = 0 then some below else some above
  | true, false => some below
  | false, true => some above
  | false, false => none

theorem within_onGrid? {i : Interval} {k : Int} {c : Nat} (h : onGrid? i k = some c) :
    i.holds (10 ^ k.toNat) (10 ^ (-k).toNat) c = true := by
  unfold onGrid? at h
  dsimp only at h
  split at h
  · split at h
    · simp_all
    · split at h
      · simp_all
      · split at h <;> simp_all
  · simp_all
  · simp_all
  · simp at h

/-- The first hit on the grids that place `digits`, `digits + 1`, … digits from the given
magnitude on; at most `limit` grids are tried. -/
def firstOnGrid (i : Interval) (magnitude : Int) (digits : Nat) : Nat → Decimal
  | 0 => ⟨i.mid / i.den, 0⟩
  | limit + 1 =>
    let k := magnitude - digits + 1
    match onGrid? i k with
    | some c => ⟨c, k⟩
    | none => firstOnGrid i magnitude (digits + 1) limit

/-- The decimal fraction of fewest digits in an interval of positive numbers. Seventeen
digits are enough for every interval of binary64 numbers. -/
def shortest (i : Interval) : Decimal :=
  (firstOnGrid i (magnitude i.mid i.den) 1 17).reduced

end SymbolicAlgebra.Decimal
