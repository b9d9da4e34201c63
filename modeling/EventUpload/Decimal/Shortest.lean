/-!
# The shortest decimal that reads back as a double

A positive finite double is `m · 2^q`. The reals that round to it form an interval, with its ends
included exactly when `m` is even. `Decimal.shortest` takes the decimal grids `10^k`, coarse to
fine, and answers with the first grid point in the interval; of two points of one grid the nearer
one counts, and of two equally near ones the even one. If a point of a grid lies in the interval,
so does one of the value's two neighbours on that grid, which is why only these are tried.
-/

set_option autoImplicit false

namespace EventUpload

/-- The number `digits · 10^exponent`. -/
structure Decimal where
  digits : Nat
  exponent : Int
deriving Repr, BEq, DecidableEq, Inhabited

namespace Decimal

/-- A positive rational as numerator and denominator. -/
structure Ratio where
  num : Nat
  den : Nat

def Ratio.ofBinary (m : Nat) (q : Int) : Ratio :=
  if 0 ≤ q then ⟨m * Nat.pow 2 q.toNat, 1⟩ else ⟨m, Nat.pow 2 (-q).toNat⟩

def Ratio.ofDecimal (d : Nat) (k : Int) : Ratio :=
  if 0 ≤ k then ⟨d * Nat.pow 10 k.toNat, 1⟩ else ⟨d, Nat.pow 10 (-k).toNat⟩

def Ratio.lt (a b : Ratio) : Bool := a.num * b.den < b.num * a.den

def Ratio.le (a b : Ratio) : Bool := a.num * b.den ≤ b.num * a.den

/-- The part of `a / 10^k` before the point. -/
def Ratio.floorDiv (a : Ratio) (k : Int) : Nat :=
  if 0 ≤ k then a.num / (a.den * Nat.pow 10 k.toNat) else a.num * Nat.pow 10 (-k).toNat / a.den

/-- The reals that round to one double: everything between the ends, and the ends too if `closed`. -/
structure Interval where
  low : Ratio
  high : Ratio
  closed : Bool

def Interval.holds (i : Interval) (x : Ratio) : Bool :=
  if i.closed then i.low.le x && x.le i.high else i.low.lt x && x.lt i.high

/-- The interval of `m · 2^q`; below a power of two the next double is half as far away. -/
def Interval.ofBinary (m : Nat) (q : Int) (powerOfTwo : Bool) : Interval :=
  { low := .ofBinary (4 * m - (if powerOfTwo then 1 else 2)) (q - 2)
    high := .ofBinary (4 * m + 2) (q - 2)
    closed := m % 2 = 0 }

/-- An exponent `k` with `v < 10^(k+1)`. -/
def magnitude (v : Ratio) : Int :=
  if v.den ≤ v.num then ((Nat.toDigits 10 (v.num / v.den)).length : Int) - 1
  else 1 - ((Nat.toDigits 10 (v.den / v.num)).length : Int)

/-- The better of the two neighbours of `v` on the grid `10^k` that lie in the interval, if any. -/
def onGrid? (v : Ratio) (i : Interval) (k : Int) : Option Nat :=
  let below := v.floorDiv k
  let above := below + 1
  match i.holds (.ofDecimal below k), i.holds (.ofDecimal above k) with
  | true, true =>
    let middle := Ratio.ofDecimal (10 * below + 5) (k - 1)
    if v.lt middle then some below
    else if middle.lt v then some above
    else some (if below % 2 = 0 then below else above)
  | true, false => some below
  | false, true => some above
  | false, false => none

/-- Searches the grids `10^k`, `10^(k-1)`, …; the double's own value ends the search. -/
def search (v : Ratio) (i : Interval) : Nat → Int → Decimal
  | 0, k => ⟨v.floorDiv k, k⟩
  | fuel + 1, k =>
    match onGrid? v i k with
    | some d => if d = 0 then search v i fuel (k - 1) else ⟨d, k⟩
    | none => search v i fuel (k - 1)

/-- The shortest decimal that rounds to `m · 2^q`. Seventeen digits always suffice. -/
def shortest (m : Nat) (q : Int) (powerOfTwo : Bool) : Decimal :=
  let v := Ratio.ofBinary m q
  search v (.ofBinary m q powerOfTwo) 20 (magnitude v + 1)

def ofDouble (x : Float) : Decimal :=
  let bits : Nat := x.toBits.toNat
  let fraction : Nat := bits % Nat.pow 2 52
  let biased : Nat := bits / Nat.pow 2 52 % Nat.pow 2 11
  if biased = 0 then shortest fraction (-1074) false
  else shortest (Nat.pow 2 52 + fraction) ((biased : Int) - 1075) (fraction = 0 && 1 < biased)

end Decimal

end EventUpload
