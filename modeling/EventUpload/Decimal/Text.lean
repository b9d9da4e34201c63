import EventUpload.Decimal.Shortest

/-!
# Text of a double

`Decimal.textOfDouble` writes a double with the fewest digits that read back. It is positional, with at least
one digit on each side of the point, when the first digit's place is between `10^-5` and `10^15`;
outside of that range it is scientific with a signed exponent: `1e-7`, `1.5e+300`.
`Decimal.plainOfDouble` writes the same digits without any exponent, and a whole number without a
point.
-/

set_option autoImplicit false

namespace EventUpload

/-- Where a layout of digits stops being positional, and how an exponent is written. -/
structure Decimal.Layout where
  /-- The largest power of ten of the point's place that is still positional. -/
  above : Int
  /-- The smallest one. -/
  below : Int
  /-- Whether a positive exponent carries its sign. -/
  plus : Bool

def Decimal.jsonLayout : Decimal.Layout := ⟨16, -5, true⟩

/-- A decimal without its sign. -/
def Decimal.text (layout : Decimal.Layout) (d : Decimal) : String :=
  let digits := Nat.toDigits 10 d.digits
  let count : Int := digits.length
  let point := count + d.exponent
  let whole := fun (cs : List Char) => String.ofList cs
  if 0 ≤ d.exponent && point ≤ layout.above then
    whole (digits ++ List.replicate d.exponent.toNat '0') ++ ".0"
  else if 0 < point && point ≤ layout.above then
    whole (digits.take point.toNat) ++ "." ++ whole (digits.drop point.toNat)
  else if layout.below < point && point ≤ 0 then
    "0." ++ whole (List.replicate (-point).toNat '0' ++ digits)
  else
    let exponent := point - 1
    let sign := if exponent < 0 then "-" else if layout.plus then "+" else ""
    let power := sign ++ toString exponent.natAbs
    match digits with
    | [d] => whole [d] ++ "e" ++ power
    | d :: rest => whole [d] ++ "." ++ whole rest ++ "e" ++ power
    | [] => ""

def Decimal.textOfDouble (x : Float) : String :=
  let negative := x.toBits.toNat / Nat.pow 2 63 = 1
  let size := x.abs
  let body := if size == 0.0 then "0.0" else Decimal.text Decimal.jsonLayout (.ofDouble size)
  if negative then "-" ++ body else body

/-- A decimal without its sign and without an exponent. -/
def Decimal.plainText (d : Decimal) : String :=
  let digits := Nat.toDigits 10 d.digits
  let point := (digits.length : Int) + d.exponent
  let whole := fun (cs : List Char) => String.ofList cs
  if 0 ≤ d.exponent then whole (digits ++ List.replicate d.exponent.toNat '0')
  else if 0 < point then
    whole (digits.take point.toNat) ++ "." ++ whole (digits.drop point.toNat)
  else "0." ++ whole (List.replicate (-point).toNat '0' ++ digits)

def Decimal.plainOfDouble (x : Float) : String :=
  if x.isNaN then "NaN"
  else
    let negative := x.toBits.toNat / Nat.pow 2 63 = 1
    let size := x.abs
    let body := if size.isInf then "inf"
      else if size == 0.0 then "0"
      else Decimal.plainText (.ofDouble size)
    if negative then "-" ++ body else body

end EventUpload
