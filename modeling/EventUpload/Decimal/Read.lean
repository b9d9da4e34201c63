/-!
# Reading decimals as doubles

`Decimal.nearest` is the double nearest to a decimal. `Decimal.readDouble?` reads a whole text: a
sign, then digits with or without a point and an exponent, or one of the words for infinity and for
what is no number, in any case of letters.
-/

set_option autoImplicit false

namespace EventUpload.Decimal

def infinity : Float := 1.0 / 0.0

def notANumber : Float := 0.0 / 0.0

/-- The double nearest to `digits · 10^exponent`. A size beyond all doubles, or below half of the
smallest one, is settled without computing the power. -/
def nearest (digits : Nat) (exponent : Int) : Float :=
  let size : Int := (Nat.toDigits 10 digits).length + exponent
  if digits = 0 || size < -330 then 0.0
  else if 310 < size then infinity
  else Float.ofScientific digits (exponent < 0) exponent.natAbs

def numberOf (digits : List Char) : Nat :=
  digits.foldl (fun n c => n * 10 + (c.toNat - '0'.toNat)) 0

/-- The exponent behind its mark: digits with or without a sign. -/
def readExponent? (cs : List Char) : Option Int :=
  let (negative, digits) := match cs with
    | '-' :: rest => (true, rest)
    | '+' :: rest => (false, rest)
    | cs => (false, cs)
  if digits.isEmpty || !digits.all Char.isDigit then none
  else some (if negative then -(numberOf digits : Int) else numberOf digits)

/-- The size of a number without its sign. -/
def readSize? (cs : List Char) : Option Float :=
  let word := String.ofList (cs.map Char.toLower)
  if word = "inf" || word = "infinity" then some infinity
  else if word = "nan" then some notANumber
  else
    let whole := cs.takeWhile Char.isDigit
    let rest := cs.dropWhile Char.isDigit
    let (fraction, rest) := match rest with
      | '.' :: rest => (rest.takeWhile Char.isDigit, rest.dropWhile Char.isDigit)
      | rest => ([], rest)
    let digits := whole ++ fraction
    if digits.isEmpty then none
    else
      let value := fun (e : Int) => some (nearest (numberOf digits) (e - fraction.length))
      match rest with
      | [] => value 0
      | c :: rest =>
        if c = 'e' || c = 'E' then (readExponent? rest).bind value else none

def readDouble? (cs : List Char) : Option Float :=
  match cs with
  | '-' :: rest => (readSize? rest).map fun x => -x
  | '+' :: rest => readSize? rest
  | cs => readSize? cs

end EventUpload.Decimal
