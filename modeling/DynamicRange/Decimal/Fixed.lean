/-!
# Decimals with a fixed number of places

A binary64 number is a whole number times a power of two. Its decimal text is exact before it is
rounded: the number times a power of ten is rounded once to a whole number, a half going to the even
neighbour. The sign is kept where the rest rounds to zero.
-/

namespace DynamicRange.Decimal

/-- The whole number nearest to a quotient; of two, the even one. -/
def roundDiv (num den : Nat) : Nat :=
  let quotient := num / den
  let twice := 2 * (num % den)
  if twice < den ∨ (twice = den ∧ quotient % 2 = 0) then quotient else quotient + 1

/-- The whole number nearest to `mantissa * 2 ^ exponent * 10 ^ places`. -/
def scaled (mantissa : Nat) (exponent : Int) (places : Nat) : Nat :=
  if 0 ≤ exponent then
    mantissa * Nat.pow 10 places * Nat.pow 2 exponent.toNat
  else
    roundDiv (mantissa * Nat.pow 10 places) (Nat.pow 2 (-exponent).toNat)

/-- A whole number of `10 ^ places`-ths, written with `places` digits behind the point. -/
def placePoint (places n : Nat) : String :=
  let whole := toString (n / Nat.pow 10 places)
  if places = 0 then
    whole
  else
    let rest := toString (n % Nat.pow 10 places)
    whole ++ "." ++ "".pushn '0' (places - rest.length) ++ rest

/-- A number written with `places` digits behind the point. -/
def fixed (places : Nat) (x : Float) : String :=
  let bits := x.toBits.toNat
  let sign := if bits >>> 63 = 0 then "" else "-"
  let exponent := (bits >>> 52) % 0x800
  let fraction := bits % 0x10000000000000
  if exponent = 0x7ff then
    if fraction = 0 then sign ++ "inf" else "NaN"
  else
    let mantissa := if exponent = 0 then fraction else fraction + 0x10000000000000
    sign ++ placePoint places (scaled mantissa (Nat.max exponent 1 - 1075) places)

end DynamicRange.Decimal
