import TagTable.Binary64

/-!
# Fixed-point decimals

A double written with a given number of decimal places, its exact value rounded to the nearest, a
tie to the even digit.

* `roundQuotient`: a quotient of natural numbers rounded to the nearest;
* `fixedPoint`: the decimal text of a double.
-/

namespace TagTable

/-- The natural number nearest to `num / den`, of two the even one. -/
def roundQuotient (num den : Nat) : Nat :=
  let quotient := num / den
  let twice := 2 * (num % den)
  if twice < den then quotient
  else if den < twice then quotient + 1
  else quotient + quotient % 2

/-- A number of units of `10 ^ (-places)` with its decimal point. -/
def pointed (places units : Nat) : String :=
  let fraction := toString (units % Nat.pow 10 places)
  let zeros := String.ofList (List.replicate (places - fraction.length) '0')
  s!"{units / Nat.pow 10 places}.{zeros}{fraction}"

/-- A double with `places` decimal places, at least one. -/
def fixedPoint (places : Nat) (x : Binary64) : String :=
  let sign := if x.negative then "-" else ""
  if x.isNaN then "NaN"
  else if x.isInfinite then sign ++ "inf"
  else
    let scaled := x.significand * Nat.pow 10 places
    let units :=
      if 0 ≤ x.exponent then scaled <<< x.exponent.toNat
      else roundQuotient scaled (1 <<< (-x.exponent).toNat)
    sign ++ pointed places units

end TagTable
