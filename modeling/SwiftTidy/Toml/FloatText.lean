import SwiftTidy.Number.Shortest

/-!
# The text of floating-point values

The fewest digits that read back, positional from `1e-4` up to `1e16` and with at least one digit
behind the point, and in scientific form elsewhere.
-/

namespace SwiftTidy

namespace Toml

/-- The digits of `c` without the zeros at the end, and the number of these. -/
def stripZeros : (fuel c : Nat) → Nat × Nat
  | 0, c => (c, 0)
  | fuel + 1, c =>
    if c ≠ 0 ∧ c % 10 = 0 then
      let (d, n) := stripZeros fuel (c / 10)
      (d, n + 1)
    else (c, 0)

/-- The text of the digits `ds` with `point` of them in front of the point. -/
def positional (ds : List Char) (point : Int) : String :=
  if point ≤ 0 then
    "0." ++ String.ofList (List.replicate (-point).toNat '0' ++ ds)
  else
    let n := point.toNat
    let whole := ds.take n ++ List.replicate (n - ds.length) '0'
    let fraction := ds.drop n
    String.ofList whole ++ "." ++ (if fraction.isEmpty then "0" else String.ofList fraction)

/-- The text of the digits `ds` with the first one in front of the point. -/
def scientific (ds : List Char) (exponent : Int) : String :=
  let fraction := ds.drop 1
  let mantissa :=
    String.ofList (ds.take 1) ++ if fraction.isEmpty then "" else "." ++ String.ofList fraction
  mantissa ++ "e" ++ toString exponent

/-- The text of a positive number. -/
def positiveText (b : Binary) : String :=
  let (c, k) := b.shortest
  let (c, zeros) := stripZeros 20 c
  let ds := Nat.toDigits 10 c
  let point : Int := k + zeros + ds.length
  if -3 ≤ point && point ≤ 16 then positional ds point else scientific ds (point - 1)

/-- The text of a number given by its 64 bits. -/
def floatText (bits : UInt64) : String :=
  let negative := 0x8000000000000000 ≤ bits.toNat
  let magnitude := bits.toNat % 0x8000000000000000
  let infinity := 0x7ff0000000000000
  if infinity < magnitude then "NaN"
  else
    let body :=
      if magnitude = infinity then "inf"
      else if magnitude = 0 then "0.0"
      else positiveText (.ofBits bits)
    if negative then "-" ++ body else body

end Toml

end SwiftTidy
