/-!
# Shortest decimals

A positive floating-point number stands for the interval of reals that round to it.  Its shortest
decimal is the one with the fewest digits in this interval, and of those the nearest.
-/

namespace SwiftTidy

/-- A positive number `mantissa · 2 ^ exponent`, as floating-point numbers are stored. -/
structure Binary where
  mantissa : Nat
  exponent : Int
  /-- The next smaller number is only half as far away as the next larger one. -/
  narrowBelow : Bool
  deriving DecidableEq, Inhabited

namespace Binary

/-- The magnitude of a finite number given by its 64 bits. -/
def ofBits (bits : UInt64) : Binary :=
  let field : Nat := bits.toNat / 0x10000000000000 % 0x800
  let fraction : Nat := bits.toNat % 0x10000000000000
  if field = 0 then ⟨fraction, -1074, false⟩
  else ⟨0x10000000000000 + fraction, (field : Int) - 1075, fraction = 0 && 1 < field⟩

/-- The factor `base ^ e` as a fraction of natural numbers. -/
def power (base : Nat) (e : Int) : Nat × Nat :=
  if 0 ≤ e then (Nat.pow base e.toNat, 1) else (1, Nat.pow base (-e).toNat)

/-- Compares `c · 10 ^ k` with `x` quarters of the last binary place. -/
def compareDecimal (b : Binary) (c : Nat) (k : Int) (x : Nat) : Ordering :=
  let (tenUp, tenDown) := power 10 k
  let (twoUp, twoDown) := power 2 (b.exponent - 2)
  compare (c * tenUp * twoDown) (x * twoUp * tenDown)

/-- Whether `c · 10 ^ k` rounds to the number.  The ends of the interval do when the mantissa is
even. -/
def admits (b : Binary) (c : Nat) (k : Int) : Bool :=
  let low := 4 * b.mantissa - if b.narrowBelow then 1 else 2
  let high := 4 * b.mantissa + 2
  let atEnd := b.mantissa % 2 = 0
  let aboveLow := b.compareDecimal c k low
  let belowHigh := b.compareDecimal c k high
  (aboveLow == .gt || (aboveLow == .eq && atEnd)) &&
    (belowHigh == .lt || (belowHigh == .eq && atEnd))

/-- The greatest `c` with `c · 10 ^ k` not above the number. -/
def floorAt (b : Binary) (k : Int) : Nat :=
  let (tenUp, tenDown) := power 10 k
  let (twoUp, twoDown) := power 2 b.exponent
  (b.mantissa * twoUp * tenDown) / (twoDown * tenUp)

/-- Whether `c · 10 ^ k` is at least as near to the number as `(c + 1) · 10 ^ k`. -/
def isNearer (b : Binary) (c : Nat) (k : Int) : Bool :=
  b.compareDecimal (2 * c + 1) k (8 * b.mantissa) != .lt

/-- The decimal exponent of the first digit; `fuel` bounds the distance from `e`. -/
def leadingExponent (b : Binary) : (fuel : Nat) → (e : Int) → Int
  | 0, e => e
  | fuel + 1, e => if b.floorAt e = 0 then leadingExponent b fuel (e - 1) else e

/-- The shortest decimal of at least `n` digits whose first digit has exponent `e`. -/
def shortestFrom (b : Binary) (e : Int) : (fuel n : Nat) → Nat × Int
  | 0, n => (b.floorAt (e - n + 1), e - n + 1)
  | fuel + 1, n =>
    let k := e - n + 1
    let c := b.floorAt k
    match b.admits c k, b.admits (c + 1) k with
    | true, true => if b.isNearer c k then (c, k) else (c + 1, k)
    | true, false => (c, k)
    | false, true => (c + 1, k)
    | false, false => shortestFrom b e fuel (n + 1)

/-- The shortest decimal `c · 10 ^ k` of a positive number, as `c` and `k`. -/
def shortest (b : Binary) : Nat × Int :=
  shortestFrom b (b.leadingExponent 640 309) 17 1

end Binary

end SwiftTidy
