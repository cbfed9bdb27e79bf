/-! The shortest decimal that reads back as a binary floating-point number with 53 bits. All
arithmetic is exact, on natural numbers. -/
namespace ComponentAnalysis.Shortest

/-- A positive fraction. -/
structure Fraction where
  num : Nat
  den : Nat := 1
  deriving Repr

namespace Fraction

def le (a b : Fraction) : Bool := a.num * b.den ≤ b.num * a.den

/-- The fraction times a power of the base. -/
def scale (base : Nat) (a : Fraction) : Int → Fraction
  | .ofNat n => ⟨a.num * Nat.pow base n, a.den⟩
  | .negSucc n => ⟨a.num, a.den * Nat.pow base (n + 1)⟩

def floor (a : Fraction) : Nat := a.num / a.den

/-- The nearest whole number; a half goes to the even neighbour. -/
def round (a : Fraction) : Nat :=
  let whole := a.num / a.den
  let twice := 2 * (a.num % a.den)
  if twice < a.den then whole
  else if a.den < twice then whole + 1
  else if whole % 2 = 0 then whole else whole + 1

/-- The exponent of the largest power of two that is not above the fraction. -/
def exponent (a : Fraction) : Int :=
  let guess : Int := (Nat.log2 a.num : Int) - Nat.log2 a.den
  if (scale 2 ⟨1, 1⟩ guess).le a then guess else guess - 1

end Fraction

/-- A number `mantissa * 2 ^ power` with a mantissa of at most 53 bits. -/
structure Binary where
  mantissa : Nat
  power : Int
  deriving DecidableEq, Repr

/-- The least mantissa of 53 bits. -/
def leastWide : Nat := 0x10000000000000

/-- The least power that a binary number may have. -/
def leastPower : Int := -1074

/-- The largest power that a binary number may have. -/
def largestPower : Int := 971

/-- The binary number nearest to a positive fraction; nothing if the fraction is too large. -/
def nearest? (a : Fraction) : Option Binary :=
  let power := max leastPower (a.exponent - 52)
  let mantissa := (a.scale 2 (-power)).round
  let rounded : Binary :=
    if mantissa = 2 * leastWide then ⟨leastWide, power + 1⟩ else ⟨mantissa, power⟩
  if rounded.power ≤ largestPower then some rounded else none

/-- Digits of a decimal and the position of its point, counted from before the first digit. -/
structure Decimal where
  digits : Nat
  point : Int
  deriving DecidableEq, Repr

/-- The decimals with at most `count` digits next to a binary number that read back as it. The
decimal point stands after `whole` places. -/
def hits (b : Binary) (whole : Int) (count : Nat) : List Nat :=
  let unit := Fraction.scale 2 ⟨1, 1⟩ (b.power - 2)
  let times (n : Nat) : Fraction := ⟨n * unit.num, unit.den⟩
  let isLeast := b.mantissa = leastWide ∧ b.power > leastPower
  let low := times (4 * b.mantissa - if isLeast then 1 else 2)
  let high := times (4 * b.mantissa + 2)
  let grid := whole - count
  let below := ((times (4 * b.mantissa)).scale 10 (-grid)).floor
  [below, below + 1].filter fun s =>
    let value := Fraction.scale 10 ⟨s, 1⟩ grid
    if b.mantissa % 2 = 0 then low.le value && value.le high
    else !value.le low && !high.le value

/-- The one of two neighbouring grid points that is nearer to a binary number, the even one if both
are equally near. -/
def nearer (b : Binary) (whole : Int) (count : Nat) (s : Nat) : Nat :=
  let scaled := (Fraction.scale 2 ⟨b.mantissa, 1⟩ b.power).scale 10 (count - whole)
  let twice : Fraction := ⟨2 * scaled.num, scaled.den⟩
  let middle : Fraction := ⟨2 * s + 1, 1⟩
  if twice.le middle && middle.le twice then (if s % 2 = 0 then s else s + 1)
  else if twice.le middle then s else s + 1

/-- Places in front of the decimal point of a positive fraction: none or fewer below one. -/
def wholePlaces (a : Fraction) : Int :=
  if a.den ≤ a.num then (Nat.toDigits 10 a.floor).length
  else
    match (List.range 400).find? fun j => a.den ≤ a.num * Nat.pow 10 j with
    | some j => 1 - (j : Int)
    | none => 0

/-- The shortest decimal that reads back as a positive binary number; the nearest of several. -/
def decimal (b : Binary) : Decimal :=
  let whole := wholePlaces (Fraction.scale 2 ⟨b.mantissa, 1⟩ b.power)
  let found := (List.range 17).findSome? fun k =>
    match hits b whole (k + 1) with
    | [] => none
    | [s] => some (s, k + 1)
    | s :: _ => some (nearer b whole (k + 1) s, k + 1)
  match found with
  | some (s, count) => ⟨s, whole - count + (Nat.toDigits 10 s).length⟩
  | none => ⟨0, 0⟩

end ComponentAnalysis.Shortest
