import ComponentAnalysis.Script.Character
import ComponentAnalysis.Text.Shortest

/-! The values of numeric literals and the text that names them as keys. -/
namespace ComponentAnalysis.Script

/-- The base of a literal that starts with a zero and a letter. -/
def radixOf? (c : Char) : Option Nat :=
  if c == 'x' || c == 'X' then some 16
  else if c == 'o' || c == 'O' then some 8
  else if c == 'b' || c == 'B' then some 2
  else none

def digitsValue (radix : Nat) (digits : List Char) : Nat :=
  digits.foldl (fun n c => radix * n + (hexDigit? c).getD 0) 0

def decimalValue (text : List Char) : Shortest.Fraction :=
  let (front, exponent) := text.span fun c => c != 'e' && c != 'E'
  let (whole, fraction) := front.span fun c => c != '.'
  let fraction := fraction.drop 1
  let power : Int :=
    match exponent.drop 1 with
    | '-' :: digits => -(digitsValue 10 digits : Int)
    | '+' :: digits => digitsValue 10 digits
    | digits => digitsValue 10 digits
  Shortest.Fraction.scale 10 ⟨digitsValue 10 (whole ++ fraction), 1⟩ (power - fraction.length)

def numeralValue (text : String) : Shortest.Fraction :=
  match text.toList.filter (· != '_') with
  | '0' :: c :: digits =>
    match radixOf? c with
    | some radix => ⟨digitsValue radix digits, 1⟩
    | none => decimalValue ('0' :: c :: digits)
  | digits => decimalValue digits

/-- The text of a decimal: positional from a millionth up to twenty-one places, and otherwise with
an exponent. -/
def decimalText (d : Shortest.Decimal) : String :=
  let digits := ((Nat.toDigits 10 d.digits).reverse.dropWhile (· == '0')).reverse
  let count : Int := digits.length
  let zeros (n : Int) : List Char := List.replicate n.toNat '0'
  String.ofList <|
    if count ≤ d.point ∧ d.point ≤ 21 then digits ++ zeros (d.point - count)
    else if 0 < d.point ∧ d.point ≤ 21 then
      digits.take d.point.toNat ++ '.' :: digits.drop d.point.toNat
    else if -6 < d.point ∧ d.point ≤ 0 then '0' :: '.' :: zeros (-d.point) ++ digits
    else
      let power := d.point - 1
      let sign := if power < 0 then '-' else '+'
      let front := match digits with
        | first :: second :: rest => first :: '.' :: second :: rest
        | short => short
      front ++ 'e' :: sign :: Nat.toDigits 10 power.natAbs

/-- The text of a number as a key. -/
def numeralKey (text : String) : String :=
  let value := numeralValue text
  if value.num = 0 then "0"
  else
    match Shortest.nearest? value with
    | none => "Infinity"
    | some b => if b.mantissa = 0 then "0" else decimalText (Shortest.decimal b)

/-- The text of a big integer as a key. -/
def bigintKey (text : String) : String :=
  String.ofList (Nat.toDigits 10 (numeralValue text).floor)

end ComponentAnalysis.Script
