import ComponentAnalysis.Text.Units

/-! The short digest that names style scopes and style variables. It is a polynomial in the UTF-16
code units of a text, kept in a signed 32-bit word, with a fix of the sign after each text. -/
namespace ComponentAnalysis.Digest

/-- The signed 32-bit number congruent to `x`. -/
def word (x : Int) : Int := Int.bmod x 0x100000000

/-- One code unit: thirty-two times the word of the state, less the state, plus the unit. -/
def step (state : Int) (unit : Nat) : Int := word (word (word state * 32) - state + unit)

/-- All units of one text. A negative result is doubled and made positive; an empty text changes
nothing. -/
def fold (state : Int) (text : String) : Int :=
  if (Text.units text).isEmpty then state
  else
    let result := (Text.units text).foldl step state
    if result < 0 then result * -2 else result

/-- The state before the digested text: the tag and the type name of a text value. -/
def initial : Int := fold (fold 0 "[object String]") "string"

/-- At least eight lower-case hexadecimal digits. -/
def hexadecimal (n : Nat) : String :=
  let digits := Nat.toDigits 16 n
  String.ofList (List.replicate (8 - digits.length) '0' ++ digits)

def ofText (text : String) : String := hexadecimal (fold initial text).toNat

/-- The style scope of a component in a file. -/
def scopeId (fileId component : String) : String := ofText (fileId ++ ":" ++ component)

/-- The style variable of an expression in a component's style. -/
def styleVariable (component expression : String) : String :=
  ofText (component ++ "__" ++ expression)

end ComponentAnalysis.Digest
