import ComponentAnalysis.Component.Template
import ComponentAnalysis.Script.Character

/-! Reading compiler options from JSON. The known option is read as a boolean; other members are
only checked to be well-formed. -/
namespace ComponentAnalysis

namespace OptionsReader

def skipBlanks (text : List Char) : List Char :=
  text.dropWhile fun c => c == ' ' || c == '\n' || c == '\t' || c == '\r'

/-- The text after a given start. -/
def after? (start : String) (text : List Char) : Option (List Char) :=
  if start.toList.isPrefixOf text then some (text.drop start.length) else none

/-- The characters that an escape of two characters stands for. -/
def shortEscapes : List (Char × Nat) :=
  [('"', 34), ('\\', 92), ('/', 47), ('b', 8), ('f', 12), ('n', 10), ('r', 13), ('t', 9)]

/-- The UTF-16 code units of a string after its opening quote, and the text after it. -/
def readUnits : List Char → Option (List Nat × List Char)
  | [] => none
  | '"' :: rest => some ([], rest)
  | '\\' :: 'u' :: a :: b :: c :: d :: rest =>
    (Script.hexNumber? [a, b, c, d]).bind fun unit =>
      (readUnits rest).map fun (units, rest) => (unit :: units, rest)
  | '\\' :: c :: rest =>
    (shortEscapes.lookup c).bind fun unit =>
      (readUnits rest).map fun (units, rest) => (unit :: units, rest)
  | c :: rest =>
    if c.toNat < 32 || c == '\\' then none
    else (readUnits rest).map fun (units, rest) => (Text.charUnits c ++ units, rest)

/-- The text after an optional run of decimal digits, and whether there was one. -/
def skipDigits (text : List Char) : Bool × List Char :=
  (text.head?.any Char.isDigit, text.dropWhile Char.isDigit)

/-- The text after a number: a whole part without leading zeros, a fraction and an exponent. -/
def skipNumber (text : List Char) : Option (List Char) := do
  let text := (after? "-" text).getD text
  let (found, rest) := skipDigits text
  if !found then failure
  let rest ←
    match text with
    | '0' :: rest => if rest.head?.any Char.isDigit then failure else pure rest
    | _ => pure rest
  let rest ←
    match rest with
    | '.' :: rest => do
      let (found, rest) := skipDigits rest
      if found then pure rest else failure
    | rest => pure rest
  match rest with
  | e :: rest' =>
    if e == 'e' || e == 'E' then
      let unsigned := match rest' with
        | sign :: rest => if sign == '+' || sign == '-' then rest else rest'
        | [] => []
      let (found, rest) := skipDigits unsigned
      if found then pure rest else failure
    else pure rest
  | [] => pure rest

mutual

/-- The text after a value; values may be nested up to a depth. -/
def skipValue : Nat → List Char → Option (List Char)
  | 0, _ => none
  | depth + 1, text =>
    match skipBlanks text with
    | '"' :: rest => (readUnits rest).map Prod.snd
    | '[' :: rest =>
      match skipBlanks rest with
      | ']' :: rest => some rest
      | rest => skipItems depth rest
    | '\x7b' :: rest =>
      match skipBlanks rest with
      | '\x7d' :: rest => some rest
      | rest => skipMembers depth rest
    | text =>
      (after? "true" text <|> after? "false" text <|> after? "null" text) <|> skipNumber text

def skipItems : Nat → List Char → Option (List Char)
  | 0, _ => none
  | depth + 1, text =>
    match (skipValue depth text).map skipBlanks with
    | some (']' :: rest) => some rest
    | some (',' :: rest) => skipItems depth rest
    | _ => none

def skipMembers : Nat → List Char → Option (List Char)
  | 0, _ => none
  | depth + 1, text =>
    match skipBlanks text with
    | '"' :: rest =>
      match (readUnits rest).map fun (_, rest) => skipBlanks rest with
      | some (':' :: rest) =>
        match (skipValue depth rest).map skipBlanks with
        | some ('\x7d' :: rest) => some rest
        | some (',' :: rest) => skipMembers depth rest
        | _ => none
      | _ => none
    | _ => none

end

def readBool (text : List Char) : Option (Bool × List Char) :=
  let text := skipBlanks text
  ((after? "true" text).map fun rest => (true, rest)) <|>
    (after? "false" text).map fun rest => (false, rest)

/-- The key that UTF-16 code units spell, if they have no lone surrogates. -/
def keyOfUnits? (units : List Nat) : Option String :=
  let points := Script.joinPairs units
  if points.any fun n => Script.isHighSurrogate n || Script.isLowSurrogate n then none
  else some (String.ofList (points.map Char.ofNat))

/-- Read the members of the options object, with the option as found so far. -/
def readMembers : Nat → Option Bool → List Char → Option (Option Bool × List Char)
  | 0, _, _ => none
  | depth + 1, found, text => do
    let '"' :: rest := skipBlanks text | failure
    let (units, rest) ← readUnits rest
    let key ← keyOfUnits? units
    let ':' :: rest := skipBlanks rest | failure
    let (found, rest) ←
      if key = "inlineTemplate" then
        match found with
        | some _ => failure
        | none => (readBool rest).map fun (value, rest) => (some value, rest)
      else (skipValue (rest.length + 1) rest).map fun rest => (found, rest)
    match skipBlanks rest with
    | '\x7d' :: rest => return (found, rest)
    | ',' :: rest => readMembers depth found rest
    | _ => failure

/-- Read the option from an object with named members, or from an array with members in order. -/
def readOption (text : List Char) : Option (Option Bool × List Char) :=
  match skipBlanks text with
  | '\x7b' :: rest =>
    match skipBlanks rest with
    | '\x7d' :: rest => some (none, rest)
    | rest => readMembers (rest.length + 1) none rest
  | '[' :: rest =>
    match skipBlanks rest with
    | ']' :: rest => some (none, rest)
    | rest => do
      let (value, rest) ← readBool rest
      let ']' :: rest := skipBlanks rest | failure
      return (some value, rest)
  | _ => none

end OptionsReader

/-- The error of options that cannot be read. -/
inductive OptionsError where
  | malformed
  deriving DecidableEq, Repr

def OptionsError.message : OptionsError → String
  | malformed => "Invalid compiler options"

namespace CompilerOptions

/-- Read options from JSON. A missing option has its default, other members are ignored, and the
option may be given once only. -/
def ofJson (text : String) : Except OptionsError CompilerOptions :=
  match OptionsReader.readOption text.toList with
  | some (value, rest) =>
    if (OptionsReader.skipBlanks rest).isEmpty then
      .ok ⟨value.getD ({} : CompilerOptions).inlineTemplate⟩
    else .error .malformed
  | none => .error .malformed

end CompilerOptions

end ComponentAnalysis
