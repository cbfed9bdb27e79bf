import ComponentAnalysis.Text.Units

/-! Character classes and escapes of scripts. -/
namespace ComponentAnalysis.Script

def isLineTerminator (c : Char) : Bool :=
  c == '\n' || c == '\r' || c == '\u2028' || c == '\u2029'

/-- The blank characters between tokens that do not end a line. -/
def isSpace (c : Char) : Bool :=
  let n := c.toNat
  n == 0x20 || n == 9 || n == 11 || n == 12 || n == 0xA0 || n == 0xFEFF || n == 0x1680 ||
    (0x2000 ≤ n && n ≤ 0x200A) || n == 0x202F || n == 0x205F || n == 0x3000

/-- The characters that may start a word. Every character beyond ASCII that is not blank may. -/
def isWordStart (c : Char) : Bool :=
  c.isAlpha || c == '_' || c == '$' || (128 ≤ c.toNat && !isSpace c && !isLineTerminator c)

def isWordPart (c : Char) : Bool := isWordStart c || c.isDigit

def hexDigit? (c : Char) : Option Nat :=
  if c.isDigit then some (c.toNat - '0'.toNat)
  else if 'a' ≤ c ∧ c ≤ 'f' then some (c.toNat - 'a'.toNat + 10)
  else if 'A' ≤ c ∧ c ≤ 'F' then some (c.toNat - 'A'.toNat + 10)
  else none

def hexNumber? : List Char → Option Nat
  | [] => none
  | digits => digits.foldlM (fun n c => (hexDigit? c).map (16 * n + ·)) 0

/-- The code point that hexadecimal digits between braces stand for. -/
def bracedCodePoint? (text : List Char) : Option Nat :=
  if text.contains '}' then
    (hexNumber? (text.takeWhile (· != '}'))).filter fun n => n ≤ 0x10FFFF
  else none

/-- The text behind the next closing brace. -/
def afterBrace (text : List Char) : List Char := (text.dropWhile (· != '}')).tail

theorem length_afterBrace_le (text : List Char) : (afterBrace text).length ≤ text.length := by
  rw [afterBrace, List.length_tail]
  exact Nat.le_trans (Nat.sub_le _ _) (List.dropWhile_suffix _).length_le

/-- The code point of a one-letter escape; most characters stand for themselves. A template has no
escapes of digits but that of zero. -/
def letterEscape? (inTemplate : Bool) (c : Char) : Option Nat :=
  match c with
  | 'n' => some 10
  | 't' => some 9
  | 'r' => some 13
  | 'b' => some 8
  | 'v' => some 11
  | 'f' => some 12
  | '0' => some 0
  | 'u' | 'x' => none
  | c => if inTemplate && c.isDigit then none else some c.toNat

/-- The code points of a text with its escapes resolved; nothing if one of them is malformed. An
escape may stand for one half of a surrogate pair. -/
def codePoints? (inTemplate : Bool) : List Char → Option (List Nat)
  | [] => some []
  | '\\' :: 'u' :: '{' :: rest => do
    return (← bracedCodePoint? rest) :: (← codePoints? inTemplate (afterBrace rest))
  | '\\' :: 'u' :: a :: b :: c :: d :: rest => do
    return (← hexNumber? [a, b, c, d]) :: (← codePoints? inTemplate rest)
  | '\\' :: 'x' :: a :: b :: rest => do
    return (← hexNumber? [a, b]) :: (← codePoints? inTemplate rest)
  | '\\' :: '\r' :: '\n' :: rest => codePoints? inTemplate rest
  | '\\' :: c :: rest => do
    if isLineTerminator c then codePoints? inTemplate rest
    else return (← letterEscape? inTemplate c) :: (← codePoints? inTemplate rest)
  | c :: rest => (codePoints? inTemplate rest).map (c.toNat :: ·)
termination_by text => text.length
decreasing_by
  · exact Nat.lt_add_right 2 (Nat.lt_succ_of_le (length_afterBrace_le rest))
  all_goals simp only [List.length_cons]; omega

def fourDigits (n : Nat) : List Char :=
  let digits := Nat.toDigits 16 n
  List.replicate (4 - digits.length) '0' ++ digits

def isHighSurrogate (n : Nat) : Bool := 0xD800 ≤ n && n < 0xDC00
def isLowSurrogate (n : Nat) : Bool := 0xDC00 ≤ n && n < 0xE000

/-- Surrogate pairs joined into the characters they encode. -/
def joinPairs : List Nat → List Nat
  | [] => []
  | [n] => [n]
  | high :: low :: rest =>
    if isHighSurrogate high && isLowSurrogate low then
      (0x10000 + (high - 0xD800) * 0x400 + (low - 0xDC00)) :: joinPairs rest
    else high :: joinPairs (low :: rest)

/-- The text of code points. A text with a lone surrogate writes each of them, and each replacement
character, as a replacement character followed by four digits. -/
def ofCodePoints (points : List Nat) : String :=
  let points := joinPairs points
  let isLone n := isHighSurrogate n || isLowSurrogate n
  if points.any isLone then
    String.ofList (points.flatMap fun n =>
      if isLone n || n == 0xFFFD then '\uFFFD' :: fourDigits n else [Char.ofNat n])
  else String.ofList (points.map Char.ofNat)

/-- The value of a text with escapes, if they are well-formed. -/
def unescape? (inTemplate : Bool) (text : List Char) : Option String :=
  if text.contains '\\' then (codePoints? inTemplate text).map ofCodePoints
  else some (String.ofList text)

/-- The text with every line break written as a line feed. -/
def normalizeBreaks : List Char → List Char
  | [] => []
  | '\r' :: '\n' :: rest => '\n' :: normalizeBreaks rest
  | c :: rest => (if c = '\r' then '\n' else c) :: normalizeBreaks rest

end ComponentAnalysis.Script
