import ComponentAnalysis.Text.Bytes
import ComponentAnalysis.Script.Character

/-! Tokens of scripts. A token is read on demand, since the meaning of a slash, a closing brace or
an angle bracket depends on what surrounds it. -/
namespace ComponentAnalysis.Script

/-- What a token says. -/
inductive Lexeme where
  /-- A name or keyword. A word written with an escape is never a keyword. -/
  | word (text : String) (isEscaped : Bool)
  | privateWord (text : String)
  | punctuator (text : String)
  | number (text : String)
  | bigint (text : String)
  | string (value : String)
  | regex (text : String)
  /-- A piece of a template, up to the closing backtick or to the opening of an interpolation. Its
  value is missing if an escape in it is malformed. -/
  | templatePart (value : Option String) (opens : Bool)
  | endOfInput
  | invalid
  deriving DecidableEq, Repr, Inhabited

/-- A lexeme with the text that spells it and the input after that. -/
structure Reading where
  lexeme : Lexeme
  text : List Char
  rest : List Char
  deriving Inhabited

/-- A reading with its place in the source. -/
structure Token extends Reading where
  start : Nat
  /-- Whether a line ends between this token and the one before. -/
  afterBreak : Bool
  deriving Inhabited

/-- Where the scan over blanks and comments stands. -/
inductive Trivia where
  | blank
  | lineComment
  | blockComment

/-- Skip blanks and comments. Gives the remaining input, its offset and whether a line ended;
nothing if a comment is not closed. -/
def skipTrivia : Trivia → Nat → Bool → List Char → Option (List Char × Nat × Bool)
  | .blank, offset, ended, '/' :: '/' :: rest => skipTrivia .lineComment (offset + 2) ended rest
  | .blank, offset, ended, '/' :: '*' :: rest => skipTrivia .blockComment (offset + 2) ended rest
  | .blank, offset, ended, c :: rest =>
    if isLineTerminator c then skipTrivia .blank (offset + c.utf8Size) true rest
    else if isSpace c then skipTrivia .blank (offset + c.utf8Size) ended rest
    else some (c :: rest, offset, ended)
  | .lineComment, offset, ended, c :: rest =>
    if isLineTerminator c then skipTrivia .blank (offset + c.utf8Size) true rest
    else skipTrivia .lineComment (offset + c.utf8Size) ended rest
  | .blockComment, offset, ended, '*' :: '/' :: rest => skipTrivia .blank (offset + 2) ended rest
  | .blockComment, offset, ended, c :: rest =>
    skipTrivia .blockComment (offset + c.utf8Size) (ended || isLineTerminator c) rest
  | .blockComment, _, _, [] => none
  | _, offset, ended, [] => some ([], offset, ended)

/-- Put characters in front of the first part of a split. -/
def extend (front : List Char) (parts : List Char × List Char) : List Char × List Char :=
  (front ++ parts.1, parts.2)

/-- Split a word off the input. With `inBraces` the split stands inside a braced escape. -/
def splitWord (inBraces : Bool) : List Char → List Char × List Char
  | [] => ([], [])
  | '\\' :: 'u' :: '{' :: rest => extend ['\\', 'u', '{'] (splitWord true rest)
  | '\\' :: 'u' :: rest => extend ['\\', 'u'] (splitWord false rest)
  | c :: rest =>
    if inBraces then extend [c] (splitWord (c != '}') rest)
    else if isWordPart c then extend [c] (splitWord false rest)
    else ([], c :: rest)

/-- Split the body of a string off the input after its opening quote. -/
def splitString (quote : Char) : List Char → Option (List Char × List Char)
  | [] => none
  | '\\' :: '\r' :: '\n' :: rest => (splitString quote rest).map (extend ['\\', '\r', '\n'])
  | '\\' :: c :: rest => (splitString quote rest).map (extend ['\\', c])
  | c :: rest =>
    if c = quote then some ([], rest)
    else if c = '\n' || c = '\r' then none
    else (splitString quote rest).map (extend [c])

/-- Split a piece of a template off the input, with whether it opens an interpolation. -/
def splitTemplate : List Char → Option (Bool × List Char × List Char)
  | [] => none
  | '`' :: rest => some (false, [], rest)
  | '$' :: '{' :: rest => some (true, [], rest)
  | '\\' :: c :: rest =>
    (splitTemplate rest).map fun (opens, parts) => (opens, extend ['\\', c] parts)
  | c :: rest => (splitTemplate rest).map fun (opens, parts) => (opens, extend [c] parts)

/-- Split the body of a regular expression off the input after its opening slash. -/
def splitRegex (inClass : Bool) : List Char → Option (List Char × List Char)
  | [] => none
  | '\\' :: c :: rest =>
    if isLineTerminator c then none else (splitRegex inClass rest).map (extend ['\\', c])
  | c :: rest =>
    if isLineTerminator c then none
    else if c = '/' && !inClass then some ([], rest)
    else (splitRegex (if c = '[' then true else if c = ']' then false else inClass) rest).map
      (extend [c])

def isDigitOrSeparator (c : Char) : Bool := c.isDigit || c == '_'

/-- Split an exponent off the input, if one stands there. -/
def splitExponent : List Char → List Char × List Char
  | e :: sign :: digit :: rest =>
    if (e == 'e' || e == 'E') && (sign == '+' || sign == '-') && digit.isDigit then
      extend [e, sign] ((digit :: rest).span isDigitOrSeparator)
    else if (e == 'e' || e == 'E') && sign.isDigit then
      extend [e] ((sign :: digit :: rest).span isDigitOrSeparator)
    else ([], e :: sign :: digit :: rest)
  | [e, digit] =>
    if (e == 'e' || e == 'E') && digit.isDigit then ([e, digit], []) else ([], [e, digit])
  | input => ([], input)

/-- Whether a letter after a zero gives the base of a number. -/
def isRadix (c : Char) : Bool :=
  c == 'x' || c == 'X' || c == 'o' || c == 'O' || c == 'b' || c == 'B'

/-- Whether a number consists of its base only. -/
def lacksDigits : List Char → Bool
  | ['0', c] => isRadix c
  | _ => false

/-- Split a number off the input, with the suffix of a big integer. -/
def splitNumber (input : List Char) : List Char × List Char :=
  let decimal :=
    let (whole, rest) := input.span isDigitOrSeparator
    match rest with
    | 'n' :: rest => (whole ++ ['n'], rest)
    | '.' :: rest =>
      let (fraction, rest) := rest.span isDigitOrSeparator
      extend (whole ++ '.' :: fraction) (splitExponent rest)
    | rest => extend whole (splitExponent rest)
  match input with
  | '0' :: r :: rest =>
    if isRadix r then extend ['0', r] (rest.span fun c => c.isAlphanum || c == '_') else decimal
  | _ => decimal

/-- The punctuators, longer ones before the ones they start with. A closing angle bracket stands
alone here; `widen` joins it with what follows. -/
def punctuators : List String :=
  ["...", "===", "!==", "**=", "<<=", "&&=", "||=", "??=",
   "=>", "==", "!=", "<=", "<<", "**", "*=", "/=", "%=", "++", "+=", "--", "-=", "&&", "&=", "||",
   "|=", "??", "?.", "^=",
   "\x7b", "\x7d", "(", ")", "[", "]", ";", ",", "<", ">", ":", "@", ".", "?", "=", "!", "+", "-",
   "*", "/", "%", "&", "|", "^", "~"]

/-- The operators that start with a closing angle bracket, longer ones first. -/
def angleOperators : List String := [">>>=", ">>>", ">>=", ">>", ">=", ">"]

/-- The first of several texts that the input starts with, and the input after it. -/
def matchFirst? (texts : List String) (input : List Char) : Option (String × List Char) :=
  texts.findSome? fun text =>
    if text.toList.isPrefixOf input then some (text, input.drop text.length) else none

/-- A question mark and a dot in front of a digit are two tokens. -/
def matchPunctuator? (input : List Char) : Option (String × List Char) :=
  match input with
  | '?' :: '.' :: c :: rest => if c.isDigit then some ("?", '.' :: c :: rest) else
      matchFirst? punctuators input
  | _ => matchFirst? punctuators input

/-- What ends a piece of a template. -/
def templateEnd (opens : Bool) : List Char := if opens then ['$', '\x7b'] else ['`']

namespace Reading

/-- The input that starts with the text. -/
def input (reading : Reading) : List Char := reading.text ++ reading.rest

/-- An input that no token starts. -/
def invalid (input : List Char) : Reading := ⟨.invalid, input, []⟩

/-- A string, given the input after its opening quote. -/
def ofString (quote : Char) (body : List Char) : Reading :=
  match splitString quote body with
  | none => invalid (quote :: body)
  | some (text, rest) =>
    match unescape? false text with
    | some value => ⟨.string value, quote :: text ++ [quote], rest⟩
    | none => invalid (quote :: body)

/-- A piece of a template, given what opens it and the input after that. -/
def ofTemplatePart? (opening : Char) (body : List Char) : Option Reading :=
  (splitTemplate body).map fun (opens, text, rest) =>
    ⟨.templatePart (unescape? true (normalizeBreaks text)) opens,
      opening :: text ++ templateEnd opens, rest⟩

/-- A regular expression with its flags, given the input after its opening slash. -/
def ofRegex? (body : List Char) : Option Reading :=
  (splitRegex false body).map fun (pattern, rest) =>
    let (flags, rest) := rest.span isWordPart
    let text := '/' :: pattern ++ '/' :: flags
    ⟨.regex (String.ofList text), text, rest⟩

/-- A name after a number sign. -/
def ofPrivateWord (body : List Char) : Reading :=
  let (text, rest) := splitWord false body
  match unescape? false text with
  | some name =>
    if text.isEmpty then invalid ('#' :: body) else ⟨.privateWord name, '#' :: text, rest⟩
  | none => invalid ('#' :: body)

/-- A name or keyword. -/
def ofWord (input : List Char) : Reading :=
  let (text, rest) := splitWord false input
  match unescape? false text with
  | some name =>
    if text.isEmpty then invalid input else ⟨.word name (text.contains '\\'), text, rest⟩
  | none => invalid input

/-- A number. No name may follow it directly. -/
def ofNumber (input : List Char) : Reading :=
  let (text, rest) := splitNumber input
  if rest.head?.any isWordPart || lacksDigits text then invalid input
  else if text.getLast? == some 'n' then ⟨.bigint (String.ofList text.dropLast), text, rest⟩
  else ⟨.number (String.ofList text), text, rest⟩

/-- A punctuator. -/
def ofPunctuator (input : List Char) : Reading :=
  match matchPunctuator? input with
  | some (text, rest) => ⟨.punctuator text, text.toList, rest⟩
  | none => invalid input

/-- Whether a number starts with the given character and the one after it. -/
def startsNumber (c : Char) (rest : List Char) : Bool :=
  c.isDigit || (c == '.' && rest.head?.any Char.isDigit)

/-- The reading of an input without blanks in front. -/
def ofInput (input : List Char) : Reading :=
  match input with
  | [] => ⟨.endOfInput, [], []⟩
  | '"' :: body => ofString '"' body
  | '\'' :: body => ofString '\'' body
  | '`' :: body => (ofTemplatePart? '`' body).getD (invalid input)
  | '#' :: body => ofPrivateWord body
  | c :: rest =>
    if isWordStart c || c == '\\' then ofWord input
    else if startsNumber c rest then ofNumber input
    else ofPunctuator input

end Reading

namespace Token

/-- The end of the token. -/
def stop (token : Token) : Nat := token.start + Text.byteLength token.text

/-- The token after `offset` bytes, in the given remaining input. -/
def read (offset : Nat) (input : List Char) (ended : Bool) : Token :=
  match skipTrivia .blank offset ended input with
  | none => ⟨.invalid input, offset, ended⟩
  | some (input, offset, ended) => ⟨.ofInput input, offset, ended⟩

/-- The first token of a source. A first line that starts with `#!` is skipped. -/
def first (source : List Char) : Token :=
  match source with
  | '#' :: '!' :: rest =>
    let (line, rest) := rest.span fun c => !isLineTerminator c
    read (2 + Text.byteLength line) rest true
  | _ => read 0 source true

/-- The token after this one. -/
def next (token : Token) : Token := read token.stop token.rest false

/-- The token with another reading of the input at its start. -/
def reread (token : Token) (reading : Reading) : Token := { token with toReading := reading }

/-- The token with a closing angle bracket joined to what follows it. -/
def widen (token : Token) : Token :=
  match matchFirst? angleOperators token.input with
  | some (text, rest) => token.reread ⟨.punctuator text, text.toList, rest⟩
  | none => token

/-- The token with only its first angle bracket. -/
def narrow (token : Token) : Token :=
  match token.input with
  | '<' :: rest => token.reread ⟨.punctuator "<", ['<'], rest⟩
  | _ => token

/-- A slash read as the start of a regular expression. -/
def asRegex? (token : Token) : Option Token :=
  match token.input with
  | '/' :: body => (Reading.ofRegex? body).map token.reread
  | _ => none

/-- A closing brace read as the continuation of a template. -/
def asTemplatePart? (token : Token) : Option Token :=
  match token.input with
  | '\x7d' :: body => (Reading.ofTemplatePart? '\x7d' body).map token.reread
  | _ => none

end Token

end ComponentAnalysis.Script
