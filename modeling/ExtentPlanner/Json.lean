/-!
JSON documents. Numbers keep the text they were written with, so that a count can be told from a
number that only has the same value. A text may be written with an escape for half of a surrogate
pair; it is well-formed JSON, but it stands for no sequence of characters.

`Json.read?` reads a whole document and gives nothing for a text that is not JSON.
-/
namespace ExtentPlanner

/-- A JSON value. -/
inductive Json where
  | null
  | bool (value : Bool)
  | number (written : List Char)
  /-- Nothing stands for a text with a lone surrogate. -/
  | text (value? : Option String)
  | array (elements : List Json)
  /-- In the order of the document, repeated names included. -/
  | object (members : List (Option String × Json))

namespace Json

/-- The value of a number written with digits only. -/
def count? : Json → Option Nat
  | number written =>
    if written.all Char.isDigit then
      some (written.foldl (fun value digit => 10 * value + (digit.toNat - '0'.toNat)) 0)
    else none
  | _ => none

def bool? : Json → Option Bool
  | bool value => some value
  | _ => none

/-! ## Tokens -/

def isSpace (character : Char) : Bool :=
  character == ' ' || character == '\n' || character == '\t' || character == '\r'

def skipSpace (input : List Char) : List Char := input.dropWhile isSpace

/-- The input behind a fixed word. -/
def afterWord? (word input : List Char) : Option (List Char) :=
  if word.isPrefixOf input then some (input.drop word.length) else none

/-- Digits at the start of the input, at least one. -/
def digits? (input : List Char) : Option (List Char × List Char) :=
  let digits := input.takeWhile Char.isDigit
  if digits.isEmpty then none else some (digits, input.dropWhile Char.isDigit)

/-- Digits of a whole part, which starts with zero only if it is zero. -/
def wholePart? (input : List Char) : Option (List Char × List Char) :=
  (digits? input).filter fun (digits, _) => digits.head? != some '0' || digits.length == 1

/-- The part from the decimal point on, if there is a point. -/
def fractionPart? : List Char → Option (List Char × List Char)
  | '.' :: rest => (digits? rest).map fun (digits, rest) => ('.' :: digits, rest)
  | input => some ([], input)

/-- The part from the letter of the exponent on, if there is one. -/
def exponentPart? : List Char → Option (List Char × List Char)
  | letter :: rest =>
    if letter == 'e' || letter == 'E' then
      let (sign, rest) :=
        match rest with
        | '+' :: rest => (['+'], rest)
        | '-' :: rest => (['-'], rest)
        | rest => ([], rest)
      (digits? rest).map fun (digits, rest) => (letter :: sign ++ digits, rest)
    else some ([], letter :: rest)
  | [] => some ([], [])

def number? (input : List Char) : Option (Json × List Char) := do
  let (sign, input) :=
    match input with
    | '-' :: rest => (['-'], rest)
    | input => ([], input)
  let (whole, input) ← wholePart? input
  let (fraction, input) ← fractionPart? input
  let (exponent, input) ← exponentPart? input
  some (number (sign ++ whole ++ fraction ++ exponent), input)

/-! ## Texts -/

/-- A part of a text: a character, or a 16-bit unit given by its number. -/
inductive TextPart where
  | character (character : Char)
  | unit (code : Nat)

def hexDigit? (character : Char) : Option Nat :=
  let code := character.toNat
  if '0'.toNat ≤ code && code ≤ '9'.toNat then some (code - '0'.toNat)
  else if 'a'.toNat ≤ code && code ≤ 'f'.toNat then some (code - 'a'.toNat + 10)
  else if 'A'.toNat ≤ code && code ≤ 'F'.toNat then some (code - 'A'.toNat + 10)
  else none

/-- The number written with four hexadecimal digits. -/
def hexUnit? (first second third fourth : Char) : Option Nat := do
  some (4096 * (← hexDigit? first) + 256 * (← hexDigit? second) + 16 * (← hexDigit? third)
    + (← hexDigit? fourth))

/-- The character that a letter stands for after a backslash. -/
def escaped? : Char → Option Char
  | '"' => some '"'
  | '\\' => some '\\'
  | '/' => some '/'
  | 'b' => some '\x08'
  | 'f' => some '\x0c'
  | 'n' => some '\n'
  | 'r' => some '\r'
  | 't' => some '\t'
  | _ => none

/-- The parts of a text up to its closing quote. Control characters have to be escaped. -/
def textParts? : List Char → Option (List TextPart × List Char)
  | [] => none
  | '"' :: rest => some ([], rest)
  | '\\' :: 'u' :: first :: second :: third :: fourth :: rest => do
    let code ← hexUnit? first second third fourth
    let (parts, rest) ← textParts? rest
    some (.unit code :: parts, rest)
  | '\\' :: letter :: rest => do
    let character ← escaped? letter
    let (parts, rest) ← textParts? rest
    some (.character character :: parts, rest)
  | character :: rest =>
    if character.toNat < 0x20 || character == '\\' then none
    else do
      let (parts, rest) ← textParts? rest
      some (.character character :: parts, rest)

def isHighSurrogate (code : Nat) : Bool := 0xD800 ≤ code && code ≤ 0xDBFF

def isLowSurrogate (code : Nat) : Bool := 0xDC00 ≤ code && code ≤ 0xDFFF

/-- The characters of a text, unless it has a surrogate without its partner. -/
def characters? : List TextPart → Option (List Char)
  | [] => some []
  | .character character :: rest => (characters? rest).map (character :: ·)
  | .unit high :: .unit low :: rest =>
    if isHighSurrogate high && isLowSurrogate low then
      (characters? rest).map
        (Char.ofNat (0x10000 + 1024 * (high - 0xD800) + (low - 0xDC00)) :: ·)
    else if isHighSurrogate high || isLowSurrogate high then none
    else (characters? (.unit low :: rest)).map (Char.ofNat high :: ·)
  | .unit code :: rest =>
    if isHighSurrogate code || isLowSurrogate code then none
    else (characters? rest).map (Char.ofNat code :: ·)

/-- A text behind its opening quote. -/
def textValue? (input : List Char) : Option (Option String × List Char) :=
  (textParts? input).map fun (parts, rest) => ((characters? parts).map String.ofList, rest)

/-! ## Values -/

mutual

/-- A value at the start of the input. Every step of reading a value takes one unit of `fuel`. -/
def value? : (fuel : Nat) → List Char → Option (Json × List Char)
  | 0, _ => none
  | fuel + 1, input =>
    match skipSpace input with
    | 'n' :: rest => (afterWord? ['u', 'l', 'l'] rest).map (null, ·)
    | 't' :: rest => (afterWord? ['r', 'u', 'e'] rest).map (bool true, ·)
    | 'f' :: rest => (afterWord? ['a', 'l', 's', 'e'] rest).map (bool false, ·)
    | '"' :: rest => (textValue? rest).map fun (value?, rest) => (text value?, rest)
    | '[' :: rest =>
      match skipSpace rest with
      | ']' :: rest => some (array [], rest)
      | rest => (elements? fuel rest).map fun (elements, rest) => (array elements, rest)
    | '\x7b' :: rest =>
      match skipSpace rest with
      | '\x7d' :: rest => some (object [], rest)
      | rest => (members? fuel rest).map fun (members, rest) => (object members, rest)
    | input => number? input

/-- The elements of an array up to its closing bracket, at least one. -/
def elements? : (fuel : Nat) → List Char → Option (List Json × List Char)
  | 0, _ => none
  | fuel + 1, input => do
    let (element, rest) ← value? fuel input
    match skipSpace rest with
    | ',' :: rest => (elements? fuel rest).map fun (elements, rest) => (element :: elements, rest)
    | ']' :: rest => some ([element], rest)
    | _ => none

/-- The members of an object up to its closing brace, at least one. -/
def members? : (fuel : Nat) → List Char → Option (List (Option String × Json) × List Char)
  | 0, _ => none
  | fuel + 1, input =>
    match skipSpace input with
    | '"' :: rest => do
      let (name?, rest) ← textValue? rest
      let rest ← afterWord? [':'] (skipSpace rest)
      let (value, rest) ← value? fuel rest
      match skipSpace rest with
      | ',' :: rest =>
        (members? fuel rest).map fun (members, rest) => ((name?, value) :: members, rest)
      | '\x7d' :: rest => some ([(name?, value)], rest)
      | _ => none
    | _ => none

end

/-- The value of a whole document. Each step of reading takes at least one character, or is
followed by one that does, so that twice the length of the document is fuel enough. -/
def read? (document : String) : Option Json := do
  let input := document.toList
  let (value, rest) ← value? (2 * input.length + 2) input
  if (skipSpace rest).isEmpty then some value else none

end Json

end ExtentPlanner
