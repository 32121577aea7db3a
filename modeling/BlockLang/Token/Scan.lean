import BlockLang.Token

/-!
# Reading a text as tokens

Reading goes from left to right. At each character the longest symbol, word,
literal or comment that starts there is taken; blanks and comments give no
token. A text that holds anything else is refused, with the position of the
first character of the offending token or comment.

Readers tell how many characters they took, and the cursor moves by as many. Lines
are counted where they end: between tokens and in block comments.
-/

namespace BlockLang

/-- Why a text cannot be read as tokens. -/
inductive ScanError.Cause
  | unknownCharacter (c : Char)
  | openComment
  | largeInteger (digits : List Char)
  | unknownEscape (c : Char)
  | unknownNumberEscape (digits : List Char)
  | openEscape
  | escapeBeyondAscii
  | characterBeyondAscii (c : Char)
  | openString
  | badCharacter
  | openCharacter
  deriving DecidableEq

/-- Why and where a text cannot be read as tokens. -/
structure ScanError where
  cause : ScanError.Cause
  location : Location
  deriving DecidableEq

namespace ScanError

/-- The cause in words. -/
def Cause.text : Cause → String
  | unknownCharacter c => "Unrecognized character `" ++ c.toString ++ "`"
  | openComment => "Unterminated block comment"
  | largeInteger digits =>
      "Integer literal " ++ String.ofList digits ++ " does not fit in 32 bits"
  | unknownEscape c => "Invalid escape sequence \\" ++ c.toString
  | unknownNumberEscape digits => "Invalid escape sequence \\x" ++ String.ofList digits
  | openEscape => "Unterminated escape sequence"
  | escapeBeyondAscii => "Non-ASCII escape in string literal"
  | characterBeyondAscii c => "Non-ASCII character `" ++ c.toString ++ "` in string literal"
  | openString => "Unterminated string literal"
  | badCharacter => "Malformed character literal"
  | openCharacter => "Unterminated character literal"

/-- The cause and the location in words. -/
def text (e : ScanError) : String := e.cause.text ++ " at " ++ e.location.text ++ "."

end ScanError

/-- How far a text has been read: the number of characters passed, the line reached
and the number of characters before it. -/
structure Scanner where
  cursor : Nat := 0
  line : Nat := 1
  lineStart : Nat := 0

namespace Scanner

def advance (s : Scanner) (n : Nat) : Scanner := { s with cursor := s.cursor + n }

/-- A line starts at the cursor. -/
def newline (s : Scanner) : Scanner := { s with line := s.line + 1, lineStart := s.cursor }

/-- The location of the character that so many others precede, in the line reached. -/
def locationOf (s : Scanner) (n : Nat) : Location := .source ⟨s.line, n - s.lineStart + 1⟩

end Scanner

namespace Token

open ScanError

/-! ### Character classes -/

/-- The characters that separate tokens and give none. -/
def isBlank (c : Char) : Bool := c = ' ' || c = '\r' || c = '\t' || c = '\n'

/-- The characters that continue a word. -/
def isWordRest (c : Char) : Bool := c.isAlphanum || c = '_'

/-- The value of a hexadecimal digit. -/
def hexValue? (c : Char) : Option Nat :=
  if '0' ≤ c ∧ c ≤ '9' then some (c.toNat - 48)
  else if 'a' ≤ c ∧ c ≤ 'f' then some (c.toNat - 87)
  else if 'A' ≤ c ∧ c ≤ 'F' then some (c.toNat - 55)
  else none

/-- The value of a run of decimal digits. -/
def decimalValue (digits : List Char) : Nat :=
  digits.foldl (fun value c => 10 * value + (c.toNat - 48)) 0

/-! ### The parts of a text

Each reader is given the characters after those that made it start and returns
what it read with the number of characters that it took. -/

/-- The symbol that starts with a character, the longer one where two do. -/
def takeSymbol? : Char → List Char → Option (Symbol × Nat)
  | ':', '=' :: _ => some (.assign, 1)
  | '<', '>' :: _ => some (.notEqual, 1)
  | '<', '=' :: _ => some (.lessEqual, 1)
  | '>', '=' :: _ => some (.greaterEqual, 1)
  | '(', _ => some (.leftParen, 0)
  | ')', _ => some (.rightParen, 0)
  | '[', _ => some (.leftBracket, 0)
  | ']', _ => some (.rightBracket, 0)
  | ',', _ => some (.comma, 0)
  | ';', _ => some (.semicolon, 0)
  | ':', _ => some (.colon, 0)
  | '+', _ => some (.plus, 0)
  | '-', _ => some (.minus, 0)
  | '*', _ => some (.star, 0)
  | '=', _ => some (.equal, 0)
  | '#', _ => some (.notEqual, 0)
  | '<', _ => some (.less, 0)
  | '>', _ => some (.greater, 0)
  | _, _ => none

/-- The rest of a block comment, read after its two first characters. Such comments
may span lines but do not nest. -/
def takeBlockComment : List Char → Scanner → Except Cause (Nat × Scanner)
  | [], _ => .error .openComment
  | '*' :: '/' :: _, s => .ok (2, s.advance 2)
  | c :: cs, s => do
      let (n, s) ← takeBlockComment cs (if c = '\n' then (s.advance 1).newline else s.advance 1)
      return (n + 1, s)

/-- The byte of an escape that is one character. -/
def shortEscape? : Char → Option UInt8
  | 'n' => some 10
  | 't' => some 9
  | 'r' => some 13
  | '0' => some 0
  | '\\' => some 92
  | '\'' => some 39
  | '"' => some 34
  | _ => none

/-- The byte that the characters after `\x` stand for: one or two hexadecimal
digits, the first of two possibly a plus sign. -/
def numberEscape? : List Char → Option UInt8
  | [c] => (hexValue? c).map Nat.toUInt8
  | ['+', c] => (hexValue? c).map Nat.toUInt8
  | [c, d] => do
      let high ← hexValue? c
      let low ← hexValue? d
      return (16 * high + low).toUInt8
  | _ => none

/-- The byte of an escape, read after its backslash. The characters after `\x`
are the next two, or fewer at the end of the text. -/
def takeEscape : List Char → Except Cause (UInt8 × Nat)
  | [] => .error .openEscape
  | 'x' :: cs =>
      let digits := cs.take 2
      match numberEscape? digits with
      | some b => .ok (b, digits.length + 1)
      | none => .error (.unknownNumberEscape digits)
  | c :: _ =>
      match shortEscape? c with
      | some b => .ok (b, 1)
      | none => .error (.unknownEscape c)

/-- The contents of a string literal, read after its opening quote. -/
def takeString (cs : List Char) : Except Cause (List Char × Nat) :=
  match cs with
  | [] => .error .openString
  | '"' :: _ => .ok ([], 1)
  | '\\' :: more => do
      let (b, taken) ← takeEscape more
      if b < 128 then
        let (contents, n) ← takeString (more.drop taken)
        return (Char.ofNat b.toNat :: contents, n + taken + 1)
      else throw .escapeBeyondAscii
  | c :: more =>
      if c = '\n' then .error .openString
      else if c.toNat < 128 then do
        let (contents, n) ← takeString more
        return (c :: contents, n + 1)
      else .error (.characterBeyondAscii c)
termination_by cs.length

/-- The byte of a character literal, read after its opening quote. -/
def takeByte : List Char → Except Cause (UInt8 × Nat)
  | '\\' :: cs => do
      let (b, taken) ← takeEscape cs
      return (b, taken + 1)
  | c :: _ =>
      if c.toNat < 128 ∧ c ≠ '\'' ∧ c ≠ '\n' then .ok (c.toNat.toUInt8, 1)
      else .error .badCharacter
  | [] => .error .badCharacter

/-- A character literal, read after its opening quote. -/
def takeCharacter (cs : List Char) : Except Cause (Token × Nat) := do
  let (b, taken) ← takeByte cs
  if (cs.drop taken).head? = some '\'' then return (.char b, taken + 1)
  else throw .openCharacter

/-- An integer literal whose digits are given. -/
def ofDigits (digits : List Char) : Except Cause Token :=
  let value := decimalValue digits
  if value < 0x80000000 then .ok (.int (Int32.ofNat value)) else .error (.largeInteger digits)

/-- A comment, read after its first slash. A slash that starts no comment starts
nothing else. -/
def takeComment : List Char → Scanner → Except Cause (Nat × Scanner)
  | '/' :: cs, s =>
      let n := (cs.takeWhile (· ≠ '\n')).length + 1
      .ok (n, s.advance n)
  | '*' :: cs, s => do
      let (n, s) ← takeBlockComment cs (s.advance 1)
      return (n + 1, s)
  | _, _ => .error (.unknownCharacter '/')

/-- The token at the start of `c :: cs`, with the number of characters of `cs` that
belong to it. -/
def takeToken (c : Char) (cs : List Char) : Except Cause (Token × Nat) :=
  if c.isDigit then do
    let digits := cs.takeWhile Char.isDigit
    return (← ofDigits (c :: digits), digits.length)
  else if c.isAlpha then
    let rest := cs.takeWhile isWordRest
    .ok (ofWord (String.ofList (c :: rest)), rest.length)
  else if c = '"' then do
    let (contents, n) ← takeString cs
    return (.string (String.ofList contents), n)
  else if c = '\'' then takeCharacter cs
  else
    match takeSymbol? c cs with
    | some (s, n) => .ok (.symbol s, n)
    | none => .error (.unknownCharacter c)

/-- What stands at the start of `c :: cs`, a token or nothing for a blank and a
comment, with the number of characters of `cs` that belong to it. The cursor stands
behind `c`. -/
def take (c : Char) (cs : List Char) (s : Scanner) :
    Except Cause (Option Token × Nat × Scanner) :=
  if isBlank c then .ok (none, 0, if c = '\n' then s.newline else s)
  else if c = '/' then do return (none, ← takeComment cs s)
  else do
    let (token, n) ← takeToken c cs
    return (some token, n, s.advance n)

/-! ### Whole texts -/

/-- The lexemes of what is left of a text that has been read as far as `s` says. -/
def scanFrom (s : Scanner) (cs : List Char) : Except ScanError (List Lexeme) :=
  match cs with
  | [] => .ok [⟨.eof, s.locationOf s.cursor⟩]
  | c :: more =>
      let s := s.advance 1
      let start := s.cursor - 1
      let location := s.locationOf start
      match take c more s with
      | .error cause => .error ⟨cause, location⟩
      | .ok (token?, n, s) => do
          let lexemes ← scanFrom s (more.drop n)
          match token? with
          | some token => return ⟨token, location⟩ :: lexemes
          | none => return lexemes
termination_by cs.length

/-- The lexemes of a text, the last of them `Token.eof` at its end. -/
def scan (source : String) : Except ScanError (List Lexeme) :=
  scanFrom {} source.toList

end Token

end BlockLang
