/-!
# Escaped bytes

A byte inside a quoted literal is written as itself when it is printable. Some
bytes have a short escape, a backslash and one character; every other byte is
written as a backslash and a number. Source literals and assembler strings
differ in which bytes have a short escape and in how the number is written.
-/

namespace BlockLang

/-- How bytes that are not written as themselves are escaped. -/
structure EscapeStyle where
  /-- The bytes with a short escape, each with the character after the backslash. -/
  short : List (UInt8 × Char)
  /-- What follows the backslash of any other byte that is not printable. -/
  number : UInt8 → List Char

namespace EscapeStyle

/-- The printable bytes are the ASCII characters from the space to the tilde. -/
def isPrintable (b : UInt8) : Bool := 0x20 ≤ b && b ≤ 0x7e

/-- The characters that stand for a byte. -/
def byte (style : EscapeStyle) (b : UInt8) : List Char :=
  match style.short.lookup b with
  | some c => ['\\', c]
  | none => if isPrintable b then [Char.ofNat b.toNat] else '\\' :: style.number b

/-- The characters that stand for the UTF-8 bytes of a text. -/
def chars (style : EscapeStyle) (s : String) : List Char :=
  (s.toList.flatMap String.utf8EncodeChar).flatMap style.byte

/-- The text with every byte of its UTF-8 form escaped. -/
def text (style : EscapeStyle) (s : String) : String := String.ofList (style.chars s)

/-- Two lower-case hexadecimal digits. -/
def hexadecimal (b : UInt8) : List Char :=
  [Nat.digitChar (b.toNat / 16), Nat.digitChar (b.toNat % 16)]

/-- Three octal digits. -/
def octal (b : UInt8) : List Char :=
  [Nat.digitChar (b.toNat / 64), Nat.digitChar (b.toNat / 8 % 8), Nat.digitChar (b.toNat % 8)]

/-- The escapes of character and string literals in a program. -/
def literal : EscapeStyle where
  short := [(10, 'n'), (9, 't'), (13, 'r'), (0, '0'), (92, '\\'), (39, '\''), (34, '"')]
  number b := 'x' :: hexadecimal b

/-- The escapes of strings in assembly. -/
def assembler : EscapeStyle where
  short := [(34, '"'), (92, '\\'), (10, 'n'), (9, 't'), (13, 'r')]
  number := octal

end EscapeStyle

end BlockLang
