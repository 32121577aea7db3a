import BlockLang.Location
import BlockLang.Text.Escape

/-!
# Tokens

A program text is read as a list of tokens: symbols, keywords, literals and
names, closed by a mark for the end of the text.
-/

namespace BlockLang

/-- The punctuation and the operators that are not words. -/
inductive Symbol
  | leftParen | rightParen | leftBracket | rightBracket
  | comma | semicolon | colon | assign
  | plus | minus | star
  | equal | notEqual | greater | less | greaterEqual | lessEqual
  deriving DecidableEq

namespace Symbol

/-- Every symbol. -/
def all : List Symbol :=
  [leftParen, rightParen, leftBracket, rightBracket, comma, semicolon, colon, assign, plus, minus,
    star, equal, notEqual, greater, less, greaterEqual, lessEqual]

/-- The spelling of a symbol. -/
def text : Symbol → String
  | leftParen => "("
  | rightParen => ")"
  | leftBracket => "["
  | rightBracket => "]"
  | comma => ","
  | semicolon => ";"
  | colon => ":"
  | assign => ":="
  | plus => "+"
  | minus => "-"
  | star => "*"
  | equal => "="
  | notEqual => "#"
  | greater => ">"
  | less => "<"
  | greaterEqual => ">="
  | lessEqual => "<="

end Symbol

/-- The reserved words. -/
inductive Keyword
  | function | forward | var | ref | int | char | nothing | begin | «end» | «if» | «then» | «else»
  | «while» | «do» | «return» | and | or | not | div | mod
  deriving DecidableEq

namespace Keyword

/-- Every reserved word. -/
def all : List Keyword :=
  [function, forward, var, ref, int, char, nothing, begin, «end», «if», «then», «else», «while»,
    «do», «return», and, or, not, div, mod]

/-- The spelling of a reserved word. -/
def text : Keyword → String
  | function => "function"
  | forward => "forward"
  | var => "var"
  | ref => "ref"
  | int => "int"
  | char => "char"
  | nothing => "nothing"
  | begin => "begin"
  | «end» => "end"
  | «if» => "if"
  | «then» => "then"
  | «else» => "else"
  | «while» => "while"
  | «do» => "do"
  | «return» => "return"
  | and => "and"
  | or => "or"
  | not => "not"
  | div => "div"
  | mod => "mod"

/-- The reserved word with a given spelling. -/
def ofText? (word : String) : Option Keyword := all.find? fun k => k.text = word

end Keyword

/-- The tokens of a program. -/
inductive Token
  | symbol (s : Symbol)
  | keyword (k : Keyword)
  | int (value : Int32)
  | char (byte : UInt8)
  | string (text : String)
  | name (text : String)
  /-- The end of the text. -/
  | eof
  deriving DecidableEq

namespace Token

/-- The token of a word: a keyword if it is reserved and a name otherwise. -/
def ofWord (word : String) : Token :=
  match Keyword.ofText? word with
  | some k => keyword k
  | none => name word

/-- A token as messages show it. -/
def text : Token → String
  | symbol s => s.text
  | keyword k => k.text
  | int value => "INT(" ++ toString value.toInt ++ ")"
  | char byte => "CHAR('" ++ String.ofList (EscapeStyle.literal.byte byte) ++ "')"
  | string text => "STR(\"" ++ EscapeStyle.literal.text text ++ "\")"
  | name text => "IDENT(" ++ text ++ ")"
  | eof => "EOF"

end Token

/-- A token together with the location of its first character. -/
structure Lexeme where
  token : Token
  location : Location
  deriving DecidableEq

end BlockLang
