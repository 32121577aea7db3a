import BlockLang.Token
import BlockLang.Tree.Building

/-!
# Reading phrases

A phrase is read from lexemes in a row, with a cursor that moves over them. A reader
either gives what it read and leaves the cursor behind it, or says what it expected
and what it found instead. The cursor never goes past an end mark. What a reader
makes of the lexemes is left to the notes that it keeps.

Readers that call themselves do so through `Phrase.fix`, which lets a reader
start again only on fewer lexemes. Repetitions end in the same way.
-/

namespace BlockLang

/-- What a reader looked for. -/
inductive Expected
  | token (t : Token)
  | name
  | resultType
  | scalarType
  | extent
  | statement
  | expression
  | relation
  | arithmeticOperator
  | sign
  | endOfInput
  deriving DecidableEq

namespace Expected

/-- What was looked for, in words. -/
def text : Expected → String
  | token t => "`" ++ t.text ++ "`"
  | name => "identifier"
  | resultType => "return type"
  | scalarType => "`int` or `char`"
  | extent => "array dimension"
  | statement => "statement"
  | expression => "expression"
  | relation => "relational operator"
  | arithmeticOperator => "arithmetic operator"
  | sign => "unary operator"
  | endOfInput => "end of input"

end Expected

/-- Why a list of lexemes is not a program. -/
inductive SyntaxError.Cause
  | unexpected (wanted : Expected) (found : Token)
  | extentNotPositive
  | programNotDefined
  deriving DecidableEq

/-- Why and where a list of lexemes is not a program. -/
structure SyntaxError where
  cause : SyntaxError.Cause
  location : Location
  deriving DecidableEq

namespace SyntaxError

/-- The cause in words. -/
def Cause.text : Cause → String
  | unexpected wanted found => "Expected " ++ wanted.text ++ ", found `" ++ found.text ++ "`"
  | extentNotPositive => "Array dimensions must be positive"
  | programNotDefined => "Expected a function definition as the program"

/-- The cause and the location in words. -/
def text (e : SyntaxError) : String := e.cause.text ++ " at " ++ e.location.text ++ "."

end SyntaxError

/-- Lexemes with an end mark at their end. One that lacks it is closed at the
location of its last lexeme. -/
def closed (lexemes : List Lexeme) : List Lexeme :=
  match lexemes.getLast? with
  | none => [⟨.eof, .start⟩]
  | some last => if last.token = .eof then lexemes else lexemes ++ [⟨.eof, last.location⟩]

theorem exists_end (lexemes : List Lexeme) : ∃ x ∈ closed lexemes, x.token = .eof := by
  unfold closed
  split
  · exact ⟨_, List.mem_singleton_self _, rfl⟩
  · next last hlast =>
    split
    · next heof => exact ⟨last, List.mem_of_getLast? hlast, heof⟩
    · exact ⟨_, List.mem_append_right _ (List.mem_singleton_self _), rfl⟩

/-- Lexemes with a cursor that has not passed an end mark. -/
structure Lexemes where
  tokens : Array Lexeme
  /-- The number of lexemes that have been passed. -/
  cursor : Nat
  not_passed : ∀ x ∈ tokens.toList.take cursor, x.token ≠ .eof
  has_end : ∃ x ∈ tokens.toList, x.token = .eof

namespace Lexemes

/-- The cursor stands in front of the lexemes of a list. -/
def start (lexemes : List Lexeme) : Lexemes where
  tokens := (closed lexemes).toArray
  cursor := 0
  not_passed := fun _ h => absurd h List.not_mem_nil
  has_end := exists_end lexemes

theorem cursor_lt (l : Lexemes) : l.cursor < l.tokens.size := by
  obtain ⟨x, hx, heof⟩ := l.has_end
  refine Nat.lt_of_not_le fun hle => l.not_passed x ?_ heof
  rwa [List.take_of_length_le hle]

/-- The lexeme at the cursor. -/
def next (l : Lexemes) : Lexeme :=
  have := l.cursor_lt
  l.tokens[l.cursor]

/-- The token so many places after the cursor, the last one if there are fewer. -/
def nth (l : Lexemes) (n : Nat) : Token :=
  have : min (l.cursor + n) (l.tokens.size - 1) < l.tokens.size :=
    Nat.lt_of_le_of_lt (Nat.min_le_right ..) (Nat.sub_one_lt_of_lt l.cursor_lt)
  l.tokens[min (l.cursor + n) (l.tokens.size - 1)].token

/-- The lexeme before the cursor. -/
def prev (l : Lexemes) : Lexeme :=
  have : l.cursor - 1 < l.tokens.size := Nat.lt_of_le_of_lt (Nat.sub_le ..) l.cursor_lt
  l.tokens[l.cursor - 1]

/-- The cursor passes a lexeme, but never an end mark. -/
def tail (l : Lexemes) : Lexemes :=
  if h : l.next.token = .eof then l
  else {
    l with
    cursor := l.cursor + 1
    not_passed := by
      have := l.cursor_lt
      rw [List.take_add_one, Array.getElem?_toList, Array.getElem?_eq_getElem this]
      exact List.forall_mem_append.mpr ⟨l.not_passed, List.forall_mem_singleton.mpr h⟩ }

/-- The number of lexemes from the cursor on. -/
def count (l : Lexemes) : Nat := l.tokens.size - l.cursor

end Lexemes

/-- The effects of reading: it may be refused, and notes are kept even then. -/
abbrev Parse (A : Type) := ExceptT SyntaxError (StateM A)

/-- Readers of lexemes that keep notes. -/
abbrev Phrase (A : Type) := StateT Lexemes (Parse A)

namespace Phrase

variable {A α ω : Type}

/-! ### Single lexemes -/

/-- The token at the front. -/
def peek : Phrase A Token := fun lexemes => pure (lexemes.nth 0, lexemes)

/-- The token after the one at the front. -/
def peekSecond : Phrase A Token := fun lexemes => pure (lexemes.nth 1, lexemes)

/-- The location of the lexeme at the front. -/
def location : Phrase A Location := fun lexemes => pure (lexemes.next.location, lexemes)

/-- Passes the lexeme at the front, but never the end mark, and gives what was passed
last. -/
def advance : Phrase A Lexeme := fun lexemes => pure (lexemes.tail.prev, lexemes.tail)

/-- Passes the lexeme at the front, but never the end mark. -/
def skip : Phrase A Unit := discard advance

/-- Passes a given token if it stands at the front and tells whether it did. -/
def accept (t : Token) : Phrase A Bool := do
  if (← peek) = t then
    skip
    return true
  else
    return false

/-- Refuses the lexeme at the front. -/
def fail (wanted : Expected) : Phrase A α := fun lexemes =>
  throw ⟨.unexpected wanted (lexemes.nth 0), lexemes.next.location⟩

/-- Refuses a lexeme that has been passed. -/
def refuse (wanted : Expected) (x : Lexeme) : Phrase A α :=
  throw ⟨.unexpected wanted x.token, x.location⟩

/-- Passes a given token and refuses any other. -/
def expect (t : Token) : Phrase A Unit := do
  unless ← accept t do
    fail (.token t)

/-- Passes a name and gives it with its location. -/
def declaredName : Phrase A (String × Location) := do
  match ← peek with
  | .name x =>
      let l ← location
      skip
      return (x, l)
  | _ => fail .name

/-! ### Recursion and repetition -/

/-- A reader that may call itself on fewer lexemes than it was given. -/
def fix (wanted : Expected) (body : Phrase A α → Phrase A α) (lexemes : Lexemes) :
    Parse A (α × Lexemes) :=
  body (fun rest =>
    if rest.count < lexemes.count then fix wanted body rest else fail wanted rest) lexemes
termination_by lexemes.count

/-- Reads items while the token at the front allows one. An item that passes no
lexeme is the last. -/
def many (more : Token → Bool) (item : Phrase A α) (lexemes : Lexemes) :
    Parse A (List α × Lexemes) :=
  if more (lexemes.nth 0) then do
    let (a, rest) ← item lexemes
    if rest.count < lexemes.count then
      let (as, rest) ← many more item rest
      return (a :: as, rest)
    else
      return ([a], rest)
  else
    return ([], lexemes)
termination_by lexemes.count

/-- Joins items from left to right while an operator stands between them. An item
that passes no lexeme is the last. -/
def chain (item : Phrase A α) (operator? : Token → Option ω) (join : ω → α → α → Phrase A α)
    (left : α) (lexemes : Lexemes) : Parse A (α × Lexemes) :=
  match operator? (lexemes.nth 0) with
  | none => return (left, lexemes)
  | some operator => do
      let (right, rest) ← item lexemes.tail
      let (joined, rest) ← join operator left right rest
      if rest.count < lexemes.count then
        chain item operator? join joined rest
      else
        return (joined, rest)
termination_by lexemes.count

/-- Reads one item or more with a token between them. -/
def separatedBy (separator : Token) (item : Phrase A α) : Phrase A (List α) := do
  let first ← item
  let others ← many (· = separator) do
    skip
    item
  return first :: others

/-! ### Making nodes -/

variable {ε σ δ : Type} [Building A ε σ δ]

/-- Makes an expression. -/
def newExpr (node : ExprNode ε) (l : Location) : Phrase A ε := fun lexemes notes =>
  let (e, notes) := Building.expr node l notes
  (.ok (e, lexemes), notes)

/-- Makes a statement. -/
def newStmt (node : StmtNode ε σ) (l : Location) : Phrase A σ := fun lexemes notes =>
  let (s, notes) := Building.stmt node l notes
  (.ok (s, lexemes), notes)

/-- Makes a declaration. -/
def newDecl (node : DeclNode σ δ) : Phrase A δ := fun lexemes notes =>
  let (d, notes) := Building.decl node notes
  (.ok (d, lexemes), notes)

/-- Whether a declaration has been made as a forward declaration. -/
def isForward (d : δ) : Phrase A Bool := fun lexemes notes =>
  (.ok (Building.isForward notes d, lexemes), notes)

/-- Tries a reading. If it is refused or gives nothing, no lexeme has been passed, and what
was made on the way is given up. -/
def attempt (x : Phrase A (Option α)) : Phrase A (Option α) := fun lexemes notes =>
  match x lexemes notes with
  | (.ok (some a, rest), notes) => (.ok (some a, rest), notes)
  | (_, notes') => (.ok (none, lexemes), Building.giveUp notes notes')

end Phrase

end BlockLang
