import BlockLang.Emit.Program
import BlockLang.Phrase.Program
import BlockLang.Tree.Text

/-!
# Compiling a text

The text of a program is read as tokens and as a tree, and code is emitted for
the tree. The results are texts: the tree, the quads, the blocks and the
assembly. The events of the compilation are known whether or not it succeeds.
-/

namespace BlockLang

/-- The texts that a compilation results in. -/
structure Compilation where
  tree : String
  quads : String
  blocks : String
  assembly : String
  deriving DecidableEq

namespace Progress

/-- One line for each block of each function. -/
def blocksText (p : Progress) : String :=
  String.join (p.blocks.flatMap fun (label, blocks) =>
    blocks.zipIdx.map fun (b, n) =>
      label.text ++ ": block " ++ toString n ++ ": " ++ b.text ++ "\n")

/-- The results when the code of a tree is complete. -/
def compilation (p : Progress) (tree : Decl) : Compilation :=
  ⟨programText (some tree), p.code.text, p.blocksText, p.assembly.text⟩

end Progress

/-- Compiles a tree. -/
def compileTree (tree : Decl) : Except CompileError Compilation × List Event :=
  match Emit.program (some tree) {} with
  | .ok _ p =>
      (.ok (p.compilation tree),
        p.events.toList ++ [.compiled p.code.next p.assembly.program.length])
  | .error e p => (.error e, p.events.toList)

/-- Compiles lexemes. -/
def compileLexemes (lexemes : List Lexeme) : Except CompileError Compilation × List Event :=
  let (outcome, completed) := Decl.read lexemes
  let parsed := completed.map fun d => Event.parsed d.name d.locals
  match outcome with
  | .error e => (.error (.syntactic e), parsed)
  | .ok tree =>
      let (outcome, events) := compileTree tree
      (outcome, parsed ++ events)

/-- Compiles a text. -/
def compile (source : String) : Except CompileError Compilation × List Event :=
  match Token.scan source with
  | .error e => (.error (.lexical e), [])
  | .ok lexemes =>
      let (outcome, events) := compileLexemes lexemes
      (outcome, .scanned lexemes.length :: events)

end BlockLang
