import BlockLang.Proofs.Grammar.Complete

/-!
# Reading is deriving

A list of lexemes is read exactly if the grammar derives it, and what is read is the tree of
the derivation in which each `else` belongs to the nearest open `if`. In this tree the
operators of a rank join from left to right: this is how the grammar builds it.
-/

namespace BlockLang

/-- A list of lexemes with its only end mark at its end is read exactly if the grammar derives
it. What is read is the tree of the one derivation in which each `else` belongs to the nearest
open `if`. -/
theorem read_eq_ok_iff_derived (items : List Lexeme) (x : Location)
    (hitems : ∀ y ∈ items, y.token ≠ .eof) :
    ((∃ tree, (Decl.read (items ++ [⟨.eof, x⟩])).1 = .ok tree) ↔
      ∃ tree, Grammar.Program (items ++ [⟨.eof, x⟩]) tree) ∧
    ∀ tree, (Decl.read (items ++ [⟨.eof, x⟩])).1 = .ok tree ↔
      Grammar.Program (items ++ [⟨.eof, x⟩]) tree ∧ tree.NearestElse := by
  have htree : ∀ tree, (Decl.read (items ++ [⟨.eof, x⟩])).1 = .ok tree ↔
      Grammar.Program (items ++ [⟨.eof, x⟩]) tree ∧ tree.NearestElse :=
    fun tree => ⟨Grammar.Program.of_read hitems, fun h => h.1.read_eq h.2⟩
  refine ⟨⟨?_, ?_⟩, htree⟩
  · rintro ⟨tree, hread⟩
    exact ⟨tree, ((htree tree).mp hread).1⟩
  · rintro ⟨tree, hprogram⟩
    obtain ⟨tree', hprogram', hnearest⟩ := hprogram.exists_nearestElse
    exact ⟨tree', (htree tree').mpr ⟨hprogram', hnearest⟩⟩

/-- A program with two open `if` and one `else`, without its end mark. -/
def danglingElse : List Lexeme :=
  [.keyword .function, .name "main", .symbol .leftParen, .symbol .rightParen, .symbol .colon,
    .keyword .nothing, .symbol .semicolon, .keyword .begin,
    .keyword .«if», .symbol .leftParen, .int 1, .symbol .rightParen, .symbol .equal, .int 2,
    .keyword .«then», .keyword .«if», .int 3, .symbol .less, .int 4, .keyword .«then»,
    .symbol .semicolon, .keyword .«else», .symbol .semicolon, .keyword .«end»].map
    fun t => ⟨t, .start⟩

theorem read_eq_ok_iff_derived_danglingElse :
    (∀ y ∈ danglingElse, y.token ≠ .eof) ∧
    ∃ tree, (Decl.read (danglingElse ++ [⟨.eof, .start⟩])).1 = .ok tree ∧
      Grammar.Program (danglingElse ++ [⟨.eof, .start⟩]) tree ∧ tree.NearestElse := by
  have hitems : ∀ y ∈ danglingElse, y.token ≠ .eof := by decide
  have hsome : (Decl.read (danglingElse ++ [⟨.eof, .start⟩])).1.toOption.isSome = true := by
    decide +kernel
  refine ⟨hitems, ?_⟩
  cases hread : (Decl.read (danglingElse ++ [⟨.eof, .start⟩])).1 with
  | error e =>
    rw [hread] at hsome
    cases hsome
  | ok tree =>
    exact ⟨tree, rfl, ((read_eq_ok_iff_derived danglingElse .start hitems).2 tree).mp hread⟩

end BlockLang
