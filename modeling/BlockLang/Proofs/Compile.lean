import BlockLang.Compile

/-!
# Outcomes of compiling a text

A text is refused as lexemes or as a tree, or what comes out is that of its tree.
-/

namespace BlockLang

open Decl Token

variable {source : String} {lexemes : List Lexeme} {tree : Decl}

theorem exists_of_any {ε α : Type} {x : Except ε α} {P : α → Bool} (h : x.toOption.any P) :
    ∃ a, x = .ok a ∧ P a := by
  cases x with
  | error e => cases h
  | ok a => exact ⟨a, rfl, h⟩

theorem exists_eq_ok {ε α : Type} (x : Except ε α) (h : x.toOption.isSome) : ∃ a, x = .ok a := by
  cases x with
  | error e => cases h
  | ok a => exact ⟨a, rfl⟩

theorem compile_eq_compileTree (hscan : scan source = .ok lexemes)
    (hread : (read lexemes).1 = .ok tree) : (compile source).1 = (compileTree tree).1 := by
  rw [compile, hscan]
  dsimp only [compileLexemes]
  rw [hread]

theorem compile_cases (source : String) :
    (∃ e, (compile source).1 = .error (.lexical e)) ∨
    (∃ e, (compile source).1 = .error (.syntactic e)) ∨
    ∃ lexemes tree, scan source = .ok lexemes ∧ (read lexemes).1 = .ok tree ∧
      (compile source).1 = (compileTree tree).1 := by
  cases hscan : scan source with
  | error e => exact .inl ⟨e, by rw [compile, hscan]⟩
  | ok lexemes =>
    cases hread : (read lexemes).1 with
    | error e =>
      refine .inr (.inl ⟨e, ?_⟩)
      rw [compile, hscan]
      dsimp only [compileLexemes]
      rw [hread]
    | ok tree => exact .inr (.inr ⟨lexemes, tree, rfl, hread, compile_eq_compileTree hscan hread⟩)

/-- The tree that a text is read as. -/
def treeOf? (source : String) : Option Decl :=
  (scan source).toOption.bind fun lexemes => (read lexemes).1.toOption

theorem treeOf?_eq (hscan : scan source = .ok lexemes)
    (hread : (read lexemes).1 = .ok tree) : treeOf? source = some tree := by
  simp [treeOf?, hscan, hread, Except.toOption]

theorem exists_read_of_any {P : Decl → Bool} (h : (treeOf? source).any P) :
    ∃ lexemes tree, scan source = .ok lexemes ∧ (read lexemes).1 = .ok tree ∧
      P tree := by
  rw [treeOf?, Option.any_bind] at h
  obtain ⟨lexemes, hscan, hany⟩ := exists_of_any h
  obtain ⟨tree, hread, htree⟩ := exists_of_any hany
  exact ⟨lexemes, tree, hscan, hread, htree⟩

/-- The progress at the end of a tree. -/
def progress? (tree : Decl) : Option Progress :=
  match Emit.program (some tree) {} with
  | .ok _ p => some p
  | .error _ _ => none

theorem progress?_eq {p : Progress} (hrun : Emit.program (some tree) {} = .ok () p) :
    progress? tree = some p := by
  rw [progress?, hrun]

theorem exists_compilation {P : Decl → Progress → Bool}
    (h : (treeOf? source).any fun tree => (progress? tree).any (P tree)) :
    ∃ c, (compile source).1 = .ok c := by
  obtain ⟨lexemes, tree, hscan, hread, hany⟩ := exists_read_of_any h
  rw [compile_eq_compileTree hscan hread, compileTree]
  unfold progress? at hany
  cases hrun : Emit.program (some tree) {} with
  | ok u p => exact ⟨_, rfl⟩
  | error e p => rw [hrun] at hany; cases hany

end BlockLang
