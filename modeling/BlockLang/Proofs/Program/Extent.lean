import BlockLang.Proofs.Frame.Depth
import BlockLang.Proofs.Program.Header
import BlockLang.Proofs.Typing

/-!
# Extents in declarations

The extents of a variable are written as positive numbers, so every variable of a program
that is compiled has cells. So are those of a parameter, except for a leading one that is left
open.
-/

namespace BlockLang

open List

variable {r : CompiledFunction} {tree : Decl} {rs : List CompiledFunction} {p : Progress}

namespace Decl

/-- The extents of all variables in a declaration are positive. -/
def IsSized (d : Decl) : Prop :=
  ∀ path names ty extents, d.subtree? path = some (.vars names ty extents) → ∀ n ∈ extents, 1 ≤ n

/-- The extents of the parameters of all functions in a declaration are positive. -/
def HasSizedParameters (d : Decl) : Prop :=
  ∀ path header locals body, d.subtree? path = some (.function header locals body) →
    ∀ g ∈ header.groups, ∀ n ∈ g.extents, 1 ≤ n

end Decl

theorem Grammar.respectedDeclarations_sized :
    Grammar.RespectedDeclarations (fun _ => True) (fun _ => True) Decl.IsSized where
  vars h := by
    intro path names ty extents hat
    cases path <;> cases hat
    exact h.extent
  forward _ := by
    intro path names ty extents hat
    cases path <;> cases hat
  function _ hlocals _ := by
    intro path names ty extents hat
    cases path with
    | nil => cases hat
    | cons k path =>
      obtain ⟨d, hd, hat⟩ := Option.bind_eq_some_iff.mp hat
      exact hlocals d (mem_of_getElem? hd) path names ty extents hat

theorem Grammar.respectedDeclarations_sizedParameters :
    Grammar.RespectedDeclarations (fun _ => True) (fun _ => True) Decl.HasSizedParameters where
  vars _ := by
    intro path header locals body hat
    cases path <;> cases hat
  forward _ := by
    intro path header locals body hat
    cases path <;> cases hat
  function h hlocals _ := by
    intro path header locals body hat
    cases path with
    | nil =>
      cases hat
      exact fun g hg => (h.group g hg).extent
    | cons k path =>
      obtain ⟨d, hd, hat⟩ := Option.bind_eq_some_iff.mp hat
      exact hlocals d (mem_of_getElem? hd) path header locals body hat

namespace Decl

variable {lexemes : List Lexeme} {tree : Decl} (h : (Decl.read lexemes).1 = .ok tree)

include h

/-- The extents of the variables in a tree that has been read are positive. -/
theorem isSized_of_read : tree.IsSized :=
  Grammar.respectedDeclarations_sized.of_read (fun _ _ _ _ _ => trivial) (fun _ _ => trivial) h

/-- The extents of the parameters in a tree that has been read are positive. -/
theorem hasSizedParameters_of_read : tree.HasSizedParameters :=
  Grammar.respectedDeclarations_sizedParameters.of_read (fun _ _ _ _ _ => trivial)
    (fun _ _ => trivial) h

end Decl

/-- The variables that a body can name hold values and have cells. -/
theorem Compiles.isProper_of_find? (h : Compiles tree p rs) (htext : tree.InText)
    (htyped : tree.IsTyped) (hsized : tree.IsSized) (hr : r ∈ rs) {x : String} {v : Variable}
    {scope : Int} (hx : r.opened.env.find? x = some ⟨.var v, scope⟩) : v.IsProper := by
  obtain ⟨bound, hintroduces⟩ := h.exists_introduces htext hr hx
  cases hintroduces with
  | var hat => exact ⟨htyped.of_subtree? hat, hsized _ _ _ _ hat⟩

/-- The parameters of a function have positive extents, apart from a leading one that is left
open. -/
theorem Compiles.one_le_extent (h : Compiles tree p rs) (htext : tree.InText)
    (hsized : tree.HasSizedParameters) (hr : r ∈ rs) {q : Parameter}
    (hq : q ∈ r.function.parameters) : ∀ n ∈ q.extents, 1 ≤ n := by
  obtain ⟨p', hcloses⟩ := h.closes r hr
  obtain ⟨group, hmem, -, hextents, -⟩ := Emit.exists_group hcloses.header hq
  rw [hextents]
  exact hsized _ _ _ _ (h.subtree?_path htext hr) group hmem

end BlockLang
