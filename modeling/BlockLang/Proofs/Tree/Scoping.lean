import BlockLang.Declaration
import BlockLang.Tree
import Mathlib.Data.List.Nodup

/-!
# Scoping in trees

The body of a function sees all its local declarations and its parameters, then what comes in the
functions around it up to the function itself, and last the program and the standard routines. A
function that is declared ahead stands for its definition, which comes later among the same
declarations.
-/

namespace BlockLang

open DeclaredName FunctionDecl List

def Header.parameterNames (header : Header) : List String :=
  header.groups.flatMap fun group => group.names.map text

/-- A declaration is the definition of a function with a name. -/
def Decl.isDefinitionOf (x : String) : Decl → Bool
  | function header _ _ => header.name = x
  | _ => false

/-- A function around a place, as far as the place sees it. -/
structure Enclosing where
  path : List Nat
  parameters : List String
  locals : List Decl
  /-- The number of local declarations that the place sees. -/
  seen : Nat

/-- A function of a tree with what surrounds its body. -/
structure Definition where
  path : List Nat
  levels : List Enclosing
  header : Header
  body : List Stmt

/-- A function is completed before another one: it is inside of it, or the two are inside
different local declarations of a function and its own comes first. -/
def CompletedBefore (a b : List Nat) : Prop :=
  b <+: a ∧ b ≠ a ∨ ∃ around j k, j < k ∧ around ++ [j] <+: a ∧ around ++ [k] <+: b

theorem CompletedBefore.ne {a b : List Nat} (h : CompletedBefore a b) : a ≠ b := by
  rintro rfl
  obtain ⟨-, hne⟩ | ⟨around, j, k, hlt, ha, ha'⟩ := h
  · exact hne rfl
  · -- the paths part at the position of the declaration
    have heq := (prefix_of_prefix_length_le ha ha' (by simp)).eq_of_length (by simp)
    simp only [append_cancel_left_eq, List.cons.injEq, and_true] at heq
    omega

namespace Decl

mutual

/-- The functions that a declaration defines, those inside first. -/
def definitions (outer : List Enclosing) (path : List Nat) : Decl → List Definition
  | function header locals body =>
      let level := Enclosing.mk path header.parameterNames locals
      definitionsFrom level outer path 0 locals ++
        [⟨path, level locals.length :: outer, header, body⟩]
  | _ => []

/-- The functions that local declarations from a position on define. The level is that
of the function around them, for any number of declarations seen. -/
def definitionsFrom (level : Nat → Enclosing) (outer : List Enclosing) (path : List Nat) (k : Nat) :
    List Decl → List Definition
  | [] => []
  | d :: ds =>
      definitions (level (k + 1) :: outer) (path ++ [k]) d ++
        definitionsFrom level outer path (k + 1) ds

end

mutual

/-- The functions that a declaration defines have its path or one inside it. -/
theorem path_of_mem_definitions : ∀ (d : Decl) {outer : List Enclosing} {path : List Nat}
    {e : Definition}, e ∈ definitions outer path d → path <+: e.path
  | function header locals body, outer, path, e, h => by
    rw [definitions] at h
    rcases mem_append.mp h with h | h
    · obtain ⟨j, -, hpath⟩ := path_of_mem_definitionsFrom locals h
      exact (prefix_append path [j]).trans hpath
    · obtain rfl := mem_singleton.mp h
      exact prefix_rfl
  | forward _, _, _, _, h | vars .., _, _, _, h | missing _, _, _, _, h => by
    simp [definitions] at h

theorem path_of_mem_definitionsFrom : ∀ (ds : List Decl) {level : Nat → Enclosing}
    {outer : List Enclosing} {path : List Nat} {k : Nat} {e : Definition},
    e ∈ definitionsFrom level outer path k ds → ∃ j, k ≤ j ∧ path ++ [j] <+: e.path
  | [], _, _, _, _, _, h => by simp [definitionsFrom] at h
  | d :: ds, level, outer, path, k, e, h => by
    rw [definitionsFrom] at h
    rcases mem_append.mp h with h | h
    · exact ⟨k, Nat.le_refl k, path_of_mem_definitions d h⟩
    · obtain ⟨j, hj, hpath⟩ := path_of_mem_definitionsFrom ds h
      exact ⟨j, Nat.le_of_succ_le hj, hpath⟩

end

mutual

/-- The functions of a declaration are listed in the order of completion. -/
theorem pairwise_definitions : ∀ (d : Decl) (outer : List Enclosing) (path : List Nat),
    ((definitions outer path d).map Definition.path).Pairwise CompletedBefore
  | function header locals body, outer, path => by
    rw [definitions, map_append, map_singleton]
    refine pairwise_append.mpr
      ⟨pairwise_definitionsFrom locals _ _ _ _, pairwise_singleton _ _, fun a ha b hb => ?_⟩
    obtain ⟨e, he, rfl⟩ := mem_map.mp ha
    obtain ⟨j, -, hpath⟩ := path_of_mem_definitionsFrom locals he
    obtain rfl := mem_singleton.mp hb
    refine .inl ⟨(prefix_append _ [j]).trans hpath, fun heq => ?_⟩
    have hle := (heq ▸ hpath).length_le
    rw [length_append, length_singleton] at hle
    exact Nat.not_succ_le_self _ hle
  | forward _, _, _ | vars .., _, _ | missing _, _, _ => by simp [definitions]

theorem pairwise_definitionsFrom : ∀ (ds : List Decl) (level : Nat → Enclosing)
    (outer : List Enclosing) (path : List Nat) (k : Nat),
    ((definitionsFrom level outer path k ds).map Definition.path).Pairwise CompletedBefore
  | [], _, _, _, _ => by simp [definitionsFrom]
  | d :: ds, level, outer, path, k => by
    rw [definitionsFrom, map_append]
    refine pairwise_append.mpr
      ⟨pairwise_definitions d _ _, pairwise_definitionsFrom ds _ _ _ _, fun a ha b hb => ?_⟩
    obtain ⟨e, he, rfl⟩ := mem_map.mp ha
    obtain ⟨e', he', rfl⟩ := mem_map.mp hb
    obtain ⟨j, hj, hpath'⟩ := path_of_mem_definitionsFrom ds he'
    exact .inr ⟨path, k, j, hj, path_of_mem_definitions d he, hpath'⟩

end

/-- No two functions of a tree have the same path. -/
theorem nodup_definitions (d : Decl) (outer : List Enclosing) (path : List Nat) :
    ((definitions outer path d).map Definition.path).Nodup :=
  (pairwise_definitions d outer path).imp CompletedBefore.ne

/-- The name that a tree defines. -/
def name : Decl → String
  | function header _ _ => header.name
  | _ => ""

end Decl

end BlockLang
