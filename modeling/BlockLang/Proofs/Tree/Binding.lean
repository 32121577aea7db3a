import BlockLang.Proofs.Tree.Scoping
import Mathlib.Data.List.Infix

/-!
# Binding in trees

A name that is used in the body of a function is bound by one declaration of the tree. The
functions around the use are searched from the inside: the local declarations that the place sees,
the latest first, then the parameters. What no function binds is the program itself or a standard
routine.
-/

namespace BlockLang

open Enclosing FunctionDecl List Option

variable {tree : Decl} {e : Definition} {target : List Nat} {k : Nat}

namespace Decl

/-- The declaration at a path. -/
def subtree? : List Nat → Decl → Option Decl
  | [], d => some d
  | k :: path, function _ locals _ => locals[k]?.bind (subtree? path)
  | _ :: _, _ => none

theorem subtree?_append_singleton {path : List Nat} {d : Decl} {header : Header}
    {locals : List Decl} {body : List Stmt}
    (h : d.subtree? path = some (.function header locals body)) :
    d.subtree? (path ++ [k]) = locals[k]? := by
  induction path generalizing d with
  | nil =>
    cases h
    simp only [nil_append, subtree?]
    cases locals[k]? <;> rfl
  | cons j path ih =>
    cases d with
    | function header' locals' body' =>
      obtain ⟨e, he, hsub⟩ := bind_eq_some_iff.mp h
      rw [cons_append, subtree?, he]
      exact ih hsub
    | forward header' => cases h
    | vars names ty extents => cases h
    | missing n => cases h

end Decl

/-- The declaration that binds a name. -/
inductive Bound
  /-- A parameter, by its position, of the function at a path. -/
  | parameter (path : List Nat) (position : Nat)
  /-- A variable in the declaration at a path. -/
  | var (path : List Nat)
  /-- The function that the declaration at a path introduces. -/
  | function (path : List Nat)
  /-- A standard routine. -/
  | routine
  deriving DecidableEq

namespace Bound

def IsPlace : Bound → Prop
  | parameter .. | var _ => True
  | function _ | routine => False

end Bound

/-- What a name is bound to by the declaration at a path. -/
def Decl.bound? (x : String) (path : List Nat) : Decl → Option Bound
  | vars names _ _ => if x ∈ names.map DeclaredName.text then some (.var path) else none
  | forward header | function header _ _ =>
      if header.name = x then some (.function path) else none
  | missing _ => none

namespace Enclosing

variable (l : Enclosing) (x : String)

/-- What a name is bound to by a local declaration. -/
def local? (k : Nat) : Option Bound := l.locals[k]?.bind (Decl.bound? x (l.path ++ [k]))

/-- What a name is bound to by the declarations that are seen, the latest first, or as a
parameter. -/
def bound? : Option Bound :=
  ((List.range l.seen).reverse.findSome? (l.local? x)).or
    ((l.parameters.idxOf? x).map (.parameter l.path))

end Enclosing

/-- What a name is bound to outside of the program: the program, or a standard routine one
level further out. -/
def outermostBinding? (program x : String) : Option (Nat × Bound) :=
  if x = program then some (0, .function [])
  else if x ∈ standard.map name then some (1, .routine)
  else none

/-- What a name is bound to in the functions around a place, the innermost first, with the
number of functions that do not bind it. -/
def binding? (program : String) (x : String) : List Enclosing → Option (Nat × Bound)
  | [] => outermostBinding? program x
  | level :: outer =>
      ((level.bound? x).map (0, ·)).or ((binding? program x outer).map fun (k, b) => (k + 1, b))

/-- What a name stands for. -/
inductive Meaning
  /-- A variable or a parameter. -/
  | place
  /-- The function whose definition has a path. -/
  | function (path : List Nat)
  /-- A standard routine. -/
  | routine (name : String)
  deriving DecidableEq

namespace Decl

def locals : Decl → List Decl
  | function _ locals _ => locals
  | _ => []

/-- The path of the function that the declaration at a path introduces. If it is declared
ahead, its definition comes later among the same declarations. -/
def defined? (tree : Decl) (x : String) (path : List Nat) : Option (List Nat) :=
  if path = [] then some []
  else (tree.subtree? path.dropLast).bind fun d =>
    (d.locals.findIdx? (·.isDefinitionOf x)).map fun k => path.dropLast ++ [k]

theorem defined?_append_singleton {x : String} {path : List Nat} {d : Decl}
    (h : tree.subtree? path = some d) : tree.defined? x (path ++ [k]) =
      (d.locals.findIdx? (·.isDefinitionOf x)).map fun k => path ++ [k] := by
  rw [defined?, if_neg (by simp), dropLast_concat, h, bind_some]

theorem defined?_cases {x : String} {path : List Nat} (h : tree.defined? x path = some target) :
    path = [] ∧ target = [] ∨ ∃ parent k j, path = parent ++ [k] ∧ target = parent ++ [j] := by
  rcases eq_nil_or_concat' path with rfl | ⟨parent, k, rfl⟩
  · cases h
    exact .inl ⟨rfl, rfl⟩
  · rw [defined?, if_neg (by simp), dropLast_concat] at h
    obtain ⟨d, -, hd⟩ := bind_eq_some_iff.mp h
    obtain ⟨j, -, rfl⟩ := map_eq_some_iff.mp hd
    exact .inr ⟨parent, k, j, rfl, rfl⟩

end Decl

/-- What a name stands for that is bound by a declaration of a tree. -/
def Bound.meaning? (tree : Decl) (x : String) : Bound → Option Meaning
  | parameter .. | var _ => some .place
  | function path => (tree.defined? x path).map .function
  | routine => some (.routine x)

/-- What a name stands for in the functions around a place. -/
def meaning? (tree : Decl) (levels : List Enclosing) (x : String) : Option Meaning :=
  (binding? tree.name x levels).bind fun found => found.2.meaning? tree x

namespace Enclosing

variable {path : List Nat} {parameters : List String} {locals : List Decl} {x : String}

/-- In front of its local declarations a function binds its parameters. -/
theorem bound?_zero : bound? ⟨path, parameters, locals, 0⟩ x =
    (parameters.idxOf? x).map (.parameter path) := rfl

/-- One more local declaration is seen. -/
theorem bound?_succ (seen : Nat) : bound? ⟨path, parameters, locals, seen + 1⟩ x =
    (locals[seen]?.bind (Decl.bound? x (path ++ [seen]))).or
      (bound? ⟨path, parameters, locals, seen⟩ x) := by
  have hlocal : local? ⟨path, parameters, locals, seen + 1⟩ x =
      local? ⟨path, parameters, locals, seen⟩ x := rfl
  have hlast : locals[seen]?.bind (Decl.bound? x (path ++ [seen])) =
      local? ⟨path, parameters, locals, seen⟩ x seen := rfl
  rw [bound?, bound?, hlocal, hlast, range_succ, reverse_append, reverse_singleton,
    singleton_append, findSome?_cons]
  cases local? ⟨path, parameters, locals, seen⟩ x seen <;> rfl

/-- A function that is bound is one of the local declarations. -/
theorem bound?_function {l : Enclosing} (h : l.bound? x = some (.function target)) :
    ∃ k, target = l.path ++ [k] := by
  rcases or_eq_some_iff.mp h with h | ⟨-, h⟩
  · obtain ⟨k, -, hk⟩ := exists_of_findSome?_eq_some h
    obtain ⟨d, -, hd⟩ := bind_eq_some_iff.mp hk
    refine ⟨k, ?_⟩
    cases d with
    | vars names ty extents =>
      rw [Decl.bound?] at hd
      split at hd <;> cases hd
    | forward header =>
      rw [Decl.bound?] at hd
      split at hd <;> cases hd
      rfl
    | function header locals body =>
      rw [Decl.bound?] at hd
      split at hd <;> cases hd
      rfl
    | missing n => cases hd
  · obtain ⟨j, -, hj⟩ := map_eq_some_iff.mp h
    cases hj

end Enclosing

section Binding

variable {program x : String} {levels : List Enclosing} {k : Nat}

theorem binding?_cons (program x : String) (level : Enclosing) (outer : List Enclosing) :
    binding? program x (level :: outer) = ((level.bound? x).map (0, ·)).or
      ((binding? program x outer).map fun (k, b) => (k + 1, b)) := rfl

/-- A function is declared in the function where the search ends, or it is the program,
for which all functions are left behind. -/
theorem binding?_function (h : binding? program x levels = some (k, .function target)) :
    (k = levels.length ∧ target = []) ∨
      ∃ level j, levels[k]? = some level ∧ target = level.path ++ [j] := by
  induction levels generalizing k with
  | nil =>
    rw [binding?, outermostBinding?] at h
    split at h
    · cases h
      exact .inl ⟨rfl, rfl⟩
    · split at h <;> cases h
  | cons level outer ih =>
    rcases or_eq_some_iff.mp h with h | ⟨-, h⟩
    · obtain ⟨b, hb, heq⟩ := map_eq_some_iff.mp h
      cases heq
      obtain ⟨j, hj⟩ := bound?_function hb
      exact .inr ⟨level, j, rfl, hj⟩
    · obtain ⟨⟨n, b⟩, hb, heq⟩ := map_eq_some_iff.mp h
      cases heq
      rcases ih hb with ⟨rfl, rfl⟩ | ⟨level', j, hlevel, hj⟩
      · exact .inl ⟨rfl, rfl⟩
      · exact .inr ⟨level', j, hlevel, hj⟩

end Binding

/-! ### Paths of the functions around a body -/

namespace Decl

theorem inits_append_singleton (path : List Nat) (k : Nat) :
    (path ++ [k]).inits.reverse = (path ++ [k]) :: path.inits.reverse := by
  rw [inits_append, reverse_append]
  simp

mutual

/-- The functions around a body have the paths in front of its own. -/
theorem paths_of_mem_definitions : ∀ (d : Decl) {outer : List Enclosing} {path : List Nat},
    path :: outer.map Enclosing.path = path.inits.reverse →
      ∀ e ∈ definitions outer path d, e.levels.map Enclosing.path = e.path.inits.reverse
  | function header locals body, outer, path, h, e, he => by
    rw [definitions] at he
    rcases mem_append.mp he with he | he
    · have hlevel : ∀ n, (mk path header.parameterNames locals n).path = path :=
        fun _ => rfl
      exact paths_of_mem_definitionsFrom locals hlevel h e he
    · obtain rfl := mem_singleton.mp he
      exact h
  | forward _, _, _, _, _, he | vars .., _, _, _, _, he | missing _, _, _, _, _, he => by
    simp [definitions] at he

theorem paths_of_mem_definitionsFrom : ∀ (ds : List Decl) {level : Nat → Enclosing}
    {outer : List Enclosing} {path : List Nat} {k : Nat}, (∀ n, (level n).path = path) →
      path :: outer.map Enclosing.path = path.inits.reverse →
        ∀ e ∈ definitionsFrom level outer path k ds,
          e.levels.map Enclosing.path = e.path.inits.reverse
  | [], _, _, _, _, _, _, _, he => by simp [definitionsFrom] at he
  | d :: ds, level, outer, path, k, hlevel, h, e, he => by
    rw [definitionsFrom] at he
    rcases mem_append.mp he with he | he
    · refine paths_of_mem_definitions d ?_ e he
      rw [map_cons, hlevel, h, inits_append_singleton]
    · exact paths_of_mem_definitionsFrom ds hlevel h e he

end

/-- The function a number of levels around a body has the path without as many of its last
positions. -/
theorem path_level (he : e ∈ tree.definitions [] []) {level : Enclosing}
    (hlevel : e.levels[k]? = some level) :
    k ≤ e.path.length ∧ level.path = e.path.take (e.path.length - k) := by
  have hpaths := @paths_of_mem_definitions tree [] [] rfl e he
  have hk : e.path.inits.reverse[k]? = some level.path := by
    rw [← hpaths, getElem?_map, hlevel]
    rfl
  obtain ⟨hlt, hget⟩ := List.getElem?_eq_some_iff.mp hk
  rw [length_reverse, length_inits] at hlt
  refine ⟨Nat.le_of_lt_succ hlt, ?_⟩
  rw [← hget, getElem_reverse, getElem_inits]
  congr 1
  rw [length_inits]
  omega

/-- There is one function more around a body than its path is long. -/
theorem length_levels (he : e ∈ tree.definitions [] []) : e.levels.length = e.path.length + 1 := by
  have hpaths := congrArg List.length
    (@paths_of_mem_definitions tree [] [] rfl e he)
  rwa [length_map, length_reverse, length_inits] at hpaths

end Decl

/-! ### Expressions that are computed -/

namespace Expr

mutual

/-- The expressions that are computed in an expression or a condition. One in parentheses
is computed as the one inside. -/
def values : Expr → List Expr
  | index l base first more =>
      index l base first more :: (base.values ++ (first.values ++ valuesAll more))
  | call l f arguments => call l f arguments :: valuesAll arguments
  | arith l operator left right => arith l operator left right :: (left.values ++ right.values)
  | sign l s e => sign l s e :: e.values
  | group _ e | not _ e => e.values
  | compare _ _ left right | logic _ _ left right => left.values ++ right.values
  | name l x => [name l x]
  | int l value => [int l value]
  | char l byte => [char l byte]
  | string l s => [string l s]
  | missing _ => []

/-- The expressions that are computed in expressions. -/
def valuesAll : List Expr → List Expr
  | [] => []
  | e :: es => e.values ++ valuesAll es

end

theorem flatMap_values (es : List Expr) : es.flatMap values = valuesAll es := by
  induction es with
  | nil => rfl
  | cons e es ih => rw [flatMap_cons, valuesAll, ih]

/-- The name that is used as a variable. -/
def name? : Expr → Option String
  | name _ x => some x
  | _ => none

end Expr

namespace Stmt

mutual

/-- The expressions that are computed in a statement. A call that stands as a statement has
no value. -/
def values : Stmt → List Expr
  | assign _ target value => target.values ++ value.values
  | call e => e.values.tail
  | block body => valuesAll body
  | ifThen c body | whileDo c body => c.values ++ body.values
  | ifElse c body otherwise => c.values ++ (body.values ++ otherwise.values)
  | returnValue _ value => value.values
  | empty | returnNothing _ | missing _ => []

/-- The expressions that are computed in statements. -/
def valuesAll : List Stmt → List Expr
  | [] => []
  | s :: ss => s.values ++ valuesAll ss

end

theorem flatMap_values (ss : List Stmt) : ss.flatMap values = valuesAll ss := by
  induction ss with
  | nil => rfl
  | cons s ss ih => rw [flatMap_cons, valuesAll, ih]

/-- The names that are used as variables in statements. -/
def namedAll (ss : List Stmt) : List String := (valuesAll ss).filterMap Expr.name?

end Stmt

end BlockLang
