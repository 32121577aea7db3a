import BlockLang.Proofs.Grammar.Sound
import BlockLang.Proofs.Token.Spelling
import BlockLang.Proofs.Tree.Binding

/-!
# The trees of programs are legible

The names among the lexemes of a text are words and stand in the text. A phrase takes its names
and locations from its lexemes, so its tree is legible, and its functions stand in the text.
-/

namespace BlockLang

open Decl Grammar List

/-- A lexeme that stands in the text and is a word if it is a name. -/
def Lexeme.Legible (x : Lexeme) : Prop :=
  (∀ s, x.token = .name s → IsWord s) ∧ x.location ≠ .standardLibrary

/-! ### Lexemes of a text -/

namespace Token

/-- The names that are spelled are words. -/
theorem Spells.isWord {cs rest : List Char} {t : Token} (h : Spells cs (some t) rest) :
    ∀ s, t = .name s → IsWord s := by
  cases h with
  | @name c cs _ hc hcs =>
    intro s hs
    cases hs
    rw [IsWord, String.toList_ofList]
    refine ⟨cons_ne_nil _ _, forall_mem_cons.mpr ⟨?_, hcs⟩⟩
    simp [isWordRest, Char.isAlphanum, hc]
  | _ =>
    intro s hs
    cases hs

theorem legible_of_scanFrom (s : Scanner) (cs : List Char) :
    ∀ lexemes, scanFrom s cs = .ok lexemes → ∀ x ∈ lexemes, x.Legible := by
  fun_induction scanFrom s cs with
  | case1 =>
    intro lexemes h
    cases h
    exact forall_mem_singleton.mpr ⟨nofun, nofun⟩
  | case2 => nofun
  | case3 s₀ c more s₁ start location token? n s htake ih =>
    intro lexemes h
    cases hrest : scanFrom s (more.drop n) with
    | error e => rw [hrest] at h; cases h
    | ok rest =>
      rw [hrest] at h
      cases token? with
      | none =>
        cases h
        exact ih _ hrest
      | some token =>
        cases h
        exact forall_mem_cons.mpr ⟨⟨(spells_of_take htake).isWord, nofun⟩, ih rest hrest⟩

theorem legible_of_scan {source : String} {lexemes : List Lexeme}
    (h : scan source = .ok lexemes) : ∀ x ∈ closed lexemes, x.Legible := by
  have hlexemes := legible_of_scanFrom _ _ lexemes h
  unfold closed
  split
  · exact forall_mem_singleton.mpr ⟨nofun, nofun⟩
  · next last hlast =>
    split
    · exact hlexemes
    · have hend := (hlexemes last (mem_of_getLast? hlast)).2
      exact forall_mem_append.mpr
        ⟨hlexemes, forall_mem_singleton.mpr ⟨nofun, hend⟩⟩

end Token

namespace Grammar

theorem respected_legible :
    Respected Lexeme.Legible Expr.Legible Expr.Legible Stmt.Legible where
  int _ _ := trivial
  char _ _ := trivial
  string _ _ := trivial
  name hname := hname.1 _ rfl
  index hbase h hfirst hmore := ⟨hbase, h, hfirst, Expr.allLegible_iff.mpr hmore⟩
  call hname hes := ⟨hname.1 _ rfl, Expr.allLegible_iff.mpr hes⟩
  group h := h
  arith ha hb := ⟨ha, hb⟩
  sign h := h
  compare ha hb := ⟨ha, hb⟩
  grouped h := h
  logic ha hb := ⟨ha, hb⟩
  not h := h
  empty := trivial
  assign ha hb := ⟨ha, hb⟩
  called h := ⟨⟨_, _, _, rfl⟩, h⟩
  block h := Stmt.allLegible_iff.mpr h
  ifThen hc hs := ⟨hc, hs⟩
  ifElse hc hs hs' := ⟨hc, hs, hs'⟩
  whileDo hc hs := ⟨hc, hs⟩
  returnValue h := h
  returnNothing _ := trivial

theorem DeclaredHeader.legible {header : Header} (h : DeclaredHeader Lexeme.Legible header) :
    header.Legible :=
  ⟨h.name.1 _ rfl, h.name.2, fun g hg x hx =>
    ⟨((h.group g hg).name x hx).1 _ rfl, ((h.group g hg).name x hx).2⟩⟩

theorem respectedDeclarations_legible :
    RespectedDeclarations Lexeme.Legible Stmt.Legible Legible where
  vars h := ⟨h.ne_nil, fun x hx => ⟨(h.name x hx).1 _ rfl, (h.name x hx).2⟩⟩
  forward h := h.legible
  function h hlocals hbody :=
    ⟨h.legible, allLegible_iff.mpr hlocals, Stmt.allLegible_iff.mpr hbody⟩

theorem respectedDeclarations_inText :
    RespectedDeclarations Lexeme.Legible (fun _ => True) InText where
  vars _ := trivial
  forward h := h.name.2
  function h hlocals _ := ⟨h.name.2, allInText_iff.mpr hlocals⟩

end Grammar

section

variable {source : String} {lexemes : List Lexeme} {tree : Decl}
  (hscan : Token.scan source = .ok lexemes) (h : (read lexemes).1 = .ok tree)

include hscan h

/-- A tree that has been read from a text is legible. -/
theorem Decl.legible_of_read : tree.Legible :=
  respectedDeclarations_legible.of_read respected_legible.statement
    (Token.legible_of_scan hscan) h

/-- The functions of a tree that has been read from a text stand in it. -/
theorem Decl.inText_of_read : tree.InText :=
  respectedDeclarations_inText.of_read (fun _ _ _ _ _ => trivial)
    (Token.legible_of_scan hscan) h

end

/-! ### Types in declarations -/

/-- All parameters hold values. -/
def Header.IsTyped (header : Header) : Prop := ∀ g ∈ header.groups, g.ty ≠ .nothing

namespace Decl

mutual

/-- All variables and parameters hold values. -/
def IsTyped : Decl → Prop
  | function header locals _ => header.IsTyped ∧ AreTyped locals
  | forward header => header.IsTyped
  | vars _ ty _ => ty ≠ .nothing
  | missing _ => True

/-- All variables and parameters in declarations hold values. -/
def AreTyped : List Decl → Prop
  | [] => True
  | d :: ds => d.IsTyped ∧ AreTyped ds

end

theorem areTyped_iff {ds : List Decl} : AreTyped ds ↔ ∀ d ∈ ds, d.IsTyped := by
  induction ds with
  | nil => simp [AreTyped]
  | cons d ds ih => simp [AreTyped, ih]

theorem IsTyped.of_subtree? {path : List Nat} {d e : Decl} (h : d.IsTyped)
    (he : d.subtree? path = some e) : e.IsTyped := by
  induction path generalizing d with
  | nil =>
    cases he
    exact h
  | cons k path ih =>
    cases d with
    | function header locals body =>
      obtain ⟨d', hd', he⟩ := Option.bind_eq_some_iff.mp he
      exact ih (areTyped_iff.mp h.2 d' (List.mem_of_getElem? hd')) he
    | forward header => cases he
    | vars names ty extents => cases he
    | missing n => cases he

end Decl

theorem Grammar.respectedDeclarations_typed :
    Grammar.RespectedDeclarations (fun _ => True) (fun _ => True) IsTyped where
  vars h := h.ty
  forward h := fun g hg => (h.group g hg).ty
  function h hlocals _ := ⟨fun g hg => (h.group g hg).ty, areTyped_iff.mpr hlocals⟩

/-- The variables and parameters of a tree that has been read hold values. -/
theorem Decl.isTyped_of_read {lexemes : List Lexeme} {tree : Decl}
    (h : (read lexemes).1 = .ok tree) : tree.IsTyped :=
  Grammar.respectedDeclarations_typed.of_read (fun _ _ _ _ _ => trivial) (fun _ _ => trivial) h

end BlockLang
