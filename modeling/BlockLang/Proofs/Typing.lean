import BlockLang.Proofs.Linking

/-!
# Types agree between translation and lowering

When a function is lowered, the type of an operand is looked up again, and it agrees with the shape
that translation gave. So arithmetic is done on integers, what is compared, assigned, passed or
returned has the type that is expected there, and a function returns values exactly if it has a
result.
-/

namespace BlockLang

open Emit List

namespace FunctionSite

/-- Lowering finds a type for an operand. -/
def Types (site : FunctionSite) (o : Operand) (ty : Ty) : Prop :=
  ∀ a, Lower.typeOf site o a = .ok ty a

end FunctionSite

/-- Translation and lowering agree on the types in a function. -/
structure CompiledFunction.WellTyped (r : CompiledFunction) : Prop where
  /-- The expressions of the body are computed on the way to the code of the function. -/
  visited : ∀ e ∈ Stmt.valuesAll r.body, ∃ p c p', p.env = r.opened.env ∧
    expression e p = .ok c p' ∧ p'.code.Extends r.closed.code
  /-- What a scalar expression was computed to has its type when the function is lowered. -/
  computed : ∀ e p c p', p.env = r.opened.env → expression e p = .ok c p' →
    p'.code.Extends r.closed.code → c.shape.extents = [] →
      r.site.Types c.operand c.shape.ty ∧ (c.shape.ty = .int ∨ c.shape.ty = .char)
  quads : ∀ i q, r.first ≤ i → r.closed.code.quads[i]? = some q →
    q.TypedAt r.site.Types r.site.env r.function.result r.closed.code i
  /-- A result is given exactly if the function has one. -/
  returns : r.closed.code.Returns r.first ↔ r.function.result ≠ .nothing

/-! ### The types of declarations -/

theorem Header.IsTyped.parameters {header : Header} (h : header.IsTyped) {isDefined : Bool}
    {f : FunctionDecl} (hf : header.signature isDefined = .ok f) :
    ∀ q ∈ f.parameters, q.ty ≠ .nothing := by
  intro q hq
  obtain ⟨group, hmem, hty, -⟩ := exists_group hf hq
  rw [hty]
  exact h group hmem

namespace Compiles

variable {tree : Decl} {p : Progress} {rs : List CompiledFunction} {r : CompiledFunction}

/-- The names in a body stand for values. -/
theorem typed_env (h : Compiles tree p rs) (htext : tree.InText) (htyped : tree.IsTyped)
    (hr : r ∈ rs) : r.opened.env.Typed where
  values x b ty hb hty := by
    obtain ⟨bound, hintroduces⟩ := h.exists_introduces htext hr hb
    cases hintroduces with
    | parameter hat hf hq =>
      cases hty
      exact (htyped.of_subtree? hat).1.parameters hf _ (mem_of_getElem? hq)
    | var hat =>
      cases hty
      exact htyped.of_subtree? hat
    | function => cases hty
    | routine => cases hty
  scalars := (h.settled r hr).env.scalars

/-- Leading the jumps that a body has left pending to the end of the function continues its
code. -/
theorem patch_continues (h : Compiles tree p rs) (hr : r ∈ rs) : r.translated.code.Continues
    (r.translated.code.patch r.pending r.translated.code.next) := by
  obtain ⟨p', hcloses⟩ := h.closes r hr
  have hemits := statements_emits r.function.name r.function.result r.body (Nat.zero_le _)
    (.refl 0 _) hcloses.statements
  exact hemits.grows.continues_patch (List.Subset.refl _) r.translated.code.next

/-- The values in a body are computed one after the other while the function is closed. -/
theorem types (h : Compiles tree p rs) (hr : r ∈ rs) :
    r.opened.Types r.function.result r.closed (Stmt.valuesAll r.body) := by
  obtain ⟨p', hcloses⟩ := h.closes r hr
  have hbody := statements_types _ _ r.body (.refl 0 _) hcloses.statements
  -- the start and the end of the function stand around the quads of its body
  have hstart : r.opened.Types r.function.result (r.opened.appended (.start r.label)) [] :=
    (Progress.Types.refl _ _).append fun _ => trivial
  exact ((hstart.trans hbody).continued (h.patch_continues hr) (Code.next_patch _)).append
    fun _ => trivial

theorem wellTyped (h : Compiles tree p rs) (htext : tree.InText) (htyped : tree.IsTyped)
    (hr : r ∈ rs) : r.WellTyped := by
  obtain ⟨p', hcloses⟩ := h.closes r hr
  have henv := h.typed_env htext htyped hr
  have hpatch := h.patch_continues hr
  have hclosed := h.types hr
  have htypes : ∀ o ty, o.HasType r.opened.env r.closed.code ty → r.site.Types o ty :=
    fun o ty ho a => by
      have hsite : o.HasType r.site.env r.site.code ty := ho
      exact hsite.typeOf a
  refine ⟨?_, ?_, ?_, ?_⟩
  · intro e he
    obtain ⟨p1, c, p2, henv, hrun, hcode⟩ := hclosed.visited e he
    exact ⟨p1, c, p2, henv, hrun, hcode.ext⟩
  · intro e q c q' hq hrun hext hextents
    have htyped := (expression_types .nothing e hrun).2 (hq ▸ henv)
    rw [hq] at htyped
    refine ⟨htypes _ _ ((htyped.mono hext).operand hextents), ?_⟩
    have hne := htyped.ty
    cases hty : c.shape.ty with
    | int => exact .inl rfl
    | char => exact .inr rfl
    | nothing => exact absurd hty hne
  · intro i q hi hq
    exact (hclosed.typed henv i q hi hq).mono htypes (.refl _)
  · constructor
    · rintro ⟨i, q, hi, hq, hop, hout⟩ hnothing
      have hquad := hclosed.typed henv i q hi hq
      obtain ⟨op, a, b, o⟩ := q
      cases hop
      cases hout
      obtain ⟨_, _, ty, -, ho, hty, -, hresult⟩ := hquad
      cases ho
      rw [if_pos rfl] at hresult
      exact hty (hresult.trans hnothing)
    · intro hresult
      have hreturns := statements_returns _ _ r.body (.refl 0 _)
        (hcloses.result.resolve_left hresult) hcloses.statements
      refine hreturns.mono (hpatch.trans (.push _ _)) ?_
      rw [Progress.appended_code, Code.next_push]
      exact Nat.le_succ _

end Compiles

/-! ### Texts -/

/-- In the functions of a text that compiles, translation and lowering agree on types, and
the quads are typed. -/
theorem types_agree {source : String} {c : Compilation} (h : (compile source).1 = .ok c) :
    ∃ lexemes tree p rs, Token.scan source = .ok lexemes ∧ (Decl.read lexemes).1 = .ok tree ∧
      Compiles tree p rs ∧ c = p.compilation tree ∧ ∀ r ∈ rs, r.WellTyped := by
  obtain ⟨lexemes, tree, p, rs, hscan, hread, hcompiles, hc⟩ := compiles_of_compile h
  refine ⟨lexemes, tree, p, rs, hscan, hread, hcompiles, hc, fun r hr => ?_⟩
  exact hcompiles.wellTyped (Decl.inText_of_read hscan hread) (Decl.isTyped_of_read hread) hr

/-- A program with a function that counts a character in a text. -/
def countCharacter : String :=
  "function main(): nothing;
var text: char[80];
function count(c: char; ref s: char[]): int;
var i, n: int;
begin
  i := 0; n := 0;
  while i < 80 do begin if s[i] = c then n := n + 1; i := i + 1; end
  return n;
end
begin gets(80, text); puti(count('a', text)); end"

theorem types_agree_countCharacter : ∃ c, (compile countCharacter).1 = .ok c ∧
    ∃ tree p rs, Compiles tree p rs ∧ c = p.compilation tree ∧ ∃ r ∈ rs, r.WellTyped := by
  obtain ⟨c, hc⟩ := exists_eq_ok (compile countCharacter).1 (by decide +kernel)
  obtain ⟨lexemes, tree, p, rs, -, -, hcompiles, heq, htyped⟩ := types_agree hc
  obtain ⟨r, hr⟩ : ∃ r, r ∈ rs := by
    cases hcompiles with
    | @intro r => exact ⟨r, mem_append_right _ (mem_singleton_self r)⟩
  exact ⟨c, hc, tree, p, rs, hcompiles, heq, r, hr, htyped r hr⟩

end BlockLang
