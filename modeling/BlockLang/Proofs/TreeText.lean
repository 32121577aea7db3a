import BlockLang.Proofs.Compile
import BlockLang.Proofs.Grammar.Legible
import BlockLang.Proofs.Program.Erasure
import BlockLang.Proofs.Tree.Reading

/-!
# The text of a tree determines its code

The text of a tree shows neither where its parts stand nor which names are declared together.
All else can be told from it, and the code depends on nothing more: two texts whose trees look
the same compile to the same, or fail for the same reason.
-/

namespace BlockLang

/-- Two texts whose trees have the same text compile to the same quads, blocks and assembly, or
both fail with errors of the same kind and the same details, but for locations. -/
theorem compile_same_of_text_eq {source source' : String} {lexemes lexemes' : List Lexeme}
    {tree tree' : Decl} (hscan : Token.scan source = .ok lexemes)
    (hread : (Decl.read lexemes).1 = .ok tree) (hscan' : Token.scan source' = .ok lexemes')
    (hread' : (Decl.read lexemes').1 = .ok tree')
    (htext : programText (some tree) = programText (some tree')) :
    (∃ c, (compile source).1 = .ok c ∧ (compile source').1 = .ok c) ∨
      ∃ e e', (compile source).1 = .error e ∧ (compile source').1 = .error e' ∧
        e.erase = e'.erase := by
  have hlegible := Decl.legible_of_read hscan hread
  have hlegible' := Decl.legible_of_read hscan' hread'
  have hparts := Decl.parts_eq_of_text_eq hlegible hlegible' htext
  have hresults := compileTree_congr (Decl.isProper_of_read hread).1
    (Decl.isProper_of_read hread').1 hparts htext
  rw [compile_eq_compileTree hscan hread, compile_eq_compileTree hscan' hread']
  cases hc : (compileTree tree).1 with
  | ok c =>
    cases hc' : (compileTree tree').1 with
    | ok c' =>
      rw [hc, hc'] at hresults
      cases hresults
      exact .inl ⟨c, rfl, rfl⟩
    | error e' =>
      rw [hc, hc'] at hresults
      cases hresults
  | error e =>
    cases hc' : (compileTree tree').1 with
    | ok c' =>
      rw [hc, hc'] at hresults
      cases hresults
    | error e' =>
      rw [hc, hc'] at hresults
      exact .inr ⟨e, e', rfl, rfl, Except.error.inj hresults⟩

def namesTogether : String :=
  "function main(): nothing; var i, j: char;
function last(a, b: char): char; begin return b; end
begin j := last(i, 'x'); end"

/-- The same program with each name declared by itself, a comment and other blanks. -/
def namesApart : String :=
  "function main ( ) : nothing ;
  var i : char ; // no longer together
  var j : char ;
  function last ( a : char ; b : char ) : char ; begin return b ; end ;
begin j := last ( i , '\\x78' ) ; end"

theorem compile_same_of_text_eq_namesTogether : ∃ lexemes lexemes' tree tree',
    Token.scan namesTogether = .ok lexemes ∧ (Decl.read lexemes).1 = .ok tree ∧
    Token.scan namesApart = .ok lexemes' ∧ (Decl.read lexemes').1 = .ok tree' ∧
    lexemes.length < lexemes'.length ∧ programText (some tree) = programText (some tree') ∧
    ∃ c, (compile namesTogether).1 = .ok c ∧ (compile namesApart).1 = .ok c := by
  have hknown : (Token.scan namesTogether).toOption.any (fun lexemes =>
      (Decl.read lexemes).1.toOption.any fun tree =>
      (Token.scan namesApart).toOption.any fun lexemes' =>
      (Decl.read lexemes').1.toOption.any fun tree' => lexemes.length < lexemes'.length ∧
        programText (some tree) = programText (some tree') ∧
        (compileTree tree).1.toOption.isSome) = true := by
    decide +kernel
  obtain ⟨lexemes, hscan, hread⟩ := exists_of_any hknown
  obtain ⟨tree, hread, hscan'⟩ := exists_of_any hread
  obtain ⟨lexemes', hscan', hread'⟩ := exists_of_any hscan'
  obtain ⟨tree', hread', hfacts⟩ := exists_of_any hread'
  obtain ⟨hlength, htext, hsome⟩ := of_decide_eq_true hfacts
  refine ⟨lexemes, lexemes', tree, tree', hscan, hread, hscan', hread', hlength, htext, ?_⟩
  obtain hc | ⟨e, e', he, -⟩ := compile_same_of_text_eq hscan hread hscan' hread' htext
  · exact hc
  · rw [← compile_eq_compileTree hscan hread, he] at hsome
    cases hsome

end BlockLang
