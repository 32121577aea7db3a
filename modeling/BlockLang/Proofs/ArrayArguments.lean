import BlockLang.Proofs.CallProtocol
import BlockLang.Proofs.CallingConvention
import BlockLang.Proofs.RowMajor
import BlockLang.Proofs.RowMajor.Passing

/-!
# Array arguments

An array, a row of an array or a literal that is passed by reference keeps its cells. The call
passes its address. The function that is called computes the numbers of cells from the extents
of its parameter, and comes to the same addresses as the caller, as often as the array is passed
on.
-/

namespace BlockLang

open Emit FunctionDecl Invocation List Machine Stmt

variable {e : Expr} {es : List Expr} {l : Location} {i : Nat} {f x : String}

/-! ### Calls that pass addresses -/

/-- The address that an operand of the running function has. -/
def Invocation.addressOf? (p : Progress) (l : Launch) (rs : List CompiledFunction) (a : Invocation)
    (s : Store) (o : Operand) : Option Word :=
  (a.function.layout rs).address? (s.frames a.base) s l.image p.assembly.strings.toList o

/-- A call passes the addresses of its arguments. Their expressions have been checked. The code
in front of the quads of the call computes them, so that the operands have the addresses of what
the expressions stand for. When the call is run, the parameters of the function that is entered
have the addresses of these operands. -/
structure CompiledFunction.Transmits (p : Progress) (rs : List CompiledFunction)
    (r : CompiledFunction) (first last : Nat) (g : FunctionDecl) (scope : Int) (es : List Expr)
    (as : List Argument) : Prop where
  accepts : r.Accepts g scope es
  computes : ∃ start, ∀ ctx : Context, ctx.env = r.opened.env → ∀ temps s ds s',
    Expr.denoteArguments ctx .late g.parameters es s = .ok (ds, s') →
      ∃ temps', (idle start temps s).Reaches ctx r.closed.code (.idle first temps' s') ∧
        List.Forall₂ (fun (x : Argument) (d : Bool × Denoted) => x.byReference = d.1 ∧
          ∀ shape w, d.2 = .place shape w →
            (idle first temps' s').address? ctx x.value = some w) as ds
  receives : ∀ (l : Launch) (a : Invocation) rest σ (callee : CompiledFunction),
    l.Suits p.assembly.program →
    a.function = r → Scene.Runs l p.assembly.program rs l.opening ⟨a :: rest, ⟨r.line last, σ⟩⟩ →
    callee ∈ rs → callee.label = calleeLabel g scope →
    l.image.floor + 4 * (as.length + 3) + callee.frame.size ≤ (σ.registers .esp).number →
      ∃ n b σ', b.function = callee ∧
        Scene.Leads (Scene.Next l.image p.assembly.program rs) n
          ⟨a :: rest, ⟨r.line last, σ⟩⟩ ⟨b :: a :: rest, ⟨callee.line (callee.first + 1), σ'⟩⟩ ∧
        ∀ (i : Nat) (q : Parameter) (x : Argument), callee.function.parameters[i]? = some q →
          q.byReference → as[i]? = some x →
          ∃ w, a.addressOf? p l rs σ.store x.value = some w ∧
            b.addressOf? p l rs σ'.store (.name q.name) = some w

namespace CompiledFunction.Prepares

variable {tree : Decl} {p : Progress} {rs : List CompiledFunction} {r : CompiledFunction}
  {first : Nat} {g : FunctionDecl} {scope : Int} {es : List Expr} {as : List Argument}
  {destination : Option Nat}

theorem accepts (h : r.Prepares p first g scope es as destination) : r.Accepts g scope es := by
  obtain ⟨p0, p1, henv, hlength, has, -⟩ := h.computed
  exact ⟨h.visible, hlength, p0, as, p1, henv, has⟩

theorem exists_callsAt (h : r.Prepares p first g scope es as destination)
    (hcompiles : Compiles tree p rs) (htext : tree.InText) (htyped : tree.IsTyped) (hr : r ∈ rs) :
    ∃ front tail, r.CallsAt p (first + (as.length + destination.toList.length)) g scope as
      destination front tail := by
  have hfirst := h.first_lt
  obtain ⟨front, tail, hlines⟩ :=
    hcompiles.call_lines htext htyped hr h.toCallsFrom rfl (by omega)
  obtain ⟨p0, p1, henv, hlength, has, -, hcode⟩ := h.computed
  have htypes := hcompiles.typed_env htext htyped hr
  rw [← henv] at htypes
  obtain ⟨-, hsuits⟩ := argumentsOf_suits g g.parameters es htypes hlength has
  rw [henv] at hsuits
  exact ⟨front, tail, hlines, ⟨first, h.toCallsFrom, rfl⟩,
    hsuits.imp fun _ _ hx => hx.mono hcode.ext⟩

end CompiledFunction.Prepares

/-- A parameter that is passed by reference has the address in the cell of its argument. -/
theorem Compiles.addressOf?_parameter {tree : Decl} {p : Progress} {rs : List CompiledFunction}
    (h : Compiles tree p rs) (htext : tree.InText) {b : Invocation} (hr : b.function ∈ rs)
    (l : Launch) (s : Store) {q : Parameter} (hq : b.function.function.parameters[i]? = some q)
    (href : q.byReference) :
    b.addressOf? p l rs s (.name q.name) = some (s.read .int (b.base + .ofNat (12 + 4 * i))) := by
  obtain ⟨hparameters, hfind⟩ := h.find?_parameter htext hr
  have hname := hfind q (mem_of_getElem? hq)
  have hindex := h.findIdx?_parameter htext hr hq
  have hlevels : (b.function.site.layout.levels b.function.opened.env.scope) = 0 := by
    change (b.function.opened.env.scope - b.function.opened.env.scope).toNat = 0
    omega
  have haddress : b.function.site.layout.argumentAddress? (s.frames b.base)
      b.function.opened.env.scope q.name = some (b.base + .ofNat (12 + 4 * i)) := by
    have hown : b.function.site.layout.parameters b.function.opened.env.scope =
        b.function.function.parameters := hparameters
    rw [Layout.argumentAddress?, hown, hindex, hlevels]
    rfl
  unfold addressOf?
  rw [(h.layout_agrees htext hr).address?_eq, Layout.address?, Layout.place?]
  · rw [Layout.named?_param hname, haddress, Option.map_some, if_pos href]
    rfl
  · simp

section Calls

variable {tree : Decl} {p : Progress} {rs : List CompiledFunction} {r : CompiledFunction}
  {first : Nat} {g : FunctionDecl} {scope : Int} {es : List Expr} {as : List Argument}
  {destination : Option Nat}

/-- Calls pass the addresses of their arguments. -/
theorem CompiledFunction.Prepares.transmits (h : r.Prepares p first g scope es as destination)
    (hcompiles : Compiles tree p rs) (htext : tree.InText) (htyped : tree.IsTyped) (hr : r ∈ rs) :
    r.Transmits p rs first (first + (as.length + destination.toList.length)) g scope es as where
  accepts := h.accepts
  computes := by
    obtain ⟨p0, p1, hp0, -, has, rfl, hcode⟩ := h.computed
    refine ⟨p0.code.next, fun ctx henv temps s ds s' hds => ?_⟩
    have hfollows := arguments_follows g g.parameters es has (hp0.trans henv.symm) hcode temps s
    rw [hds] at hfollows
    obtain ⟨_, hreaches, temps', rfl, -, hdenotes⟩ := hfollows
    refine ⟨temps', hreaches, hdenotes.imp fun x d ⟨href, hx⟩ => ⟨href, fun shape w hd => ?_⟩⟩
    rw [hd] at hx
    exact hx.address?
  receives := by
    rintro l a rest σ callee hsuits rfl hruns hcallee hlabel hroom
    obtain ⟨front, tail, hcall⟩ := h.exists_callsAt hcompiles htext htyped hr
    have hlocated := hruns.located hcompiles htext htyped hsuits (.entry (k := 0) (by decide) rfl)
    have hpoised := hlocated.poised_of_line hcompiles hcall.first_lt hcall.lt_last.le (by
      rw [hcall.next_eq]
      omega)
    obtain ⟨depth, hdepth, -⟩ := hcompiles.labelled.2 callee hcallee
    obtain ⟨b, σ', rfl, -, hleads, -, hreceives⟩ :=
      hpoised.enters hcompiles htext hcall hcallee hlabel hdepth htyped hroom
    refine ⟨_, b, σ', rfl, hleads, fun i q x hq href hx => ?_⟩
    obtain ⟨x', hx', hmode, hpassed⟩ := hreceives.argument i q hq
    cases hx.symm.trans hx'
    refine ⟨_, ?_, hcompiles.addressOf?_parameter htext hcallee l σ'.store hq href⟩
    -- an address is found whatever is read
    have hword := hpassed.unchanged fun hvalue => by
      rw [hmode, href] at hvalue
      cases hvalue
    rwa [Argument.word?, hmode, if_pos href] at hword

end Calls

/-! ### Cells through names -/

/-- In a function and its context a name stands for a part of a storage. If it is a parameter,
its type and its extents are those of the part. Index expressions through the name come to the
cells and rows with the same subscripts, and those in range lie inside the part. -/
structure Storage.Reached (A : Storage) (r : CompiledFunction) (ctx : Context) (x : String)
    (js : List Word) : Prop where
  inRange : InRange A.shape.extents js
  within : A.bytes js ⊆ A.bytes []
  place : ctx.place? x = some (A.part js)
  parameter : ∀ q scope, r.opened.env.find? x = some ⟨.param q, scope⟩ →
    q.ty = A.shape.ty ∧ q.extentsWith ((A.rest js).headD 0) = A.rest js
  cells : ∀ l l' first more, Expr.index l' (.name l x) first more ∈ valuesAll r.body →
    ∃ p p1 p' array n, r.Indexes l' (.name l x) first more p p1 p' array n ∧
      ∀ temps s is s', Expr.indices ctx first more s = .ok (is, s') →
        (∃ temps', (idle p.code.next temps s).Reaches ctx r.closed.code
            (.idle p'.code.next temps' s') ∧ temps' n = A.select (js ++ is)) ∧
        (InRange (A.rest js) is → A.bytes (js ++ is) ⊆ A.bytes js)

section Cells

variable {tree : Decl} {p : Progress} {rs : List CompiledFunction} {A : Storage}
  {r : CompiledFunction} {ctx : Context} {l : Location} {x : String} {s : Store} {js : List Word}

/-- The code of an index expression through a name comes to the cell or row of what the name
stands for. -/
theorem Compiles.index_reaches (h : Compiles tree p rs) (hr : r ∈ rs)
    (henv : ctx.env = r.opened.env) (hplace : ctx.place? x = some (A.part js)) {l' : Location}
    {first : Expr} {more : List Expr}
    (he : Expr.index l' (.name l x) first more ∈ valuesAll r.body) :
    ∃ p p1 p' array n, r.Indexes l' (.name l x) first more p p1 p' array n ∧
      ∀ temps s is s', Expr.indices ctx first more s = .ok (is, s') →
        ∃ temps', (idle p.code.next temps s).Reaches ctx r.closed.code
          (.idle p'.code.next temps' s') ∧ temps' n = A.select (js ++ is) := by
  obtain ⟨p0, p1, p', array, n, hindexes, hrun, hn⟩ := h.exists_indexes hr he
  refine ⟨p0, p1, p', array, n, hindexes, fun temps s is s' his => ?_⟩
  obtain ⟨-, i, is', last, offset, temps', ts, rfl, -, hnext, haddresses⟩ :=
    index_addresses hrun hindexes.base (hindexes.env.trans henv.symm) hindexes.code hn temps
      (Expr.denote_name hplace l .late s) his
  rw [hnext]
  refine ⟨_, haddresses.reaches.trans (.single haddresses.address), ?_⟩
  rw [Function.update_self, A.select_append]

/-- Names that stand for a part of a storage reach its cells. -/
theorem Storage.Stands.reached (h : A.Stands rs r ctx (.name l x) s js)
    (hcompiles : Compiles tree p rs) (htext : tree.InText) (hsized : tree.HasSizedParameters) :
    A.Reached r ctx x js := by
  obtain ⟨hr, henv⟩ := h.mem
  obtain ⟨s', hden⟩ := (h.denotes hcompiles htext hsized).denote
  have hplace := Expr.place?_of_denote hden
  refine ⟨h.inRange, bytes_subset h.inRange, hplace, fun q scope hq => ?_,
    fun l l' first more he => ?_⟩
  · rw [← henv] at hq
    rw [Context.place?_param hq] at hplace
    obtain ⟨⟨hty, hextents⟩, -⟩ : (q.ty = A.shape.ty ∧ q.extentsWith (ctx.rows x) = A.rest js) ∧
        ctx.address x = A.select js := by
      simpa [part] using hplace
    rw [← hextents]
    exact ⟨hty, q.extentsWith_headD (ctx.rows x)⟩
  · obtain ⟨p0, p1, p', array, n, hindexes, hreaches⟩ :=
      hcompiles.index_reaches hr henv hplace he
    exact ⟨p0, p1, p', array, n, hindexes, fun temps s is s' his =>
      ⟨hreaches temps s is s' his, bytes_append_subset⟩⟩

end Cells

/-- Array arguments keep their cells. In a text that compiles, a call passes the addresses of the
arguments that it passes by reference. A parameter for which an array, a row of an array or a
literal was passed, directly or over further calls, stands for the cells that were passed:
subscripts select the same cell through the parameter as in the array itself, inside the memory of
what was passed. -/
theorem array_arguments {source : String} {c : Compilation} (h : (compile source).1 = .ok c) :
    ∃ lexemes tree p rs, Token.scan source = .ok lexemes ∧ (Decl.read lexemes).1 = .ok tree ∧
      Emit.program (some tree) {} = .ok () p ∧ c = p.compilation tree ∧ Compiles tree p rs ∧
      (∀ r ∈ rs, ∀ i q, r.first ≤ i → r.closed.code.quads[i]? = some q → q.op = .call →
        ∃ first g scope es as destination, r.Prepares p first g scope es as destination ∧
          i = first + (as.length + destination.toList.length) ∧
          r.Transmits p rs first i g scope es as) ∧
      ∀ A r ctx l x s js, Storage.Stands rs A r ctx (.name l x) s js → A.Reached r ctx x js := by
  obtain ⟨lexemes, tree, p, hscan, hread, hrun, hc⟩ := emitted_of_compile h
  obtain ⟨rs, hcompiles⟩ := Emit.program_compiles hrun
  have htext := Decl.inText_of_read hscan hread
  have htyped := Decl.isTyped_of_read hread
  have hsized := Decl.hasSizedParameters_of_read hread
  refine ⟨lexemes, tree, p, rs, hscan, hread, hrun, hc, hcompiles, ?_, ?_⟩
  · intro r hr i q hi hq hop
    obtain ⟨first, g, scope, es, as, destination, hprepares, rfl⟩ :=
      hcompiles.prepares hr htext htyped hi hq hop
    exact ⟨first, g, scope, es, as, destination, hprepares, rfl,
      hprepares.transmits hcompiles htext htyped hr⟩
  · intro A r ctx l x s js hstands
    exact hstands.reached hcompiles htext hsized

/-! ### An array that is handed on -/

section Callee

variable {tree : Decl} {p : Progress} {rs : List CompiledFunction} {r : CompiledFunction}

theorem Compiles.accepts_of_call (h : Compiles tree p rs) (hr : r ∈ rs)
    (he : Expr.call l f es ∈ valuesAll r.body) :
    ∃ g scope, g.name = f ∧ r.Accepts g scope es := by
  obtain ⟨p1, c, p2, henv, hrun, -⟩ := (h.types hr).visited _ he
  obtain ⟨g, scope, as, p3, hg, has, -⟩ := expression_call_ok hrun
  obtain ⟨-, hfind, hlength, -⟩ := callee_ok hg
  rw [henv] at hfind
  have hname : g.name = f := Environment.name_of_find? hfind
  exact ⟨g, scope, hname, hname ▸ hfind, hlength, p1, as, p3, henv, has⟩

/-- A row or an array that is passed stands for the same part in the function that is called. -/
theorem Storage.Stands.exists_passed {A : Storage} {ctx : Context} {s : Store} {js : List Word}
    (h : A.Stands rs r ctx e s js) (hcompiles : Compiles tree p rs) (htext : tree.InText)
    (hsized : tree.HasSizedParameters) (hne : A.rest js ≠ [])
    (hcall : Expr.call l f es ∈ valuesAll r.body)
    (hstandard : ∀ k ∈ standard, k.name ≠ f) (he : es[i]? = some e) :
    ∃ callee ∈ rs, callee.header.name = f ∧ ∀ q, callee.function.parameters[i]? = some q →
      q.byReference → ∃ ctx', ∀ l' s', A.Stands rs callee ctx' (.name l' q.name) s' js := by
  obtain ⟨g, scope, rfl, haccepts⟩ := hcompiles.accepts_of_call h.mem.1 hcall
  obtain ⟨callee, hcallee, hlabel, hname⟩ :=
    hcompiles.exists_callee htext h.mem.1 haccepts.visible hstandard
  obtain ⟨s1, hd⟩ := (h.denotes hcompiles htext hsized).denote
  refine ⟨callee, hcallee, hname, fun q hq href => ?_⟩
  refine ⟨⟨callee.opened.env, fun _ => A.select js, fun _ => (A.rest js).headD 0, ctx.literal,
    ctx.call⟩, fun l' s' => .passed h haccepts hcallee hlabel he hq href hd rfl ⟨rfl, fun _ => ?_⟩⟩
  obtain ⟨n, ns, hrest⟩ := exists_cons_of_ne_nil hne
  change (A.rest js).head? = some ((A.rest js).headD 0)
  rw [hrest]
  rfl

end Callee

/-- A program that passes a row to a function, which passes it to itself. -/
def handedOn : String :=
  "function main(): nothing;
var a: int[3][2];
function last(ref row: int[]; n: int): int;
begin if n = 0 then return row[1]; return last(row, n - 1); end
begin a[0][0] := last(a[2], 5); end"

def isUseOf (x : String) : Expr → Bool
  | .name _ y => y = x
  | _ => false

def isRowOf (x : String) (i : Word) : Expr → Bool
  | .index _ (.name _ y) (.int _ j) [] => y = x ∧ j = i
  | _ => false

/-- A call of its function, with an array as the first argument. -/
def isCallWith (isArgument : Expr → Bool) : Expr → Bool
  | .call _ f (e :: _) => f = "last" ∧ isArgument e
  | _ => false

def isGrid : Decl → Bool
  | .vars _ .int [3, 2] => true
  | _ => false

/-- Its function passes on the row, and selects a cell of it. -/
def handsOn (d : Definition) : Bool :=
  (d.header.signature true).toOption.any (fun f =>
    f.parameters.head?.any fun q => q.name = "row" ∧ q.byReference) ∧
  (valuesAll d.body).any (isCallWith (isUseOf "row")) ∧
  (valuesAll d.body).any (isRowOf "row" 1)

theorem eq_of_isGrid {names : List DeclaredName} {ty : Ty} {extents : List Nat}
    (h : isGrid (.vars names ty extents)) : ty = .int ∧ extents = [3, 2] := by
  unfold isGrid at h
  split at h
  · next heq =>
    cases heq
    exact ⟨rfl, rfl⟩
  · cases h

theorem exists_of_isRowOf {i : Word} (h : isRowOf x i e) :
    ∃ l l0 l1, e = .index l (.name l0 x) (.int l1 i) [] := by
  unfold isRowOf at h
  split at h
  · obtain ⟨rfl, rfl⟩ := of_decide_eq_true h
    exact ⟨_, _, _, rfl⟩
  · cases h

theorem exists_of_isCallWith {isArgument : Expr → Bool} (h : isCallWith isArgument e) :
    ∃ l argument es, e = .call l "last" (argument :: es) ∧ isArgument argument := by
  unfold isCallWith at h
  split at h
  · obtain ⟨rfl, hargument⟩ := of_decide_eq_true h
    exact ⟨_, _, _, rfl, hargument⟩
  · cases h

theorem exists_of_isUseOf (h : isUseOf x e) : ∃ l, e = .name l x := by
  unfold isUseOf at h
  split at h
  · obtain rfl := of_decide_eq_true h
    exact ⟨_, rfl⟩
  · cases h

theorem array_arguments_handedOn : ∃ c, (compile handedOn).1 = .ok c ∧
    ∃ tree p rs, Compiles tree p rs ∧ c = p.compilation tree ∧ ∃ r ∈ rs, ∃ A ctx l s,
      Storage.Stands rs A r ctx (.name l "row") s [2] ∧ A.shape = ⟨.int, [3, 2]⟩ ∧
      A.Reached r ctx "row" [2] ∧ ∃ p p' n temps, (Machine.idle p (fun _ => 0) s).Reaches ctx
        r.closed.code (.idle p' temps s) ∧ temps n = A.address + 20 := by
  have hknown : (treeOf? handedOn).any (fun tree => (progress? tree).any fun _ =>
      (tree.definitions [] []).any (fun d =>
        (Stmt.valuesAll d.body).any (isCallWith (isRowOf "a" 2)) ∧ "a" ∈ Stmt.namedAll d.body ∧
          binding? tree.name "a" d.levels = some (0, .var [0]) ∧ (tree.subtree? [0]).any isGrid) ∧
      (tree.definitions [] []).all fun d => d.header.name = "last" → handsOn d) = true := by
    decide +kernel
  obtain ⟨c, hc⟩ := exists_compilation hknown
  obtain ⟨lexemes, tree, p, rs, hscan, hread, -, heq, hcompiles, -, hreached⟩ := array_arguments hc
  simp only [treeOf?_eq hscan hread, Option.any_some, Option.any_eq_true, any_eq_true,
    all_eq_true, decide_eq_true_eq] at hknown
  obtain ⟨-, -, ⟨d, hd, ⟨e, he, hcall⟩, ha, hbinding, _, hfound, hgrid⟩, hlast⟩ := hknown
  have htext := Decl.inText_of_read hscan hread
  have hsized := Decl.hasSizedParameters_of_read hread
  have hstandard : ∀ k ∈ FunctionDecl.standard, k.name ≠ "last" := by decide
  -- the function of that name passes on its row and selects a cell of it
  have hfunction : ∀ r ∈ rs, r.header.name = "last" →
      (∃ q, r.function.parameters[0]? = some q ∧ q.name = "row" ∧ q.byReference) ∧
      (∃ l l₀ es, Expr.call l "last" (.name l₀ "row" :: es) ∈ Stmt.valuesAll r.body) ∧
      ∃ l l₀ l₁, Expr.index l (.name l₀ "row") (.int l₁ 1) [] ∈ Stmt.valuesAll r.body := by
    intro r hr hname
    obtain ⟨d, hd, hrealized⟩ := hcompiles.exists_definition htext hr
    have hhands := hlast d hd (by rw [hrealized.header, hname])
    obtain ⟨p', hcloses⟩ := hcompiles.closes _ hr
    unfold handsOn at hhands
    rw [hrealized.header, hrealized.body, hcloses.header] at hhands
    simp only [Except.toOption, Option.any_some, Option.any_eq_true, any_eq_true,
      decide_eq_true_eq] at hhands
    obtain ⟨⟨q, hq, hrow, href⟩, ⟨e, he, hcall⟩, e', he', hindex⟩ := hhands
    obtain ⟨l, argument, es, rfl, hargument⟩ := exists_of_isCallWith hcall
    obtain ⟨l₀, rfl⟩ := exists_of_isUseOf hargument
    obtain ⟨l', l₀', l₁, rfl⟩ := exists_of_isRowOf hindex
    exact ⟨⟨q, by rwa [← head?_eq_getElem?], hrow, href⟩, ⟨l, l₀, es, he⟩, l', l₀', l₁, he'⟩
  obtain ⟨r, hr, hbody, _, _, _, _, -, _, hat, hfind, -⟩ :=
    hcompiles.exists_variable htext hd ha hbinding
  rw [hbody] at he
  cases hat.symm.trans hfound
  obtain ⟨rfl, rfl⟩ := eq_of_isGrid hgrid
  obtain ⟨l, argument, es, rfl, hargument⟩ := exists_of_isCallWith hcall
  obtain ⟨l₀, l₁, l₂, rfl⟩ := exists_of_isRowOf hargument
  -- the array is put at the address zero, and its last row is passed
  let ctx : Context := ⟨r.opened.env, fun _ => 0, fun _ => 0, fun _ => 0, fun _ _ _ => none⟩
  let A : Storage := ⟨⟨.int, [3, 2]⟩, 0⟩
  let s : Store := fun _ => 0
  have harray : A.Stands rs r ctx (.name l₁ "a") s [] := .declared hr rfl hfind rfl
  obtain ⟨s₁, hden⟩ := (harray.denotes hcompiles htext hsized).denote
  have hrow : A.Stands rs r ctx (.index l₀ (.name l₁ "a") (.int l₂ 2) []) s ([] ++ [2]) :=
    .row harray hden rfl ⟨by decide, by decide, trivial⟩
  obtain ⟨callee, hcallee, hname', hpassed⟩ :=
    hrow.exists_passed hcompiles htext hsized (by decide) he hstandard (i := 0) rfl
  obtain ⟨⟨q, hq, hqname, href⟩, ⟨l₃, l₄, es', hagain⟩, -⟩ := hfunction callee hcallee hname'
  obtain ⟨ctx₁, hstands₁⟩ := hpassed q hq href
  rw [hqname] at hstands₁
  -- the function passes the row to itself
  obtain ⟨callee', hcallee', hname'', hpassed'⟩ :=
    (hstands₁ l₄ s).exists_passed hcompiles htext hsized (by decide) hagain hstandard (i := 0) rfl
  obtain ⟨⟨q', hq', hqname', href'⟩, -, l₅, l₆, l₇, hindex⟩ := hfunction callee' hcallee' hname''
  obtain ⟨ctx₂, hstands₂⟩ := hpassed' q' hq' href'
  rw [hqname'] at hstands₂
  have hcells := hreached A callee' ctx₂ l₆ "row" s [2] (hstands₂ l₆ s)
  obtain ⟨p₀, p₁, p', array, n, -, hreaches⟩ := hcells.cells l₆ l₅ _ _ hindex
  obtain ⟨⟨temps, hrun, htemps⟩, -⟩ := hreaches (fun _ => 0) s [1] s rfl
  exact ⟨c, hc, tree, p, rs, hcompiles, heq, callee', hcallee', A, ctx₂, l₆, s, hstands₂ l₆ s, rfl,
    hcells, _, _, n, temps, hrun, htemps⟩

end BlockLang
