import BlockLang.Proofs.Program.Extent
import BlockLang.Proofs.RowMajor.Storage
import BlockLang.Proofs.SlotAgreement

/-!
# Arrays that are passed on

The function to which an array, a row of it or a literal is passed numbers the cells by the extents
of its own parameter. These are the extents of what was passed, except that a leading one may be
left open, and this one is never used.
-/

namespace BlockLang

open Context Emit List Parameter

variable {r : CompiledFunction} {c : Computed} {ctx : Context} {d : Denoted} {scope : Int}
  {extents : List Nat} {l : Location} {q : Parameter} {p p' : Progress} {x : String}

/-! ### Calls -/

/-- The arguments of a call of a visible function have been checked against its parameters. -/
structure CompiledFunction.Accepts (r : CompiledFunction) (g : FunctionDecl) (scope : Int)
    (es : List Expr) : Prop where
  visible : r.opened.env.find? g.name = some ⟨.fn g, scope⟩
  length_eq : es.length = g.parameters.length
  checked : ∃ p as p', p.env = r.opened.env ∧ argumentsOf g g.parameters es p = .ok as p'

/-- In the context of a function a parameter stands where the argument does that was passed by
reference, with as many rows if their number is left open. -/
def Context.Takes (ctx : Context) (q : Parameter) : Denoted → Prop
  | .place shape a => ctx.address q.name = a ∧
      (q.isOpen → shape.extents.head? = some (ctx.rows q.name))
  | .value _ => False

/-- An expression of a function stands for the part of a storage that subscripts select. It
names a variable or a literal, selects a row of what stands for a part, or names a parameter to
which such an expression was passed. In the functions inside it the parameter is the same. -/
inductive Storage.Stands (rs : List CompiledFunction) (A : Storage) :
    CompiledFunction → Context → Expr → Store → List Word → Prop
  | declared {r : CompiledFunction} {ctx : Context} {l : Location} {x : String} {v : Variable}
      {scope : Int} {s : Store} (hr : r ∈ rs) (henv : ctx.env = r.opened.env)
      (hx : r.opened.env.find? x = some ⟨.var v, scope⟩)
      (hA : A = ⟨⟨v.ty, v.extents⟩, ctx.address x⟩) : Stands rs A r ctx (.name l x) s []
  | literal {r : CompiledFunction} {ctx : Context} {l : Location} {t : String} {s : Store}
      (hr : r ∈ rs) (henv : ctx.env = r.opened.env)
      (hA : A = ⟨⟨.char, [t.utf8ByteSize + 1]⟩, ctx.literal t⟩) :
      Stands rs A r ctx (.string l t) s []
  | row {r : CompiledFunction} {ctx : Context} {l : Location} {base first : Expr}
      {more : List Expr} {s s1 s2 : Store} {d : Denoted} {js is : List Word}
      (array : Stands rs A r ctx base s js) (hbase : base.denote ctx .late s = .ok (d, s1))
      (his : Expr.indices ctx first more s1 = .ok (is, s2)) (hrange : InRange (A.rest js) is) :
      Stands rs A r ctx (.index l base first more) s (js ++ is)
  | passed {r callee : CompiledFunction} {ctx ctx' : Context} {g : FunctionDecl} {scope : Int}
      {es : List Expr} {e : Expr} {i : Nat} {q : Parameter} {d : Denoted} {l : Location}
      {s s1 s' : Store} {js : List Word} (argument : Stands rs A r ctx e s js)
      (haccepts : r.Accepts g scope es) (hcallee : callee ∈ rs)
      (hlabel : callee.label = calleeLabel g scope) (he : es[i]? = some e)
      (hq : callee.function.parameters[i]? = some q) (href : q.byReference)
      (hd : e.denote ctx .late s = .ok (d, s1)) (henv : ctx'.env = callee.opened.env)
      (htakes : ctx'.Takes q d) : Stands rs A callee ctx' (.name l q.name) s' js
  | inside {r inner : CompiledFunction} {ctx ctx' : Context} {l l' : Location} {x : String}
      {s s' : Store} {js : List Word} (outer : Stands rs A r ctx (.name l x) s js)
      (hinner : inner ∈ rs) (henv : ctx'.env = inner.opened.env)
      (hx : inner.opened.env.find? x = r.opened.env.find? x)
      (haddress : ctx'.address x = ctx.address x) (hrows : ctx'.rows x = ctx.rows x) :
      Stands rs A inner ctx' (.name l' x) s' js

/-! ### Extents that are checked -/

/-- Extents are as declared. A leading one that is left open counts as zero. -/
def Shape.Covers (declared actual : Shape) : Prop :=
  actual.ty = declared.ty ∧ (actual.extents = declared.extents ∨
    ∃ n ns, actual.extents = n :: ns ∧ declared.extents = 0 :: ns)

/-- The extents of a parameter, with a number of rows if the leading one is left open. -/
def Parameter.extentsWith (q : Parameter) (rows : Nat) : List Nat :=
  if q.isOpen then rows :: q.extents else q.extents

theorem Parameter.extentsWith_headD (q : Parameter) (rows : Nat) :
    q.extentsWith ((q.extentsWith rows).headD 0) = q.extentsWith rows := by
  unfold extentsWith
  split <;> rfl

theorem Context.place?_param (h : ctx.env.find? x = some ⟨.param q, scope⟩) :
    ctx.place? x = some (.place ⟨q.ty, q.extentsWith (ctx.rows x)⟩ (ctx.address x)) := by
  simp [place?, h, extentsWith]

theorem Expr.denote_name (h : ctx.place? x = some d) (l : Location) (reading : Reading)
    (s : Store) : (Expr.name l x).denote ctx reading s = .ok (d, s) := by
  rw [Expr.denote, h]
  rfl

theorem Expr.place?_of_denote {reading : Reading} {s s' : Store}
    (h : (Expr.name l x).denote ctx reading s = .ok (d, s')) : ctx.place? x = some d := by
  rw [Expr.denote] at h
  cases hplace : ctx.place? x with
  | none =>
    rw [hplace] at h
    cases h
  | some d' =>
    rw [hplace] at h
    cases h
    rfl

namespace Emit

/-- A name is declared with the extents of what it stands for. -/
theorem named_covers {shape : Shape} {a : Word} (h : named l x p = .ok c p')
    (henv : p.env = ctx.env) (hplace : ctx.place? x = some (.place shape a)) :
    c.shape.Covers shape := by
  obtain ⟨-, ⟨d, scope⟩, hb, hcases⟩ := named_ok h
  rw [henv] at hb
  obtain ⟨v, rfl, rfl⟩ | ⟨q, rfl, rfl⟩ := hcases
  · have hvar : ctx.place? x = some (.place ⟨v.ty, v.extents⟩ (ctx.address x)) := by
      simp [place?, hb]
    cases hplace.symm.trans hvar
    exact ⟨rfl, .inl rfl⟩
  · cases hplace.symm.trans (place?_param hb)
    refine ⟨rfl, ?_⟩
    cases hopen : q.isOpen with
    | false =>
      left
      simp [extentsWith, shape, hopen]
    | true =>
      right
      exact ⟨ctx.rows x, q.extents, by simp [extentsWith, hopen],
        by simp [shape, hopen]⟩

/-- The subscripts of an index expression leave the extents of a row, whatever the leading one
was. -/
theorem index_covers {ty : Ty} {base first : Expr} {more : List Expr}
    (h : expression (.index l base first more) p = .ok c p')
    (hbase : ∀ array p1, expression base p = .ok array p1 → array.shape.Covers ⟨ty, extents⟩) :
    c.shape.Covers ⟨ty, extents.drop (more.length + 1)⟩ := by
  obtain ⟨array, p1, n, harray, -, -, rfl, -⟩ := index_recorded h (.refl _)
  obtain ⟨hty, hextents⟩ := hbase array p1 harray
  refine ⟨hty, .inl ?_⟩
  obtain heq | ⟨k, ns, hactual, hdeclared⟩ := hextents
  · exact congrArg (List.drop _) heq
  · change extents = k :: ns at hactual
    rw [hactual, hdeclared, drop_succ_cons, drop_succ_cons]

/-- Each argument has been computed and checked. -/
theorem argumentsOf_getElem? (f : FunctionDecl) : ∀ (qs : List Parameter) (es : List Expr)
    {as : List Argument} {p p' : Progress}, argumentsOf f qs es p = .ok as p' →
      ∀ {i : Nat} {q : Parameter} {e : Expr}, qs[i]? = some q → es[i]? = some e →
        ∃ p1 c p2, p1.env = p.env ∧ expression e p1 = .ok c p2 ∧ c.shape.ty = q.ty ∧
          extentsMatch q c.shape.extents
  | [], es, as, p, p', _, i, q, e, hq, _ => by cases hq
  | q :: qs, [], as, p, p', _, i, _, e, _, he => by cases he
  | q :: qs, e :: es, as, p, p', h, i, q', e', hq, he => by
    obtain ⟨c, p1, rest, hc, hty, hmatch, -, hrest, -⟩ := argumentsOf_cons_ok h
    cases i with
    | zero =>
      cases hq
      cases he
      exact ⟨p, c, p1, rfl, hc, hty, hmatch⟩
    | succ i =>
      obtain ⟨p2, c', p3, henv, hchecked⟩ := argumentsOf_getElem? f qs es hrest hq he
      exact ⟨p2, c', p3, henv.trans (expression_continues hc).env, hchecked⟩

/-- Parameters of one kind are matched by the same arguments. -/
theorem extentsMatch_of_kind_eq {q' : Parameter} (h : q'.kind = q.kind)
    (hmatch : extentsMatch q' extents) : q'.ty = q.ty ∧ extentsMatch q extents := by
  obtain ⟨hty, hextents, -, hopen⟩ : q'.ty = q.ty ∧ q'.extents = q.extents ∧
      q'.byReference = q.byReference ∧ q'.isOpen = q.isOpen := by
    simpa [kind] using h
  refine ⟨hty, ?_⟩
  unfold extentsMatch at hmatch ⊢
  rwa [hextents, hopen] at hmatch

/-- Extents that match those of a parameter are those of what they cover, with the number of
rows that it has. -/
theorem extents_eq_of_match {declared actual : Shape} {rows : Nat}
    (hmatch : extentsMatch q declared.extents) (hcovers : declared.Covers actual)
    (hpositive : ∀ n ∈ q.extents, 1 ≤ n) (hrows : q.isOpen → actual.extents.head? = some rows) :
    actual.extents = q.extentsWith rows := by
  unfold extentsMatch at hmatch
  unfold extentsWith
  obtain ⟨-, hextents⟩ := hcovers
  split at hmatch
  · next hopen =>
    rw [if_pos hopen]
    have hhead := hrows hopen
    obtain heq | ⟨n, ns, hactual, hdeclared⟩ := hextents
    · rw [← heq] at hmatch
      split at hmatch
      · cases hmatch
      · next n rest hactual =>
        rw [hactual] at hhead
        cases hhead
        rw [hactual, of_decide_eq_true hmatch]
    · rw [hactual] at hhead
      cases hhead
      rw [hdeclared] at hmatch
      rw [hactual, of_decide_eq_true hmatch]
  · next hopen =>
    rw [if_neg hopen]
    have hequal : declared.extents = q.extents := of_decide_eq_true hmatch
    obtain heq | ⟨n, ns, -, hdeclared⟩ := hextents
    · rw [heq, hequal]
    · -- the extents of a parameter that are written are no zeros
      have hzero := hpositive 0 (by rw [← hequal, hdeclared]; exact mem_cons_self)
      omega

end Emit

/-! ### What stands for a part of a storage -/

/-- What a caller sees of a parameter is the parameter, up to its name. -/
theorem Compiles.exists_parameter {tree : Decl} {rs : List CompiledFunction}
    {callee : CompiledFunction} (h : Compiles tree p rs) (htext : tree.InText) (hr : r ∈ rs)
    (hcallee : callee ∈ rs) {g : FunctionDecl} {es : List Expr} (haccepts : r.Accepts g scope es)
    (hlabel : callee.label = calleeLabel g scope) {i : Nat}
    (hq : callee.function.parameters[i]? = some q) :
    ∃ q', g.parameters[i]? = some q' ∧ q'.kind = q.kind := by
  obtain ⟨depth, hdepth, -⟩ := h.labelled.2 callee hcallee
  have hkinds := (h.agrees_target htext hr hcallee haccepts.visible hlabel hdepth).2
  have hkind := congrArg (fun kinds => kinds[i]?) hkinds
  rw [getElem?_map, getElem?_map, hq] at hkind
  exact Option.map_eq_some_iff.mp hkind

/-- An expression of a function denotes a part of a storage, and it has been declared with the
extents of this part. -/
structure Storage.Denotes (A : Storage) (r : CompiledFunction) (ctx : Context) (e : Expr)
    (s : Store) (js : List Word) : Prop where
  denote : ∃ s', e.denote ctx .late s = .ok (A.part js, s')
  covers : ∀ p c p', p.env = r.opened.env → expression e p = .ok c p' →
    c.shape.Covers ⟨A.shape.ty, A.rest js⟩

theorem Storage.denotes_name {A : Storage} {js : List Word} (henv : ctx.env = r.opened.env)
    (hplace : ctx.place? x = some (A.part js)) (l : Location) (s : Store) :
    A.Denotes r ctx (.name l x) s js where
  denote := ⟨s, Expr.denote_name hplace l .late s⟩
  covers p c p' hp hrun := by
    rw [expression] at hrun
    exact named_covers hrun (hp.trans henv.symm) hplace

namespace Storage.Stands

variable {tree : Decl} {p : Progress} {rs : List CompiledFunction} {A : Storage}
  {r : CompiledFunction} {ctx : Context} {e : Expr} {s : Store} {js : List Word}

/-- What stands for a part of a storage belongs to a function and the context that it is run
in, and the part exists. -/
theorem mem (h : Stands rs A r ctx e s js) : r ∈ rs ∧ ctx.env = r.opened.env := by
  induction h with
  | declared hr henv => exact ⟨hr, henv⟩
  | literal hr henv => exact ⟨hr, henv⟩
  | row _ _ _ _ ih => exact ih
  | passed _ _ hcallee _ _ _ _ _ henv => exact ⟨hcallee, henv⟩
  | inside _ hinner henv => exact ⟨hinner, henv⟩

theorem inRange (h : Stands rs A r ctx e s js) : InRange A.shape.extents js := by
  induction h with
  | declared | literal => exact inRange_nil _
  | row _ _ _ hrange ih => exact inRange_append.mpr ⟨ih, hrange⟩
  | passed _ _ _ _ _ _ _ _ _ _ ih => exact ih
  | inside _ _ _ _ _ _ ih => exact ih

/-- What stands for a part of a storage denotes it. -/
theorem denotes (h : Stands rs A r ctx e s js) (hcompiles : Compiles tree p rs)
    (htext : tree.InText) (hsized : tree.HasSizedParameters) : A.Denotes r ctx e s js := by
  induction h with
  | @declared r ctx l x v scope s hr henv hx hA =>
    have hfind : ctx.env.find? x = some ⟨.var v, scope⟩ := henv ▸ hx
    refine denotes_name henv ?_ l s
    subst hA
    rw [part, select_nil]
    simp [place?, hfind, rest]
  | @literal r ctx l t s hr henv hA =>
    subst hA
    refine ⟨⟨s, ?_⟩, fun p1 c p2 _ hrun => ?_⟩
    · rw [part, select_nil, Expr.denote]
      rfl
    · rw [expression] at hrun
      cases hrun
      exact ⟨rfl, .inl rfl⟩
  | @row r ctx l base first more s s1 s2 d js is array hbase his hrange ih =>
    obtain ⟨⟨s', hden⟩, hcovers⟩ := ih
    cases hden.symm.trans hbase
    refine ⟨⟨s2, ?_⟩, fun p1 c p2 hp1 hrun => ?_⟩
    · rw [Expr.denote_index hbase his]
      exact select_part hrange s2
    · rw [rest_append, Expr.length_indices his]
      exact index_covers hrun fun array p3 => hcovers p1 array p3 hp1
  | @passed r callee ctx ctx' g scope es e i q d l s s1 s' js argument haccepts hcallee hlabel he hq
      href hd henv htakes ih =>
    obtain ⟨⟨s2, hden⟩, hcovers⟩ := ih
    cases hden.symm.trans hd
    obtain ⟨haddress, hrows⟩ := htakes
    obtain ⟨q', hq', hkind⟩ :=
      hcompiles.exists_parameter htext argument.mem.1 hcallee haccepts hlabel hq
    obtain ⟨p0, as, p', hp0, has⟩ := haccepts.checked
    obtain ⟨p1, c, p2, hp1, hc, hty, hmatch⟩ := argumentsOf_getElem? g _ _ has hq' he
    replace hcovers := hcovers p1 c p2 (hp1.trans hp0) hc
    -- the parameter has the kind that the caller has seen
    obtain ⟨hty', hmatch'⟩ := extentsMatch_of_kind_eq hkind hmatch
    have hrest : A.rest js = q.extentsWith (ctx'.rows q.name) :=
      extents_eq_of_match hmatch' hcovers
        (hcompiles.one_le_extent htext hsized hcallee (mem_of_getElem? hq)) hrows
    have hfind := (hcompiles.find?_parameter htext hcallee).2 q (mem_of_getElem? hq)
    rw [← henv] at hfind
    refine denotes_name henv ?_ l s'
    rw [place?_param hfind, ← hrest, haddress, part, hcovers.1, hty, hty']
  | @inside r inner ctx ctx' l l' x s s' js outer hinner henv hx haddress hrows ih =>
    obtain ⟨s1, hden⟩ := ih.denote
    have hplace : ctx'.place? x = ctx.place? x := by
      rw [place?, place?, henv, outer.mem.2, hx, haddress, hrows]
    refine denotes_name henv ?_ l' s'
    rw [hplace]
    exact Expr.place?_of_denote hden

end Storage.Stands

end BlockLang
