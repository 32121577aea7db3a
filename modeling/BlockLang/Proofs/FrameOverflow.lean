import BlockLang.Proofs.InternalError

/-!
# Frames that overflow

The temporaries of a function are only known when its body is complete. So a function that passes
the check of its variables may still not fit into a frame, but only if its variables leave less
room than its temporaries need.
-/

namespace BlockLang

open Option

namespace Frame

/-- A scalar takes a word at most, alignment included. -/
private theorem align_depth_scalars (top : Nat) (temps : List (Nat × Ty)) :
    align (depth top (temps.map tempItem)) ≤ align top + word * temps.length := by
  induction temps generalizing top with
  | nil => exact Nat.le_refl _
  | cons temp temps ih =>
    have hitem : align (below top (tempItem temp)) ≤ align top + word := by
      obtain ⟨n, ty⟩ := temp
      rw [below, word_mul_ceilDiv]
      cases ty <;> simp only [tempItem, Ty.size, reduceCtorEq, if_true, if_false, align, word] <;>
        omega
    have hrest := ih (below top (tempItem temp))
    rw [List.map_cons, depth_cons, List.length_cons, Nat.mul_succ]
    omega

/-- Variables that leave a word for each temporary can be laid out together with the
temporaries. -/
theorem layout?_isSome_of_room {locals : List Variable} {temps : List (Nat × Ty)} {f : Frame}
    (h : layout? locals [] = some f) (hroom : f.size + word * temps.length < offsetLimit) :
    (layout? locals temps).isSome := by
  obtain ⟨sized, hsized, -, rfl⟩ := layout?_eq_some_iff.mp h
  have hfits := Nat.lt_of_le_of_lt (align_depth_scalars (depth 0 sized) temps) hroom
  exact Option.isSome_iff_exists.mpr ⟨_, layout?_eq_some_iff.mpr ⟨sized, hsized, hfits, rfl⟩⟩

end Frame

/-- A text leads to an internal error because of a function whose variables have passed
their check: they fit into a frame, and with the temporaries they do not. This takes
variables that leave less than a word for each of the temporaries. -/
theorem overflow_by_temporaries (source : String) (e : InternalError)
    (h : (compile source).1 = .error (.internal e)) :
    ∃ lexemes tree p label frame, Token.scan source = .ok lexemes ∧
      (Decl.read lexemes).1 = .ok tree ∧
      Emit.program (some tree) {} = .error (.internal e) p ∧ e = .frameTooLarge label ∧
      Frame.layout? (p.env.locals p.env.scope) [] = some frame ∧
      Frame.layout? (p.env.locals p.env.scope) (Emit.newTemps p) = none ∧
      offsetLimit ≤ frame.size + Frame.word * (Emit.newTemps p).length := by
  obtain ⟨lexemes, tree, p, hscan, hread, hrun, label, hlabel, hlayout, hsound⟩ :=
    overflows_of_compile h
  cases hlabel
  obtain ⟨frame, hframe⟩ := Option.isSome_iff_exists.mp (hsound.fits p.env.scope)
  refine ⟨lexemes, tree, p, label, frame, hscan, hread, hrun, rfl, hframe, hlayout, ?_⟩
  by_contra hroom
  have hsome := Frame.layout?_isSome_of_room hframe (Nat.lt_of_not_le hroom)
  rw [hlayout] at hsome
  cases hsome

/-- A function whose array leaves room for one temporary, with a body that needs two. -/
def oneTooMany : String :=
  "function main(): nothing; var a: char[2147483640]; begin a[0] := 'x'; a[1] := 'y'; end"

theorem overflow_by_temporaries_oneTooMany :
    (compile oneTooMany).1 = .error (.internal (.frameTooLarge ⟨"main", some 0, 0⟩)) ∧
      ∃ lexemes tree p label frame, Token.scan oneTooMany = .ok lexemes ∧
        (Decl.read lexemes).1 = .ok tree ∧
        Emit.program (some tree) {} =
          .error (.internal (.frameTooLarge ⟨"main", some 0, 0⟩)) p ∧
        InternalError.frameTooLarge ⟨"main", some 0, 0⟩ = .frameTooLarge label ∧
        Frame.layout? (p.env.locals p.env.scope) [] = some frame ∧
        Frame.layout? (p.env.locals p.env.scope) (Emit.newTemps p) = none ∧
        offsetLimit ≤ frame.size + Frame.word * (Emit.newTemps p).length := by
  have h : (compile oneTooMany).1 =
      .error (.internal (.frameTooLarge ⟨"main", some 0, 0⟩)) := by decide +kernel
  exact ⟨h, overflow_by_temporaries oneTooMany _ h⟩

end BlockLang
