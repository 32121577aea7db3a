import BlockLang.Proofs.Grammar.Basic

/-!
# Which `if` an `else` belongs to

A statement ends open if an `else` after it could still be a part of it. Every phrase has a tree in
which no statement between `then` and `else` ends open: where one does, the `else` moves into it.
-/

namespace BlockLang

open List

variable {w : List Lexeme} {α : Type}

namespace Stmt

/-- Whether an `if` without an `else` stands at the end of a statement. -/
def endsOpen : Stmt → Bool
  | ifThen _ _ => true
  | ifElse _ _ otherwise => otherwise.endsOpen
  | whileDo _ body => body.endsOpen
  | _ => false

mutual

/-- A statement in which each `else` belongs to the nearest open `if`. -/
def NearestElse : Stmt → Prop
  | block body => AllNearestElse body
  | ifThen _ body => body.NearestElse
  | ifElse _ body otherwise => ¬ body.endsOpen ∧ body.NearestElse ∧ otherwise.NearestElse
  | whileDo _ body => body.NearestElse
  | _ => True

/-- Statements in which each `else` belongs to the nearest open `if`. -/
def AllNearestElse : List Stmt → Prop
  | [] => True
  | s :: ss => s.NearestElse ∧ AllNearestElse ss

end

theorem allNearestElse_iff {ss : List Stmt} :
    AllNearestElse ss ↔ ∀ s ∈ ss, s.NearestElse := by
  induction ss with
  | nil => simp [AllNearestElse]
  | cons s ss ih => simp [AllNearestElse, ih]

/-- A statement with an `else` part for the last `if` that is open at its end. -/
def attach : Stmt → Stmt → Stmt
  | ifThen c body, otherwise =>
      if body.endsOpen then ifThen c (body.attach otherwise) else ifElse c body otherwise
  | ifElse c body final, otherwise => ifElse c body (final.attach otherwise)
  | whileDo c body, otherwise => whileDo c (body.attach otherwise)
  | s, _ => s

end Stmt

namespace Decl

mutual

/-- A declaration in whose bodies each `else` belongs to the nearest open `if`. -/
def NearestElse : Decl → Prop
  | function _ locals body => AllNearestElse locals ∧ Stmt.AllNearestElse body
  | _ => True

/-- Declarations in whose bodies each `else` belongs to the nearest open `if`. -/
def AllNearestElse : List Decl → Prop
  | [] => True
  | d :: ds => d.NearestElse ∧ AllNearestElse ds

end

theorem allNearestElse_iff {ds : List Decl} :
    AllNearestElse ds ↔ ∀ d ∈ ds, d.NearestElse := by
  induction ds with
  | nil => simp [AllNearestElse]
  | cons d ds ih => simp [AllNearestElse, ih]

end Decl

namespace Grammar

/-- Items that can each be replaced by one with a property can be replaced together. -/
theorem Many.exists_forall {item : List Lexeme → α → Prop} {P : α → Prop} {as : List α}
    (h : Many item w as) (hitem : ∀ v a, v.length ≤ w.length → item v a → ∃ b, item v b ∧ P b) :
    ∃ bs, Many item w bs ∧ ∀ b ∈ bs, P b := by
  induction h with
  | nil => exact ⟨[], .nil, forall_mem_nil P⟩
  | @cons w v a as head tail ih =>
    obtain ⟨b, hb, hPb⟩ := hitem w a (by simp) head
    obtain ⟨bs, hbs, hPbs⟩ := ih fun v' a' hle => hitem v' a' (by simp; omega)
    exact ⟨b :: bs, .cons hb hbs, forall_mem_cons.mpr ⟨hPb, hPbs⟩⟩

theorem Many.concat {item : List Lexeme → α → Prop} {v : List Lexeme} {as : List α} {a : α}
    (h : Many item w as) (ha : item v a) : Many item (w ++ v) (as ++ [a]) := by
  induction h with
  | nil => simpa using Many.cons ha .nil
  | cons head _ ih =>
    rw [append_assoc]
    exact .cons head ih

theorem Many.of_forall {item : List Lexeme → α → Prop} {P : α → Prop} {as : List α}
    (h : Many item w as) (hP : ∀ a ∈ as, P a) : Many (fun v a => item v a ∧ P a) w as := by
  induction h with
  | nil => exact .nil
  | cons head _ ih =>
    obtain ⟨ha, has⟩ := forall_mem_cons.mp hP
    exact .cons ⟨head, ha⟩ (ih has)

theorem Many.and {item : List Lexeme → α → Prop} {P : α → Prop} {as : List α}
    (h : Many (fun v a => item v a ∧ P a) w as) : Many item w as ∧ ∀ a ∈ as, P a := by
  induction h with
  | nil => exact ⟨.nil, forall_mem_nil P⟩
  | cons head _ ih => exact ⟨.cons head.1 ih.1, forall_mem_cons.mpr ⟨head.2, ih.2⟩⟩

/-- An `else` part after a statement that ends open is a part of that statement. -/
theorem Statement.attach {u : List Lexeme} {otherwise : Stmt} {l : Location}
    (hu : Statement u otherwise) (hnearest : otherwise.NearestElse) {w : List Lexeme} {s : Stmt}
    (h : Statement w s) (hs : s.NearestElse) (hopen : s.endsOpen) :
    Statement (w ++ ⟨.keyword .«else», l⟩ :: u) (s.attach otherwise) ∧
      (s.attach otherwise).NearestElse := by
  induction hn : w.length using Nat.strongRecOn generalizing w s with
  | ind n ih =>
    subst hn
    cases h with
    | @ifThen l l' w v c s condition body =>
      rw [Stmt.attach]
      split
      · rename_i hbody
        obtain ⟨hattach, hnearest⟩ := ih _ (by simp; omega) body hs hbody rfl
        refine ⟨?_, hnearest⟩
        simpa using Statement.ifThen condition hattach
      · rename_i hbody
        refine ⟨?_, hbody, hs, hnearest⟩
        simpa using Statement.ifElse condition body hu
    | @ifElse l l' l'' w v u c s s' condition body final =>
      obtain ⟨hattach, hnearest⟩ := ih _ (by simp; omega) final hs.2.2 hopen rfl
      refine ⟨?_, hs.1, hs.2.1, hnearest⟩
      simpa [Stmt.attach] using Statement.ifElse condition body hattach
    | @whileDo l l' w v c s condition body =>
      obtain ⟨hattach, hnearest⟩ := ih _ (by simp; omega) body hs hopen rfl
      refine ⟨?_, hnearest⟩
      simpa [Stmt.attach] using Statement.whileDo condition hattach
    | _ => cases hopen

/-- Every statement has a tree in which each `else` belongs to the nearest open `if`. -/
theorem Statement.exists_nearestElse {s : Stmt} (h : Statement w s) :
    ∃ s', Statement w s' ∧ s'.NearestElse := by
  induction hn : w.length using Nat.strongRecOn generalizing w s with
  | ind n ih =>
    subst hn
    cases h with
    | empty => exact ⟨_, .empty, trivial⟩
    | assign target value => exact ⟨_, .assign target value, trivial⟩
    | call call => exact ⟨_, .call call, trivial⟩
    | block body =>
      obtain ⟨hbody⟩ := body
      obtain ⟨ss, hss, hnearest⟩ := hbody.exists_forall fun v s hle hs =>
        ih v.length (by simp; omega) hs rfl
      exact ⟨.block ss, .block (.intro hss), Stmt.allNearestElse_iff.mpr hnearest⟩
    | @ifThen l l' w v c s condition body =>
      obtain ⟨s', hs', hnearest⟩ := ih v.length (by simp; omega) body rfl
      exact ⟨_, .ifThen condition hs', hnearest⟩
    | @ifElse l l' l'' w v u c s1 s2 condition body otherwise =>
      obtain ⟨s1', hs1', hnearest1⟩ := ih v.length (by simp; omega) body rfl
      obtain ⟨s2', hs2', hnearest2⟩ := ih u.length (by simp; omega) otherwise rfl
      by_cases hopen : s1'.endsOpen
      · obtain ⟨hattach, hnearest⟩ :=
          Statement.attach (l := l'') hs2' hnearest2 hs1' hnearest1 hopen
        exact ⟨_, .ifThen condition hattach, hnearest⟩
      · exact ⟨_, .ifElse condition hs1' hs2', hopen, hnearest1, hnearest2⟩
    | @whileDo l l' w v c s condition body =>
      obtain ⟨s', hs', hnearest⟩ := ih v.length (by simp; omega) body rfl
      exact ⟨_, .whileDo condition hs', hnearest⟩
    | returnValue value => exact ⟨_, .returnValue value, trivial⟩
    | returnNothing => exact ⟨_, .returnNothing, trivial⟩

theorem Function.exists_nearestElse {w : List Lexeme} {d : Decl} (h : Function w d) :
    ∃ d', Function w d' ∧ d'.NearestElse := by
  induction hn : w.length using Nat.strongRecOn generalizing w d with
  | ind n ih =>
    subst hn
    obtain @⟨l, w, v, u, z, h, ds, ss, closed, header, locals, body, closing⟩ := h
    have hlocal : ∀ v' d, v'.length ≤ v.length → Local Function v' d →
        ∃ d', Local Function v' d' ∧ d'.NearestElse := by
      intro v' d hle hd
      cases hd with
      | function inner =>
        obtain ⟨d', hd', hnearest⟩ := ih v'.length (by simp; omega) inner rfl
        exact ⟨d', .function hd', hnearest⟩
      | forward header => exact ⟨_, .forward header, trivial⟩
      | vars inner =>
        refine ⟨d, .vars inner, ?_⟩
        cases inner
        trivial
    obtain ⟨ds', hds', hlocals⟩ := locals.exists_forall hlocal
    obtain ⟨hbody⟩ := body
    obtain ⟨ss', hss', hstatements⟩ := hbody.exists_forall fun v s _ hs => hs.exists_nearestElse
    exact ⟨.function h ds' ss', .intro header hds' (.intro hss') closing,
      Decl.allNearestElse_iff.mpr hlocals, Stmt.allNearestElse_iff.mpr hstatements⟩

/-- A function or a forward declaration of one, with each `else` at the nearest open `if`. -/
def IsDefinition (w : List Lexeme) (d : Decl) : Prop :=
  (Grammar.Function w d ∨ Local Grammar.Function w d ∧ ∃ h, d = .forward h) ∧ d.NearestElse

/-- Every program has a tree in which each `else` belongs to the nearest open `if`. -/
theorem Program.exists_nearestElse {w : List Lexeme} {d : Decl} (h : Program w d) :
    ∃ d', Program w d' ∧ d'.NearestElse := by
  obtain ⟨definition⟩ := h
  obtain ⟨d', hd', hnearest⟩ := definition.exists_nearestElse
  exact ⟨d', .intro hd', hnearest⟩

end Grammar

end BlockLang
