import BlockLang.Proofs.Phrase.Climbing

/-!
# Readers side by side

Every reader of the language keeps every coupling, and what it passes is a phrase of the kind
that it reads: one lemma for each reader, along its definition. What an expression is read for
decides the use of the part that is made, and an `else` is read into the nearest open `if`.
-/

namespace BlockLang

namespace Phrase

open Coupling Grammar List Statement Token

variable {B ε σ δ α' β' π : Type} [Building B ε σ δ] {c : Coupling B} {n : Nat} {l m : Lexemes}
  {t : Token} {v w : List Lexeme} {ps : c.Parts}

/-! ### Conditions -/

theorem relates_of_relation? {r : Relation} (h : t.relation? = some r) :
    t ≠ .eof ∧ Relates t r := by
  unfold relation? at h
  split at h <;> cases h
  · exact ⟨nofun, .equal⟩
  · exact ⟨nofun, .notEqual⟩
  · exact ⟨nofun, .greater⟩
  · exact ⟨nofun, .less⟩
  · exact ⟨nofun, .greaterEqual⟩
  · exact ⟨nofun, .lessEqual⟩

theorem conjoins_of_conjunctive? {o : Connective} (h : t.conjunctive? = some o) :
    Conjoins t fun l => .logic l o := by
  unfold conjunctive? at h
  split at h <;> cases h
  exact .and

theorem disjoins_of_disjunctive? {o : Connective} (h : t.disjunctive? = some o) :
    Disjoins t fun l => .logic l o := by
  unfold disjunctive? at h
  split at h <;> cases h
  exact .or

theorem comparison_agrees (n : Nat) :
    c.Agrees n comparison comparison (Single (.expr .condition) Negation) := by
  intro l hl
  refine follows_location ((expression_agrees n l hl).bind ?_)
  rintro a a' _ v m ⟨rfl, ha⟩ hm
  refine follows_peek ?_
  split
  · rename_i relation hrelation
    obtain ⟨hne, hrelates⟩ := relates_of_relation? hrelation
    refine follows_skip rfl hne ((expression_agrees _ m.tail (Nat.lt_succ_self _)).bind ?_)
    rintro b b' _ u m' ⟨rfl, hb⟩ _
    refine follows_newExpr (.compare relation (a, a') (b, b')) trivial rfl ?_
    rw [← start_eq hm (starts_expression.ne_nil ha), append_assoc]
    exact .compare ha hrelates hb
  · exact follows_fail

section Negation

variable {negation : Phrase Completed Expr} {negation' : Phrase B ε}
  (h : c.Agrees n negation negation' (Single (.expr .condition) Negation))

include h

theorem disjunction_agrees : c.Agrees n (disjunction negation) (disjunction negation')
    (Single (.expr .condition) Condition) := by
  refine agrees_joined (agrees_joined h starts_negation rfl fun _ _ o ho => ⟨_,
    conjoins_of_conjunctive? ho, fun a a' b b' _ _ => ?_⟩) starts_negation.joined rfl
    fun _ _ o ho => ⟨_, disjoins_of_disjunctive? ho, fun a a' b b' _ _ => ?_⟩
  · exact follows_newExpr (.logic o (a, a') (b, b')) trivial rfl ⟨rfl, rfl⟩
  · exact follows_newExpr (.logic o (a, a') (b, b')) trivial rfl ⟨rfl, rfl⟩

/-- A condition in parentheses is read. It is given if no operator follows. -/
theorem groupedCondition_agrees :
    c.Agrees (n + 1) (groupedCondition negation) (groupedCondition negation') fun o o' ps v m =>
      ∃ e e', ps = [.expr .condition (e, e')] ∧
        Between Condition (.symbol .leftParen) (.symbol .rightParen) v e ∧
        o = (if m.next.token.isOperator then none else some e) ∧
        o' = if m.next.token.isOperator then none else some e' := by
  intro l hl
  refine follows_expect nofun fun hparen => ?_
  have hlt := Lexemes.count_tail_lt hparen nofun
  refine (disjunction_agrees h l.tail (by omega)).bind ?_
  rintro e e' _ v m ⟨rfl, he⟩ _
  refine follows_expect nofun fun _ => follows_peek (follows_pure ?_)
  exact ⟨e, e', rfl, .intro he, rfl, rfl⟩

theorem negationOf_agrees : c.Agrees (n + 1) (negationOf negation) (negationOf negation')
    (Single (.expr .condition) Negation) := by
  intro l hl
  refine follows_location (follows_peek ?_)
  split
  all_goals rename_i ht
  · have hlt := Lexemes.count_tail_lt ht nofun
    refine follows_skip ht nofun ((h l.tail (by omega)).bind ?_)
    rintro e e' _ v m ⟨rfl, he⟩ _
    exact follows_newExpr (.not (e, e')) trivial rfl (.not he)
  · refine (follows_attempt (groupedCondition_agrees h l hl) ?_).bind ?_
    · rintro _ _ _ _ m ⟨e, e', -, -, rfl, rfl⟩
      split <;> simp
    rintro _ _ _ v m (⟨e, e', rfl, rfl, _, _, rfl, he, ho, ho'⟩ | ⟨rfl, rfl, rfl, rfl⟩) hm
    · split at ho <;> cases ho
      rw [if_neg ‹_›] at ho'
      cases ho'
      refine follows_newExpr (.group (e, e')) trivial rfl ?_
      rw [← start_eq hm (starts_between.ne_nil he)]
      exact .group he
    · exact comparison_agrees _ m (Nat.lt_succ_self _)
  · exact comparison_agrees _ l (Nat.lt_succ_self _)

end Negation

theorem negation_agrees (n : Nat) :
    c.Agrees n negation negation (Single (.expr .condition) Negation) :=
  agrees_fix (fun _ _ _ => negationOf_agrees) n

theorem condition_agrees (n : Nat) :
    c.Agrees n condition condition (Single (.expr .condition) Condition) :=
  disjunction_agrees (negation_agrees n)

/-! ### Statements -/

/-- A statement with each `else` at the nearest open `if`. -/
def IsStatement (w : List Lexeme) (s : Stmt) : Prop := Statement w s ∧ s.NearestElse

/-- A statement has been read, and what is open at its end does not go on. -/
def Ended (part : Stmt × σ → π) (s : Stmt) (s' : σ) (ps : List π) (v : List Lexeme)
    (m : Lexemes) : Prop :=
  Single part IsStatement s s' ps v m ∧ (s.endsOpen → m.next.token ≠ .keyword .«else»)

theorem Ended.closed {part : Stmt × σ → π} {s : Stmt} {s' : σ} {ps : List π}
    (h : Single part IsStatement s s' ps v m) (hs : s.endsOpen = false) : Ended part s s' ps v m :=
  ⟨h, fun hopen => absurd (hs.symm.trans hopen) Bool.false_ne_true⟩

theorem assignment_follows (base : ExprNode (Expr × ε)) (hbase : Heads t base)
    (ht : l.next.token = t) :
    c.Follows [] l [] (statementOf.assignment l.next.location (base.map Prod.fst))
      (statementOf.assignment l.next.location (base.map Prod.snd)) (Ended .stmt) := by
  refine (placeOf_follows (expression_agrees _) base hbase ht (Nat.lt_succ_self _)).bind ?_
  rintro a a' _ v m ⟨rfl, ha⟩ hm
  refine follows_expect nofun fun _ => ?_
  refine (expression_agrees _ m.tail (Nat.lt_succ_self _)).bind ?_
  rintro b b' _ u m' ⟨rfl, hb⟩ _
  refine follows_expect nofun fun _ => follows_newStmt (.assign (a, a') (b, b')) rfl fun _ => ?_
  rw [← start_eq hm (starts_factor.ne_nil (.place ha))]
  exact .closed ⟨rfl, by simpa [StmtNode.map, StmtNode.tree] using assign ha hb, trivial⟩ rfl

section Statement

variable {statement : Phrase Completed Stmt} {statement' : Phrase B σ}
  (h : c.Agrees n statement statement' (Ended .stmt))

include h

theorem statementsOf_agrees : c.Agrees n (statementsOf statement) (statementsOf statement')
    (Reads (Each fun s s' ps => ps = [.stmt (s, s')]) (Many IsStatement)) :=
  agrees_many fun l hl _ => (h l hl).imp fun _ _ _ _ _ hs => hs.1

theorem statementOf_agrees :
    c.Agrees (n + 1) (statementOf statement) (statementOf statement') (Ended .stmt) := by
  intro l hl
  have hless : ∀ {t}, l.next.token = t → t ≠ .eof → l.tail.count < n := fun ht hne => by
    have := Lexemes.count_tail_lt ht hne
    omega
  have hsign : ∀ {s : Symbol}, symbol s ≠ eof := by simp
  have hword : ∀ {k : Keyword}, keyword k ≠ eof := by simp
  refine follows_location (follows_peek ?_)
  split
  all_goals rename_i ht
  · exact follows_skip ht hsign (follows_newStmt .empty rfl fun _ =>
      .closed ⟨rfl, .empty, trivial⟩ rfl)
  · refine follows_skip ht hword ((statementsOf_agrees h l.tail (hless ht hword)).bind ?_)
    rintro ss ss' _ v m ⟨hss, hmany⟩ _
    obtain ⟨zs, rfl, rfl, rfl⟩ := hss.exists_zip
    exact follows_expect hword fun _ => follows_newStmt (.block zs) rfl fun _ =>
      .closed ⟨rfl, .block (.intro hmany.and.1), Stmt.allNearestElse_iff.mpr hmany.and.2⟩ rfl
  · have hlt := hless ht hword
    refine follows_skip ht hword ((condition_agrees n l.tail hlt).bind ?_)
    rintro e e' _ w m ⟨rfl, he⟩ hm
    have hm := Lexemes.count_le hm
    refine follows_expect hword fun hthen => ?_
    have hm' := Lexemes.count_tail_lt hthen hword
    refine (h m.tail (by omega)).bind ?_
    rintro s s' _ v m1 ⟨⟨rfl, hs, hnearest⟩, hclosed⟩ hm1
    have hm1 := Lexemes.count_le hm1
    refine follows_accept hword (fun helse => ?_) fun hother => ?_
    · have hm1' := Lexemes.count_tail_lt helse hword
      refine (h m1.tail (by omega)).bind ?_
      rintro z z' _ u m2 ⟨⟨rfl, hz, hnearest'⟩, hclosed'⟩ _
      refine follows_newStmt (.ifElse (e, e') (s, s') (z, z')) rfl fun _ =>
        ⟨⟨rfl, ?_, ?_⟩, hclosed'⟩
      · simpa [StmtNode.map, StmtNode.tree] using ifElse he hs hz
      · exact ⟨fun hopen => hclosed hopen helse, hnearest, hnearest'⟩
    · refine follows_newStmt (.ifThen (e, e') (s, s')) rfl fun _ => ⟨⟨rfl, ?_, hnearest⟩, ?_⟩
      · simpa [StmtNode.map, StmtNode.tree] using ifThen he hs
      · exact fun _ => hother
  · have hlt := hless ht hword
    refine follows_skip ht hword ((condition_agrees n l.tail hlt).bind ?_)
    rintro e e' _ w m ⟨rfl, he⟩ hm
    have hm := Lexemes.count_le hm
    refine follows_expect hword fun hdo => ?_
    have hm' := Lexemes.count_tail_lt hdo hword
    refine (h m.tail (by omega)).bind ?_
    rintro s s' _ v m1 ⟨⟨rfl, hs, hnearest⟩, hclosed⟩ _
    refine follows_newStmt (.whileDo (e, e') (s, s')) rfl fun _ => ⟨⟨rfl, ?_, hnearest⟩, hclosed⟩
    simpa [StmtNode.map, StmtNode.tree] using whileDo he hs
  · refine follows_skip ht hword (follows_accept hsign (fun _ => ?_) fun _ => ?_)
    · exact follows_newStmt .returnNothing rfl fun _ => .closed ⟨rfl, .returnNothing, trivial⟩ rfl
    · refine (expression_agrees _ l.tail (Nat.lt_succ_self _)).bind ?_
      rintro e e' _ v m ⟨rfl, he⟩ _
      refine follows_expect hsign fun _ => follows_newStmt (.returnValue (e, e')) rfl fun _ => ?_
      exact .closed ⟨rfl, .returnValue he, trivial⟩ rfl
  · refine follows_peekSecond ht (by simp) ?_
    split
    · refine (callOf_agrees (expression_agrees _) l (Nat.lt_succ_self _)).bind ?_
      rintro e e' _ v m ⟨rfl, he⟩ _
      exact follows_expect hsign fun _ => follows_newStmt (.call (e, e')) rfl fun _ =>
        .closed ⟨rfl, .call he, trivial⟩ rfl
    · exact assignment_follows (.name _) .name ht
  · exact assignment_follows (.string _) .string ht
  · exact follows_fail

end Statement

theorem statement_agrees (n : Nat) : c.Agrees n statement statement (Ended .stmt) :=
  agrees_fix (fun _ _ _ => statementOf_agrees) n

/-- The body of a function with what may follow it. -/
def IsBody (v : List Lexeme) (ss : List Stmt) : Prop :=
  ∃ w z closed, v = w ++ z ∧ Body w ss ∧ Optional [.symbol .semicolon] z closed ∧
    Stmt.AllNearestElse ss

theorem body_follows : c.Follows [] l [] body body
    (Reads (Each fun s s' ps => ps = [.stmt (s, s')]) IsBody) := by
  refine follows_expect nofun fun _ => ?_
  refine (statementsOf_agrees (statement_agrees _) l.tail (Nat.lt_succ_self _)).bind ?_
  rintro ss ss' qs v m ⟨hss, hmany⟩ _
  have hnearest := Stmt.allNearestElse_iff.mpr hmany.and.2
  refine follows_expect nofun fun _ => follows_accept nofun (fun _ => ?_) fun _ => ?_
  · exact follows_pure ⟨hss, _, _, true, rfl, .intro hmany.and.1, .present rfl, hnearest⟩
  · exact follows_pure ⟨hss, _, [], false, (append_nil _).symm, .intro hmany.and.1, .absent,
      hnearest⟩

/-! ### Declarations -/

theorem declaredNames_follows : c.Follows [] l [] declaredNames declaredNames (Plain Names) := by
  unfold declaredNames
  refine (agrees_separatedBy (R := fun a b ps => a = b ∧ ps = []) (K := Name) (by simp)
    (fun l _ => ?_) l (Nat.lt_succ_self _)).imp fun _ _ _ _ _ hall => ⟨hall.1.plain, hall.2⟩
  exact follows_declaredName fun x _ => follows_pure ⟨⟨rfl, rfl⟩, .intro⟩

/-- A token that stands for a type. -/
def TypeOf (K : Token → Ty → Prop) (v : List Lexeme) (ty : Ty) : Prop :=
  ∃ t x, v = [⟨t, x⟩] ∧ K t ty

theorem scalarType_follows : c.Follows [] l [] scalarType scalarType (Plain (TypeOf Scalar)) := by
  refine follows_peek ?_
  split
  all_goals rename_i ht
  · exact follows_skip ht nofun (follows_pure ⟨⟨rfl, rfl⟩, _, _, rfl, .int⟩)
  · exact follows_skip ht nofun (follows_pure ⟨⟨rfl, rfl⟩, _, _, rfl, .char⟩)
  · exact follows_fail

theorem resultType_follows : c.Follows [] l [] resultType resultType (Plain (TypeOf Result)) := by
  refine follows_peek ?_
  split
  all_goals rename_i ht
  · exact follows_skip ht nofun (follows_pure ⟨⟨rfl, rfl⟩, _, _, rfl, .scalar .int⟩)
  · exact follows_skip ht nofun (follows_pure ⟨⟨rfl, rfl⟩, _, _, rfl, .scalar .char⟩)
  · exact follows_skip ht nofun (follows_pure ⟨⟨rfl, rfl⟩, _, _, rfl, .nothing⟩)
  · exact follows_fail

theorem extent_follows : c.Follows [] l [] extent extent (Plain Extent) := by
  refine follows_peek ?_
  split
  · rename_i value ht
    split
    · rename_i hpositive
      exact follows_skip ht nofun (follows_pure ⟨⟨rfl, rfl⟩, .intro hpositive⟩)
    · exact follows_location follows_throw
  · exact follows_fail

theorem extents_follows : c.Follows [] l [] extents extents (Plain Extents) := by
  refine (agrees_many (n := l.count + 1) (fun l _ hmore => ?_) l (Nat.lt_succ_self _)).imp
    fun _ _ _ _ _ hall => ⟨hall.1.plain, hall.2⟩
  refine follows_skip (of_decide_eq_true hmore) nofun (extent_follows.plain fun n v m hn _ => ?_)
  exact follows_expect nofun fun _ => follows_pure ⟨⟨rfl, rfl⟩, .intro hn⟩

theorem openExtent_follows : c.Follows [] l [] openExtent openExtent
    (Plain (Optional [.symbol .leftBracket, .symbol .rightBracket])) := by
  refine follows_peek ?_
  by_cases hopen : l.next.token = .symbol .leftBracket
  · rw [if_neg (not_not_intro hopen), if_neg (not_not_intro hopen)]
    refine follows_peekSecond hopen nofun ?_
    split
    · rename_i hclose
      refine follows_skip hopen nofun (follows_skip hclose nofun ?_)
      exact follows_pure ⟨⟨rfl, rfl⟩, .present rfl⟩
    · exact follows_pure ⟨⟨rfl, rfl⟩, .absent⟩
  · rw [if_pos hopen, if_pos hopen]
    exact follows_pure ⟨⟨rfl, rfl⟩, .absent⟩

theorem vars_follows : c.Follows [] l [] vars vars (Single .decl Vars) := by
  refine follows_expect nofun fun _ => declaredNames_follows.plain fun names w m hnames _ => ?_
  refine follows_expect nofun fun _ => scalarType_follows.plain ?_
  rintro ty _ m ⟨t, x, rfl, hty⟩ _
  refine extents_follows.plain fun sizes v m hsizes _ => follows_expect nofun fun _ => ?_
  refine follows_newDecl (.vars names ty sizes) ?_ rfl ?_
  · exact (declared hnames hty hsizes (within_true w)).extent
  · simpa [DeclNode.map, DeclNode.tree] using Vars.intro hnames hty hsizes

theorem parameterGroup_follows :
    c.Follows [] l [] parameterGroup parameterGroup (Plain Parameters) := by
  have hreference : c.Follows [] l [] (accept (.keyword .ref)) (accept (.keyword .ref))
      (Plain (Optional [.keyword .ref])) := by
    rw [← bind_pure (accept (.keyword .ref) : Phrase Completed Bool),
      ← bind_pure (accept (.keyword .ref) : Phrase B Bool)]
    refine follows_accept nofun (fun _ => ?_) fun _ => ?_
    · exact follows_pure ⟨⟨rfl, rfl⟩, .present rfl⟩
    · exact follows_pure ⟨⟨rfl, rfl⟩, .absent⟩
  refine hreference.plain fun byReference u m hreference _ => ?_
  refine declaredNames_follows.plain fun names w m hnames _ => follows_expect nofun fun _ => ?_
  refine scalarType_follows.plain ?_
  rintro ty _ m ⟨t, x, rfl, hty⟩ _
  refine openExtent_follows.plain fun isOpen z m hopening _ => ?_
  refine extents_follows.plain fun sizes v m hsizes _ => follows_pure ⟨⟨rfl, rfl⟩, ?_⟩
  simpa using Parameters.intro hreference hnames hty hopening hsizes

theorem header_follows : c.Follows [] l [] header header (Plain Head) := by
  refine follows_expect nofun fun _ => follows_declaredName fun f _ => ?_
  refine follows_expect nofun fun _ => ?_
  refine follows_listed nofun (fun l _ => parameterGroup_follows) (Nat.lt_succ_self _) ?_
  rintro groups groups' qs w m ⟨hall, hgroups⟩ _
  obtain ⟨rfl, rfl⟩ := hall.plain
  refine follows_expect nofun fun _ => follows_expect nofun fun _ => resultType_follows.plain ?_
  rintro ty _ m ⟨t, x, rfl, hty⟩ _
  refine follows_pure ⟨⟨rfl, rfl⟩, ?_⟩
  simpa using Head.intro (.intro hgroups) hty

theorem definitionOf_agrees {definition : Phrase Completed Decl} {definition' : Phrase B δ}
    (h : c.Agrees n definition definition' (Single .decl IsDefinition)) :
    c.Agrees (n + 1) (definitionOf definition) (definitionOf definition')
      (Single .decl IsDefinition) := by
  intro l hl
  refine header_follows.plain fun header w m hheader hm => ?_
  have hm := Lexemes.count_le hm
  have hpositive : header.Positive := fun group hgroup =>
    ((yields_head _ hheader (within_true w)).group group hgroup).extent
  refine follows_expect nofun fun hsemicolon => ?_
  have hlt := Lexemes.count_tail_lt hsemicolon nofun
  refine follows_accept nofun (fun _ => follows_expect nofun fun _ => ?_) fun _ => ?_
  · refine follows_newDecl (.forward header) hpositive rfl
      ⟨.inr ⟨?_, header, rfl⟩, trivial⟩
    simpa [DeclNode.map, DeclNode.tree] using Local.forward hheader
  · refine (agrees_many (R := fun d d' ps => ps = [.decl (d, d')])
      (K := fun w d => Local Grammar.Function w d ∧ d.NearestElse) (fun m' hm' _ => ?_) m.tail
      (Nat.lt_of_lt_of_le hlt (by omega : m.count ≤ n))).bind ?_
    · refine follows_peek ?_
      split
      · refine (h m' hm').imp ?_
        rintro d d' _ v _ ⟨rfl, hfunction | ⟨hforward, -⟩, hnearest⟩
        · exact ⟨rfl, .function hfunction, hnearest⟩
        · exact ⟨rfl, hforward, hnearest⟩
      · refine vars_follows.imp ?_
        rintro _ d' _ v _ ⟨rfl, hvars⟩
        refine ⟨rfl, .vars hvars, ?_⟩
        cases hvars
        trivial
    · rintro ds ds' qs v m1 ⟨hds, hlocals⟩ _
      obtain ⟨zs, rfl, rfl, rfl⟩ := hds.exists_zip
      refine body_follows.bind ?_
      rintro ss ss' qs _ m2 ⟨hss, u, z, closed, rfl, hbody, hclosing, hnearest⟩ _
      obtain ⟨ys, rfl, rfl, rfl⟩ := hss.exists_zip
      refine follows_newDecl (.function header zs ys) hpositive rfl
        ⟨.inl ?_, Decl.allNearestElse_iff.mpr hlocals.and.2, hnearest⟩
      simpa [DeclNode.map, DeclNode.tree] using
        Grammar.Function.intro hheader hlocals.and.1 hbody hclosing

theorem definition_agrees (n : Nat) :
    c.Agrees n definition definition (Single .decl IsDefinition) :=
  agrees_fix (fun _ _ _ => definitionOf_agrees) n

/-- A program is a function in front of an end mark. -/
theorem program_follows : c.Follows [] l [] program program fun d d' ps v m =>
    Single .decl Grammar.Function d d' ps v m ∧ d.NearestElse ∧ m.next.token = .eof := by
  refine follows_location ((definition_agrees _ l (Nat.lt_succ_self _)).bind ?_)
  rintro d d' _ v m ⟨rfl, hd, hnearest⟩ _
  refine follows_isForward fun isForward hforward => ?_
  cases isForward with
  | true => exact follows_throw
  | false =>
    refine follows_peek ?_
    split
    · rename_i heof
      refine follows_pure ⟨⟨rfl, hd.resolve_right fun h => ?_⟩, hnearest, heof⟩
      exact Bool.false_ne_true (hforward.mpr h.2)
    · exact follows_fail

/-! ### Recursion

Readers that call themselves are never refused the call. -/

theorem negation_eq : (negation : Phrase Completed Expr) = negationOf negation :=
  fix_eq (eq_of_single (.expr .condition) fun _ h => h) fun _ _ _ => negationOf_agrees

theorem statement_eq : (statement : Phrase Completed Stmt) = statementOf statement :=
  fix_eq (fun h => eq_of_single .stmt (fun _ h => h) h.1) fun _ _ _ => statementOf_agrees

theorem definition_eq : (definition : Phrase Completed Decl) = definitionOf definition :=
  fix_eq (eq_of_single .decl fun _ h => h) fun _ _ _ => definitionOf_agrees

end Phrase

end BlockLang
