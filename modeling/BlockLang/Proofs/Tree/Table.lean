import BlockLang.Proofs.Phrase.Coupled

/-!
# Trees in tables

A node that is added to a table has the tree of its parts there, and keeps it while the table is
filled further. So a text is read into a table as it is read into a tree.
-/

namespace BlockLang

open List NodeTable

/-- A node that was added is followed to its parts. -/
theorem NodeTable.followed_push {α β : Type} {a nodes : Array α} {x : α} {missing : Nat → β}
    {tree : (Nat → β) → α → β} {n : Nat} (h : (a.push x).toList <+: nodes.toList)
    (hn : (a.push x).size ≤ n) :
    ∃ m, a.size ≤ m ∧
      followed nodes missing tree n a.size = tree (followed nodes missing tree m) x := by
  rw [Array.size_push] at hn
  obtain ⟨m, rfl⟩ := Nat.exists_eq_add_of_lt hn
  obtain ⟨rest, hrest⟩ := h
  have hx : nodes[a.size]? = some x := by
    rw [← Array.getElem?_toList, ← hrest]
    simp
  refine ⟨a.size + m, Nat.le_add_right .., ?_⟩
  rw [followed, hx]

namespace Draft

/-- The nodes of a draft are the first ones of a table. -/
structure Within (d : Draft) (t : NodeTable) : Prop where
  exprs : d.exprs.toList <+: t.exprs.toList
  stmts : d.stmts.toList <+: t.stmts.toList
  decls : d.decls.toList <+: t.decls.toList

theorem within_table (d : Draft) (root : Nat) : d.Within (d.table root) :=
  ⟨prefix_rfl, prefix_rfl, prefix_rfl⟩

theorem prefix_push {α : Type} (a : Array α) (x : α) : a.toList <+: (a.push x).toList :=
  Array.toList_push ▸ prefix_append _ _

/-- A part of a draft has its tree in a table. -/
def Shows (d : Draft) (t : NodeTable) : Part (Expr × Nat) (Stmt × Nat) (Decl × Nat) → Prop
  | .expr _ e => ∀ n, d.exprs.size ≤ n → t.expr n e.2 = e.1
  | .stmt s => ∀ n, d.stmts.size ≤ n → t.stmt n s.2 = s.1
  | .decl k => ∀ n, d.decls.size ≤ n → t.decl n k.2 = k.1

theorem Shows.mono {d d' : Draft} {t : NodeTable} {p} (h : d.Shows t p)
    (hd : d.Within (d'.table 0)) : d'.Shows t p := by
  cases p with
  | expr => exact fun n hn => h n (Nat.le_trans hd.exprs.length_le hn)
  | stmt => exact fun n hn => h n (Nat.le_trans hd.stmts.length_le hn)
  | decl => exact fun n hn => h n (Nat.le_trans hd.decls.length_le hn)

/-- A tree is built beside a draft. It is that of every table that the draft may become. -/
def tables : Coupling Draft where
  toLikeness := .refl
  Made ps s s' := ∀ t, s'.2.Within t → s.2.Within t ∧ ∀ p ∈ ps, s'.2.Shows t p
  made_nil _ _ ht := ⟨ht, nofun⟩
  made_append {ps qs s s1 s2} h h' t ht := by
    obtain ⟨ht1, hqs⟩ := h' t ht
    obtain ⟨hs, hps⟩ := h t ht1
    have hwithin := (h' _ (within_table s2.2 0)).1
    exact ⟨hs, forall_mem_append.mpr ⟨fun p hp => (hps p hp).mono hwithin, hqs⟩⟩
  made_value _ h t ht :=
    ⟨(h t ht).1, forall_mem_singleton.mpr ((h t ht).2 _ (mem_singleton_self _) :)⟩
  made_expr node x _ h t ht := by
    obtain ⟨hs, hparts⟩ := h t { ht with exprs := (prefix_push ..).trans ht.exprs }
    refine ⟨hs, forall_mem_singleton.mpr fun n hn => ?_⟩
    obtain ⟨m, hm, hfollowed⟩ := followed_push ht.exprs hn
    refine hfollowed.trans (congrArg (ExprNode.tree x) ?_)
    rw [ExprNode.map_map]
    exact ExprNode.map_congr fun u e he => hparts (.expr u e) he m hm
  made_stmt node x h t ht := by
    obtain ⟨hs, hparts⟩ := h t { ht with stmts := (prefix_push ..).trans ht.stmts }
    refine ⟨hs, forall_mem_singleton.mpr fun n hn => ?_⟩
    obtain ⟨m, hm, hfollowed⟩ := followed_push ht.stmts hn
    refine hfollowed.trans (congrArg (StmtNode.tree x) ?_)
    rw [StmtNode.map_map]
    exact StmtNode.map_congr (fun u e he => hparts (.expr u e) he _ ht.exprs.length_le)
      fun a ha => hparts (.stmt a) ha m hm
  made_decl node _ h t ht := by
    obtain ⟨hs, hparts⟩ := h t { ht with decls := (prefix_push ..).trans ht.decls }
    refine ⟨hs, forall_mem_singleton.mpr fun n hn => ?_⟩
    obtain ⟨m, hm, hfollowed⟩ := followed_push ht.decls hn
    refine hfollowed.trans (congrArg DeclNode.tree ?_)
    rw [DeclNode.map_map]
    exact DeclNode.map_congr (fun a ha => hparts (.stmt a) ha _ ht.stmts.length_le)
      fun k hk => hparts (.decl k) hk m hm
  isForward_eq {k s s'} h := by
    have hshows := (h _ (within_table _ 0)).2 _ (mem_singleton_self _) _ (Nat.le_succ _)
    rw [← hshows, NodeTable.decl, followed]
    dsimp only [table, Building.isForward]
    cases s'.2.decls[k.2]? with
    | none => rfl
    | some node => cases node <;> rfl
  made_giveUp h t ht := ⟨(h t { ht with }).1, nofun⟩

/-- A text is read into a table that stands for its tree, or refused for the same reason. -/
theorem program_read (lexemes : List Lexeme) :
    (read lexemes).1.map (fun root => ((read lexemes).2.table root).program) =
      (Decl.read lexemes).1.map some := by
  have hrun := Phrase.program_follows (c := tables) (l := .start lexemes) ([], {}) ([], {}) _
    (tables.made_nil _) rfl
  unfold read Decl.read
  dsimp only at hrun ⊢
  generalize Phrase.program _ ([] : Completed) = first at hrun ⊢
  generalize Phrase.program _ ({} : Draft) = second at hrun ⊢
  cases hrun with
  | error => rfl
  | @ok _ root _ _ _ _ _ draft holds made =>
    obtain ⟨⟨rfl, -⟩, -⟩ := holds
    have hshows := (made _ (within_table draft root)).2 _ (mem_singleton_self _)
    exact congrArg (Except.ok ∘ some) (hshows _ (Nat.le_refl _))

end Draft

end BlockLang
