import BlockLang.Proofs.Token.Spelling

/-!
# What is no token

A text that cannot be read holds a character that starts nothing, a comment without an end, an
integer that is too large, or a literal that goes wrong: with an escape that does not exist, with
a character that has no place in it, or without its closing quote. The cause says which.
-/

namespace BlockLang.Token

open List Option ScanError

variable {cause : Cause} {c : Char} {cs : List Char}

/-- The characters after a backslash are no escape. -/
inductive BadEscape : List Char → Cause → Prop
  | none : BadEscape [] .openEscape
  | short {c : Char} {rest : List Char} (hx : c ≠ 'x')
      (hc : ∀ b, (b, c) ∉ EscapeStyle.literal.short) : BadEscape (c :: rest) (.unknownEscape c)
  | number {cs : List Char} (hcs : ∀ e b rest, Escapes e b rest → 'x' :: cs ≠ e ++ rest) :
      BadEscape ('x' :: cs) (.unknownNumberEscape (cs.take 2))

/-- The contents of a string literal cannot go on. -/
inductive BadText : List Char → Cause → Prop
  | ended {cs : List Char} (h : ∀ c ∈ cs.head?, c = '\n') : BadText cs .openString
  | character {c : Char} {rest : List Char} (h : 128 ≤ c.toNat) :
      BadText (c :: rest) (.characterBeyondAscii c)
  | byte {e rest : List Char} {b : UInt8} (he : Escapes e b rest) (hb : 128 ≤ b) :
      BadText ('\\' :: (e ++ rest)) .escapeBeyondAscii
  | escape {cs : List Char} {cause : Cause} (h : BadEscape cs cause) : BadText ('\\' :: cs) cause

/-- A text starts with something that is no token, no blank and no comment. -/
inductive Malformed : List Char → Cause → Prop
  | character {c : Char} {rest : List Char}
      (h : ∀ cs token? rest', Spells (c :: cs) token? rest' → False) :
      Malformed (c :: rest) (.unknownCharacter c)
  | slash {rest : List Char} (h : ∀ c ∈ rest.head?, c ≠ '/' ∧ c ≠ '*') :
      Malformed ('/' :: rest) (.unknownCharacter '/')
  | comment {rest : List Char} (h : ¬ commentEnd <:+: rest) :
      Malformed ('/' :: '*' :: rest) .openComment
  | int {c : Char} {cs rest : List Char} (hcs : ∀ d ∈ c :: cs, d.isDigit)
      (hrest : ∀ d ∈ rest.head?, ¬ d.isDigit) (hvalue : 2 ^ 31 ≤ decimalValue (c :: cs)) :
      Malformed (c :: cs ++ rest) (.largeInteger (c :: cs))
  | string {cs contents rest : List Char} {cause : Cause} (hcs : SpellsText cs contents rest)
      (hrest : BadText rest cause) : Malformed ('"' :: (cs ++ rest)) cause
  | escape {cs : List Char} {cause : Cause} (h : BadEscape cs cause) :
      Malformed ('\'' :: '\\' :: cs) cause
  | byte {cs : List Char} (h : ∀ c ∈ cs.head?, c = '\'' ∨ c = '\n' ∨ 128 ≤ c.toNat) :
      Malformed ('\'' :: cs) .badCharacter
  | quote {cs rest : List Char} {b : UInt8} (hcs : SpellsByte cs b rest)
      (hrest : rest.head? ≠ some '\'') : Malformed ('\'' :: (cs ++ rest)) .openCharacter

/-- Of two steps in a row, one fails if both together do. -/
theorem of_bind_eq_error {ε α β : Type} {x : Except ε α} {f : α → Except ε β} {e : ε}
    (h : x >>= f = .error e) : x = .error e ∨ ∃ a, x = .ok a ∧ f a = .error e := by
  cases x with
  | error e' =>
    cases h
    exact .inl rfl
  | ok a => exact .inr ⟨a, rfl, h⟩

theorem badEscape_of_takeEscape (h : takeEscape cs = .error cause) : BadEscape cs cause := by
  match cs with
  | [] =>
    cases h
    exact .none
  | c :: more =>
    by_cases hx : c = 'x'
    · subst hx
      have hnone : ∀ e b rest, Escapes e b rest → 'x' :: more ≠ e ++ rest := by
        intro e b rest he heq
        rw [heq, he.takeEscape_eq] at h
        cases h
      rw [takeEscape] at h
      split at h
      · cases h
      · cases h
        exact .number hnone
    · rw [takeEscape.eq_3 _ _ (by simpa using hx)] at h
      split at h
      · cases h
      · rename_i hnone
        cases h
        refine .short hx fun b hb => ?_
        rw [shortEscape?_eq_some_iff.mpr hb] at hnone
        cases hnone

/-- Where the contents of a string literal cannot be read, some of them can. -/
theorem exists_of_takeString (h : takeString cs = .error cause) :
    ∃ text contents rest, cs = text ++ rest ∧ SpellsText text contents rest ∧
      BadText rest cause := by
  fun_induction takeString cs with
  | case1 =>
    cases h
    exact ⟨[], [], [], rfl, .nil, .ended (by simp)⟩
  | case2 => cases h
  | case3 more ih =>
    obtain hescape | ⟨⟨b, taken⟩, hescape, h⟩ := of_bind_eq_error h
    · exact ⟨[], [], _, rfl, .nil, .escape (badEscape_of_takeEscape hescape)⟩
    obtain ⟨e, hmore, rfl, hescapes⟩ := exists_of_takeEscape hescape
    dsimp only at h
    split at h
    · rename_i hascii
      obtain hothers | ⟨_, -, h⟩ := of_bind_eq_error h
      · obtain ⟨text, contents, rest, hdrop, htext, hrest⟩ := ih e.length hothers
        rw [hdrop] at hmore hescapes
        refine ⟨'\\' :: (e ++ text), _, rest, ?_, .escape hescapes hascii htext, hrest⟩
        rw [hmore, cons_append, append_assoc]
      · cases h
    · rename_i hascii
      cases h
      rw [hmore]
      exact ⟨[], [], _, rfl, .nil, .byte hescapes (UInt8.not_lt.mp hascii)⟩
  | case4 =>
    cases h
    refine ⟨[], [], _, rfl, .nil, .ended fun c hc => ?_⟩
    cases hc
    rfl
  | case5 c more hquote hescape hline hascii ih =>
    obtain hothers | ⟨_, -, h⟩ := of_bind_eq_error h
    · obtain ⟨text, contents, rest, rfl, htext, hrest⟩ := ih hothers
      exact ⟨c :: text, _, rest, rfl, .plain hascii hquote hline hescape htext, hrest⟩
    · cases h
  | case6 c more _ _ _ hascii =>
    cases h
    exact ⟨[], [], _, rfl, .nil, .character (Nat.le_of_not_lt hascii)⟩

theorem malformed_of_takeCharacter (h : takeCharacter cs = .error cause) :
    Malformed ('\'' :: cs) cause := by
  obtain hbyte | ⟨⟨b, taken⟩, hbyte, h⟩ := of_bind_eq_error h
  · match cs with
    | [] =>
      cases hbyte
      exact .byte nofun
    | c :: more =>
      by_cases hescape : c = '\\'
      · subst hescape
        obtain hread | ⟨_, -, h⟩ := of_bind_eq_error hbyte
        · exact .escape (badEscape_of_takeEscape hread)
        · cases h
      · rw [takeByte.eq_2 _ _ (by simpa using hescape)] at hbyte
        split at hbyte
        · cases hbyte
        · rename_i hc
          cases hbyte
          refine .byte fun d hd => ?_
          cases hd
          by_contra hnot
          push Not at hnot
          exact hc ⟨hnot.2.2, hnot.1, hnot.2.1⟩
  · dsimp only at h
    split at h
    · cases h
    · rename_i hquote
      cases h
      have hspells := spellsByte_of_takeByte hbyte
      rw [← take_append_drop taken cs]
      exact .quote hspells hquote

/-- Where no end of a block comment is found there is none. -/
theorem not_infix_of_takeBlockComment {s : Scanner} (h : takeBlockComment cs s = .error cause) :
    cause = .openComment ∧ ¬ commentEnd <:+: cs := by
  fun_induction takeBlockComment cs s with
  | case1 =>
    cases h
    exact ⟨rfl, by decide⟩
  | case2 => cases h
  | case3 c cs _ hstart ih =>
    obtain hrest | ⟨_, -, h⟩ := of_bind_eq_error h
    · obtain ⟨rfl, hnot⟩ := ih hrest
      refine ⟨rfl, fun hinside => ?_⟩
      obtain hprefix | hinside := infix_cons_iff.mp hinside
      · obtain ⟨hc, tail, rfl⟩ := cons_prefix_cons.mp hprefix
        exact hstart tail hc.symm rfl
      · exact hnot hinside
    · cases h

theorem malformed_of_takeComment {s : Scanner} (h : takeComment cs s = .error cause) :
    Malformed ('/' :: cs) cause := by
  unfold takeComment at h
  split at h
  · cases h
  · obtain hblock | ⟨_, -, h⟩ := of_bind_eq_error h
    · obtain ⟨rfl, hnot⟩ := not_infix_of_takeBlockComment hblock
      exact .comment hnot
    · cases h
  · rename_i hline hblock
    cases h
    refine .slash fun c hc => ?_
    obtain ⟨rest, rfl⟩ := head?_eq_some_iff.mp hc
    exact ⟨fun heq => hline rest (by rw [heq]), fun heq => hblock rest (by rw [heq])⟩

/-- A character that starts a symbol starts one wherever it stands. -/
theorem takeSymbol?_ne_none {s : Symbol} (h : s.Spelled (c :: cs)) (rest : List Char) :
    takeSymbol? c rest ≠ none := by
  have hnil : takeSymbol? c [] ≠ none := by
    obtain h | ⟨rfl, h⟩ := h
    · cases s <;> cases h <;> exact some_ne_none _
    · cases h
      exact some_ne_none _
  cases rest with
  | nil => exact hnil
  | cons d rest =>
    by_cases hpair : ∃ s' : Symbol, s'.Spelled [c, d]
    · obtain ⟨s', hs'⟩ := hpair
      rw [takeSymbol?_pair hs']
      exact some_ne_none _
    · rwa [takeSymbol?_cons (not_exists.mp hpair)]

/-- Where no token, blank or comment starts, a text is malformed. -/
theorem malformed_of_takeToken (hblank : ¬ isBlank c) (hslash : c ≠ '/')
    (h : takeToken c cs = .error cause) : Malformed (c :: cs) cause := by
  unfold takeToken at h
  split at h
  · rename_i hdigit
    obtain hlarge | ⟨t, -, h⟩ := of_bind_eq_error h
    · unfold ofDigits at hlarge
      dsimp only at hlarge
      split at hlarge
      · cases hlarge
      · rename_i hvalue
        cases hlarge
        have hmalformed : Malformed (c :: cs.takeWhile Char.isDigit ++ cs.dropWhile Char.isDigit)
            (.largeInteger (c :: cs.takeWhile Char.isDigit)) :=
          .int (forall_mem_cons.mpr ⟨hdigit, fun d hd => mem_takeWhile_imp hd⟩)
            (forall_head?_dropWhile _ cs) (Nat.le_of_not_lt hvalue)
        rwa [cons_append, takeWhile_append_dropWhile] at hmalformed
    · cases h
  split at h
  · cases h
  split at h
  · rename_i hquote
    subst hquote
    obtain hstring | ⟨_, -, h⟩ := of_bind_eq_error h
    · obtain ⟨text, contents, rest, rfl, htext, hrest⟩ := exists_of_takeString hstring
      exact .string htext hrest
    · cases h
  split at h
  · rename_i hquote
    subst hquote
    exact malformed_of_takeCharacter h
  split at h
  · cases h
  · rename_i hdigit halpha hquote hquote' _ hsymbol
    cases h
    refine .character fun cs' token? rest' hspells => ?_
    generalize hspelling : c :: cs' = spelling at hspells
    cases hspells with
    | blank hc =>
      cases hspelling
      exact hblank hc
    | lineComment => cases hspelling; exact hslash rfl
    | blockComment => cases hspelling; exact hslash rfl
    | symbol hcs =>
      subst hspelling
      exact takeSymbol?_ne_none hcs cs hsymbol
    | @keyword k =>
      obtain ⟨c', cs', hk, hc, -⟩ := k.isWord_text
      cases hspelling.trans hk
      exact halpha hc
    | name hc =>
      cases hspelling
      exact halpha hc
    | int hcs =>
      cases hspelling
      exact hdigit (hcs c mem_cons_self)
    | char => cases hspelling; exact hquote' rfl
    | string => cases hspelling; exact hquote rfl

/-- Where nothing can be taken from the front of a text, it is malformed there. -/
theorem malformed_of_take {s : Scanner} (h : take c cs s = .error cause) :
    Malformed (c :: cs) cause := by
  unfold take at h
  split_ifs at h with hblank hslash
  · subst hslash
    obtain hcomment | ⟨_, -, h⟩ := of_bind_eq_error h
    · exact malformed_of_takeComment hcomment
    · cases h
  · obtain htoken | ⟨_, -, h⟩ := of_bind_eq_error h
    · exact malformed_of_takeToken hblank hslash htoken
    · cases h

end BlockLang.Token
