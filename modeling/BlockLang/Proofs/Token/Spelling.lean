import BlockLang.Token.Scan
import Mathlib.Algebra.Group.Nat.Defs
import Mathlib.Data.List.Infix
import Mathlib.Data.List.TakeWhile

/-!
# The spellings of tokens

A token has one spelling or several: an integer may start with zeros, inequality has two
signs, and a byte in a literal stands for itself or is escaped. Which characters spell a token
depends on the next one, too, because a part of a text is as long as it can be.
-/

namespace BlockLang

open Bool Char EscapeStyle Except List Option

variable {c d : Char} {contents cs rest : List Char} {n : Nat} {token? : Option Token} {s : Symbol}
  {b : UInt8}

/-- The characters of a symbol. Inequality is written in two ways. -/
def Symbol.Spelled (s : Symbol) (cs : List Char) : Prop :=
  cs = s.text.toList ∨ s = .notEqual ∧ cs = ['<', '>']

theorem Symbol.length_le_two_of_spelled (h : s.Spelled cs) : cs.length ≤ 2 := by
  obtain rfl | ⟨-, rfl⟩ := h
  · cases s <;> decide
  · decide

theorem Keyword.ofText?_text (k : Keyword) : ofText? k.text = some k := by
  cases k <;> decide +kernel

/-- A keyword starts with a letter and goes on as a word. -/
theorem Keyword.isWord_text (k : Keyword) : ∃ c cs, k.text.toList = c :: cs ∧ c.isAlpha ∧
    ∀ d ∈ cs, Token.isWordRest d := by
  cases k <;> exact ⟨_, _, rfl, by decide, all_eq_true.mp (by decide)⟩

namespace Scanner

/-- Reading goes over a character. -/
def after (s : Scanner) (c : Char) : Scanner :=
  if c = '\n' then (s.advance 1).newline else s.advance 1

/-- Reading goes over a piece of text. -/
def past (s : Scanner) (cs : List Char) : Scanner := cs.foldl after s

theorem advance_advance (s : Scanner) (m n : Nat) :
    (s.advance m).advance n = s.advance (n + m) := by
  rw [advance, advance, advance, Nat.add_assoc, Nat.add_comm m]

/-- Within a line only the cursor moves. -/
theorem past_eq_advance (s : Scanner) (h : '\n' ∉ cs) : s.past cs = s.advance cs.length := by
  induction cs generalizing s with
  | nil => rfl
  | cons c cs ih =>
    obtain ⟨hc, hcs⟩ := not_or.mp (mt mem_cons.mpr h)
    rw [past, foldl_cons, after, if_neg (Ne.symm hc)]
    exact (ih (s.advance 1) hcs).trans (s.advance_advance 1 cs.length)

end Scanner

namespace Token

/-! ### Spellings -/

/-- The characters after a backslash that stand for a byte, with what follows them. A number
has two digits, the first of which may be a plus sign; only the end of the text makes it
shorter. -/
inductive Escapes : List Char → UInt8 → List Char → Prop
  | short {b : UInt8} {c : Char} {rest : List Char} (h : (b, c) ∈ literal.short) :
      Escapes [c] b rest
  | number {c d : Char} {high low : Nat} {rest : List Char} (hc : hexValue? c = some high)
      (hd : hexValue? d = some low) : Escapes ['x', c, d] (16 * high + low).toUInt8 rest
  | signed {c : Char} {low : Nat} {rest : List Char} (hc : hexValue? c = some low) :
      Escapes ['x', '+', c] low.toUInt8 rest
  | digit {c : Char} {low : Nat} (hc : hexValue? c = some low) : Escapes ['x', c] low.toUInt8 []

/-- The characters that stand for the byte of a character literal, with what follows them. -/
inductive SpellsByte : List Char → UInt8 → List Char → Prop
  | plain {c : Char} {rest : List Char} (hascii : c.toNat < 128) (hquote : c ≠ '\'')
      (hline : c ≠ '\n') (hescape : c ≠ '\\') : SpellsByte [c] c.toNat.toUInt8 rest
  | escape {e rest : List Char} {b : UInt8} (h : Escapes e b rest) : SpellsByte ('\\' :: e) b rest

/-- The characters that stand for characters of a string literal, with what follows them. -/
inductive SpellsText : List Char → List Char → List Char → Prop
  | nil {rest : List Char} : SpellsText [] [] rest
  | plain {c : Char} {cs contents rest : List Char} (hascii : c.toNat < 128) (hquote : c ≠ '"')
      (hline : c ≠ '\n') (hescape : c ≠ '\\') (h : SpellsText cs contents rest) :
      SpellsText (c :: cs) (c :: contents) rest
  | escape {e cs contents rest : List Char} {b : UInt8} (hescape : Escapes e b (cs ++ rest))
      (hascii : b < 128) (h : SpellsText cs contents rest) :
      SpellsText ('\\' :: (e ++ cs)) (.ofNat b.toNat :: contents) rest

/-- The end of a block comment. -/
def commentEnd : List Char := ['*', '/']

/-- Characters in front of others stand for a token, or for none if they are a blank or a
comment. They could not go on with the next character. -/
inductive Spells : List Char → Option Token → List Char → Prop
  | blank {c : Char} {rest : List Char} (hc : isBlank c) : Spells [c] none rest
  | lineComment {cs rest : List Char} (hcs : ∀ c ∈ cs, c ≠ '\n')
      (hrest : ∀ c ∈ rest.head?, c = '\n') : Spells ('/' :: '/' :: cs) none rest
  | blockComment {cs rest : List Char} (hcs : ¬ commentEnd <:+: cs ++ ['*']) :
      Spells ('/' :: '*' :: (cs ++ commentEnd)) none rest
  | symbol {s : Symbol} {cs rest : List Char} (hcs : s.Spelled cs)
      (hrest : ∀ c ∈ rest.head?, ∀ s' : Symbol, ¬ s'.Spelled (cs ++ [c])) :
      Spells cs (some (.symbol s)) rest
  | keyword {k : Keyword} {rest : List Char} (hrest : ∀ c ∈ rest.head?, ¬ isWordRest c) :
      Spells k.text.toList (some (.keyword k)) rest
  | name {c : Char} {cs rest : List Char} (hc : c.isAlpha) (hcs : ∀ d ∈ cs, isWordRest d)
      (hkeyword : ∀ k : Keyword, k.text.toList ≠ c :: cs)
      (hrest : ∀ d ∈ rest.head?, ¬ isWordRest d) :
      Spells (c :: cs) (some (.name (.ofList (c :: cs)))) rest
  | int {c : Char} {cs rest : List Char} (hcs : ∀ d ∈ c :: cs, d.isDigit)
      (hvalue : decimalValue (c :: cs) < 2 ^ 31) (hrest : ∀ d ∈ rest.head?, ¬ d.isDigit) :
      Spells (c :: cs) (some (.int (.ofNat (decimalValue (c :: cs))))) rest
  | char {cs rest : List Char} {b : UInt8} (h : SpellsByte cs b ('\'' :: rest)) :
      Spells ('\'' :: (cs ++ ['\''])) (some (.char b)) rest
  | string {cs contents rest : List Char} (h : SpellsText cs contents ('"' :: rest)) :
      Spells ('"' :: (cs ++ ['"'])) (some (.string (.ofList contents))) rest

/-- Of two steps in a row, the first gives something if the second does. -/
theorem exists_of_bind_eq_ok {ε α β : Type} {x : Except ε α} {f : α → Except ε β} {b : β}
    (h : x >>= f = .ok b) : ∃ a, x = .ok a ∧ f a = .ok b := by
  cases x with
  | error e => cases h
  | ok a => exact ⟨a, rfl, h⟩

section Runs

variable {p : Char → Bool} {cs rest : List Char}

/-- The run of characters of a kind in front of a text, and what comes after it. -/
theorem split_takeWhile (p : Char → Bool) (cs : List Char) :
    cs.take (cs.takeWhile p).length = cs.takeWhile p ∧
      cs.drop (cs.takeWhile p).length = cs.dropWhile p := by
  have hprefix : cs.takeWhile p <+: cs := takeWhile_prefix p
  have htake : cs.take (cs.takeWhile p).length = cs.takeWhile p :=
    (prefix_iff_eq_take.mp hprefix).symm
  refine ⟨htake, ?_⟩
  nth_rewrite 2 [← takeWhile_append_dropWhile (p := p) (l := cs)]
  exact drop_left

theorem forall_head?_dropWhile (p : Char → Bool) (cs : List Char) :
    ∀ c ∈ (cs.dropWhile p).head?, ¬ p c := by
  intro c hc
  have hnot := head?_dropWhile_not p cs
  rw [hc] at hnot
  simpa using hnot

theorem takeWhile_append_of_head? (hcs : ∀ c ∈ cs, p c) (hrest : ∀ c ∈ rest.head?, ¬ p c) :
    (cs ++ rest).takeWhile p = cs := by
  rw [takeWhile_append_of_pos hcs]
  cases rest with
  | nil => exact append_nil cs
  | cons c rest => rw [takeWhile_cons_of_neg (hrest c rfl), append_nil]

end Runs

/-! ### Escapes -/

theorem hexValue?_plus : hexValue? '+' = none := by decide

/-- The escapes of one character that are read are those that are written. -/
theorem shortEscape?_eq_some_iff : shortEscape? c = some b ↔ (b, c) ∈ literal.short := by
  constructor
  · intro h
    unfold shortEscape? at h
    split at h <;> cases h <;> decide
  · have htable : ∀ entry ∈ literal.short, shortEscape? entry.2 = some entry.1 := by decide
    exact htable (b, c)

/-- The digits of a number after a backslash are the next two characters, as far as they are
there. -/
theorem takeEscape_number (cs : List Char) :
    takeEscape ('x' :: cs) = .ok (b, n) ↔
      numberEscape? (cs.take 2) = some b ∧ (cs.take 2).length + 1 = n := by
  rw [takeEscape]
  cases numberEscape? (cs.take 2) <;> simp

theorem numberEscape?_pair (hc : c ≠ '+') (d : Char) :
    numberEscape? [c, d] = some b ↔ ∃ high low, hexValue? c = some high ∧
      hexValue? d = some low ∧ (16 * high + low).toUInt8 = b := by
  rw [numberEscape?.eq_3 _ _ hc]
  simp [bind_eq_some_iff]

/-- What is read after a backslash is an escape. -/
theorem escapes_of_takeEscape (h : takeEscape cs = .ok (b, n)) :
    Escapes (cs.take n) b (cs.drop n) := by
  match cs with
  | [] => cases h
  | c :: more =>
    by_cases hx : c = 'x'
    · subst hx
      obtain ⟨hb, rfl⟩ := (takeEscape_number more).mp h
      match more with
      | [] => cases hb
      | [c] =>
        obtain ⟨low, hlow, rfl⟩ := map_eq_some_iff.mp hb
        exact .digit hlow
      | c :: d :: rest =>
        by_cases hplus : c = '+'
        · subst hplus
          obtain ⟨low, hlow, rfl⟩ := map_eq_some_iff.mp hb
          exact .signed hlow
        · obtain ⟨high, low, hhigh, hlow, rfl⟩ := (numberEscape?_pair hplus d).mp hb
          exact .number hhigh hlow
    · rw [takeEscape.eq_3 _ _ (by simpa using hx)] at h
      split at h
      · rename_i hshort
        cases h
        exact .short (shortEscape?_eq_some_iff.mp hshort)
      · cases h

/-- An escape is read after a backslash. -/
theorem Escapes.takeEscape_eq {e : List Char} (h : Escapes e b rest) :
    takeEscape (e ++ rest) = .ok (b, e.length) := by
  cases h with
  | @short _ c _ h =>
    have hx : ∀ entry ∈ literal.short, entry.2 ≠ 'x' := by decide
    rw [singleton_append, takeEscape.eq_3 _ _ (by simpa using hx _ h),
      shortEscape?_eq_some_iff.mpr h]
    rfl
  | @number c d high low _ hc hd =>
    have hplus : c ≠ '+' := by
      rintro rfl
      cases hexValue?_plus.symm.trans hc
    exact (takeEscape_number _).mpr
      ⟨(numberEscape?_pair hplus d).mpr ⟨high, low, hc, hd, rfl⟩, rfl⟩
  | @signed c low _ hc =>
    exact (takeEscape_number _).mpr ⟨map_eq_some_iff.mpr ⟨low, hc, rfl⟩, rfl⟩
  | @digit c low hc =>
    exact (takeEscape_number _).mpr ⟨map_eq_some_iff.mpr ⟨low, hc, rfl⟩, rfl⟩

/-! ### Literals -/

/-- What is read as the byte of a character literal spells it. -/
theorem spellsByte_of_takeByte (h : takeByte cs = .ok (b, n)) :
    SpellsByte (cs.take n) b (cs.drop n) := by
  match cs with
  | [] => cases h
  | c :: more =>
    by_cases hescape : c = '\\'
    · subst hescape
      obtain ⟨⟨b', taken⟩, hread, heq⟩ := exists_of_bind_eq_ok h
      cases heq
      exact .escape (escapes_of_takeEscape hread)
    · rw [takeByte.eq_2 _ _ (by simpa using hescape)] at h
      split at h
      · rename_i hc
        cases h
        exact .plain hc.1 hc.2.1 hc.2.2 hescape
      · cases h

theorem SpellsByte.takeByte_eq (h : SpellsByte cs b rest) :
    takeByte (cs ++ rest) = .ok (b, cs.length) := by
  cases h with
  | plain hascii hquote hline hescape =>
    rw [singleton_append, takeByte.eq_2 _ _ (by simpa using hescape),
      if_pos ⟨hascii, hquote, hline⟩]
    rfl
  | escape h =>
    rw [cons_append, takeByte, h.takeEscape_eq]
    rfl

/-- What is read as a character literal spells it. -/
theorem spells_of_takeCharacter {t : Token} (h : takeCharacter cs = .ok (t, n)) :
    Spells ('\'' :: cs.take n) (some t) (cs.drop n) := by
  obtain ⟨⟨b, taken⟩, hbyte, h⟩ := exists_of_bind_eq_ok h
  dsimp only at h
  split at h
  · rename_i hquote
    cases h
    obtain ⟨rest, hrest⟩ := head?_eq_some_iff.mp hquote
    have hspells := spellsByte_of_takeByte hbyte
    rw [hrest] at hspells
    have htake : cs.take (taken + 1) = cs.take taken ++ ['\''] := by
      rw [take_add_one, ← head?_drop, hquote]
      rfl
    have hdrop : cs.drop (taken + 1) = rest := by
      rw [← drop_drop, hrest]
      rfl
    rw [htake, hdrop]
    exact .char hspells
  · cases h

theorem SpellsByte.takeCharacter_eq (h : SpellsByte cs b ('\'' :: rest)) :
    takeCharacter (cs ++ '\'' :: rest) = .ok (.char b, cs.length + 1) := by
  rw [takeCharacter, h.takeByte_eq]
  change (if ((cs ++ '\'' :: rest).drop cs.length).head? = some '\'' then _ else _) = _
  rw [drop_left, head?_cons, if_pos rfl]
  rfl

/-- An escape is a part of the text. -/
theorem exists_of_takeEscape (h : takeEscape cs = .ok (b, n)) :
    ∃ e, cs = e ++ cs.drop n ∧ n = e.length ∧ Escapes e b (cs.drop n) := by
  have hescapes := escapes_of_takeEscape h
  have hread := hescapes.takeEscape_eq
  rw [take_append_drop, h] at hread
  exact ⟨cs.take n, (take_append_drop n cs).symm, congrArg Prod.snd (ok.inj hread),
    hescapes⟩

/-- What is read as the contents of a string literal spells them. -/
theorem spellsText_of_takeString (h : takeString cs = .ok (contents, n)) :
    ∃ text rest, cs = text ++ '"' :: rest ∧
      n = text.length + 1 ∧ SpellsText text contents ('"' :: rest) := by
  fun_induction takeString cs generalizing contents n with
  | case1 => cases h
  | case2 rest =>
    cases h
    exact ⟨[], rest, rfl, rfl, .nil⟩
  | case3 more ih =>
    obtain ⟨⟨b, taken⟩, hescape, h⟩ := exists_of_bind_eq_ok h
    dsimp only at h
    split at h
    · rename_i hascii
      obtain ⟨⟨others, m⟩, hothers, h⟩ := exists_of_bind_eq_ok h
      cases h
      obtain ⟨e, hmore, rfl, hescapes⟩ := exists_of_takeEscape hescape
      obtain ⟨text, rest, hdrop, rfl, htext⟩ := ih e.length hothers
      rw [hdrop] at hmore hescapes
      refine ⟨'\\' :: (e ++ text), rest, ?_, ?_, .escape hescapes hascii htext⟩
      · rw [hmore, cons_append, append_assoc]
      · rw [length_cons, length_append]
        omega
    · cases h
  | case4 => cases h
  | case5 c more hquote hescape hline hascii ih =>
    obtain ⟨⟨others, m⟩, hothers, h⟩ := exists_of_bind_eq_ok h
    cases h
    obtain ⟨text, rest, rfl, rfl, htext⟩ := ih hothers
    exact ⟨c :: text, rest, rfl, rfl, .plain hascii hquote hline hescape htext⟩
  | case6 => cases h

theorem SpellsText.takeString_eq {text : List Char} (h : SpellsText text contents ('"' :: rest)) :
    takeString (text ++ '"' :: rest) = .ok (contents, text.length + 1) := by
  generalize hend : '"' :: rest = tail at h
  induction h with
  | nil =>
    subst hend
    rw [List.nil_append, takeString]
    rfl
  | @plain c cs contents _ hascii hquote hline hescape h ih =>
    rw [List.cons_append, takeString.eq_4 _ _ hquote hescape, if_neg hline, if_pos hascii, ih hend]
    rfl
  | @escape e cs contents _ b hescape hascii h ih =>
    subst hend
    rw [List.cons_append, List.append_assoc, takeString, hescape.takeEscape_eq]
    change (if b < 128 then _ else _) = _
    rw [if_pos hascii, List.drop_left, ih rfl]
    change Except.ok _ = _
    rw [List.length_cons, List.length_append]
    congr 3
    omega

/-! ### Comments -/

/-- What is read of a block comment ends with the first of its ends. -/
theorem exists_of_takeBlockComment {s s' : Scanner} (h : takeBlockComment cs s = .ok (n, s')) :
    ∃ body rest, cs = body ++ (commentEnd ++ rest) ∧
      n = body.length + 2 ∧ ¬ commentEnd <:+: body ++ ['*'] := by
  fun_induction takeBlockComment cs s generalizing n s' with
  | case1 => cases h
  | case2 rest =>
    cases h
    exact ⟨[], rest, rfl, rfl, by decide⟩
  | case3 c cs _ hstart ih =>
    obtain ⟨⟨m, _⟩, hm, h⟩ := exists_of_bind_eq_ok h
    cases h
    obtain ⟨body, rest, rfl, rfl, hbody⟩ := ih hm
    refine ⟨c :: body, rest, rfl, rfl, fun hinside => ?_⟩
    obtain hprefix | hinside := List.infix_cons_iff.mp hinside
    · -- the comment would end with its first two characters
      obtain ⟨hc, hprefix⟩ := List.cons_prefix_cons.mp hprefix
      cases body with
      | nil => cases (List.cons_prefix_cons.mp hprefix).1
      | cons d body =>
        obtain rfl := (List.cons_prefix_cons.mp hprefix).1
        exact hstart _ hc.symm rfl
    · exact hbody hinside

/-- A block comment is read up to its end, line after line. -/
theorem takeBlockComment_append {body : List Char} (h : ¬ commentEnd <:+: body ++ ['*'])
    (rest : List Char) (s : Scanner) : takeBlockComment (body ++ (commentEnd ++ rest)) s =
      .ok (body.length + 2, s.past (body ++ commentEnd)) := by
  induction body generalizing s with
  | nil => rfl
  | cons c body ih =>
    have hinner : ¬ commentEnd <:+: body ++ ['*'] := fun hinside =>
      h (hinside.trans (List.suffix_cons c _).isInfix)
    rw [List.cons_append, takeBlockComment.eq_3, ih hinner]
    · rfl
    · rintro tail rfl htail
      cases body with
      | nil => cases htail
      | cons d body =>
        cases htail
        exact h (List.prefix_append commentEnd _).isInfix

/-- What is read after a slash is a comment. -/
theorem spells_of_takeComment {s s' : Scanner} (h : takeComment cs s = .ok (n, s')) :
    Spells ('/' :: cs.take n) none (cs.drop n) := by
  unfold takeComment at h
  split at h
  · rename_i cs
    cases h
    obtain ⟨htake, hdrop⟩ := split_takeWhile (· ≠ '\n') cs
    rw [List.take_succ_cons, List.drop_succ_cons, htake, hdrop]
    refine .lineComment (fun c hc => ?_) fun c hc => ?_
    · simpa using List.mem_takeWhile_imp hc
    · simpa using forall_head?_dropWhile (· ≠ '\n') cs c hc
  · obtain ⟨_, hblock, h⟩ := exists_of_bind_eq_ok h
    cases h
    obtain ⟨body, rest, rfl, hlength, hbody⟩ := exists_of_takeBlockComment hblock
    have hcut : body.length + 2 = (body ++ commentEnd).length := by simp [commentEnd]
    rw [List.take_succ_cons, List.drop_succ_cons, ← List.append_assoc, hlength, hcut,
      List.take_left, List.drop_left]
    exact .blockComment hbody
  · cases h

/-! ### Words and symbols -/

theorem ofWord_text (k : Keyword) : ofWord k.text = .keyword k := by
  rw [ofWord, k.ofText?_text]

theorem ofWord_of_ne {word : String} (h : ∀ k : Keyword, k.text ≠ word) :
    ofWord word = .name word := by
  have hnone : Keyword.ofText? word = none :=
    List.find?_eq_none.mpr fun k _ => by simpa using h k
  rw [ofWord, hnone]

/-- A word that is not continued spells a keyword or a name. -/
theorem spells_word (hc : c.isAlpha) (hcs : ∀ d ∈ cs, isWordRest d)
    (hrest : ∀ d ∈ rest.head?, ¬ isWordRest d) :
    Spells (c :: cs) (some (ofWord (.ofList (c :: cs)))) rest := by
  by_cases h : ∃ k : Keyword, k.text.toList = c :: cs
  · obtain ⟨k, hk⟩ := h
    rw [← hk, String.ofList_toList, ofWord_text]
    exact .keyword hrest
  · rw [ofWord_of_ne]
    · exact .name hc hcs (fun k hk => h ⟨k, hk⟩) hrest
    · rintro k hk
      exact h ⟨k, by rw [hk, String.toList_ofList]⟩

theorem spelled_of_takeSymbol? (h : takeSymbol? c cs = some (s, n)) :
    s.Spelled (c :: cs.take n) := by
  unfold takeSymbol? at h
  split at h <;> cases h <;> first | exact .inl rfl | exact .inr ⟨rfl, rfl⟩

theorem takeSymbol?_pair (h : s.Spelled [c, d]) (rest : List Char) :
    takeSymbol? c (d :: rest) = some (s, 1) := by
  obtain h | ⟨rfl, h⟩ := h
  · cases s <;> cases h <;> rfl
  · cases h
    rfl

theorem takeSymbol?_nil (h : s.Spelled [c]) : takeSymbol? c [] = some (s, 0) := by
  obtain h | ⟨rfl, h⟩ := h
  · cases s <;> cases h <;> rfl
  · cases h

/-- The next character matters only to a symbol with two. -/
theorem takeSymbol?_cons (h : ∀ s : Symbol, ¬ s.Spelled [c, d]) (rest : List Char) :
    takeSymbol? c (d :: rest) = takeSymbol? c [] := by
  have hassign : ¬ (c = ':' ∧ d = '=') := by
    rintro ⟨rfl, rfl⟩
    exact h .assign (.inl rfl)
  have hnotEqual : ¬ (c = '<' ∧ d = '>') := by
    rintro ⟨rfl, rfl⟩
    exact h .notEqual (.inr ⟨rfl, rfl⟩)
  have hlessEqual : ¬ (c = '<' ∧ d = '=') := by
    rintro ⟨rfl, rfl⟩
    exact h .lessEqual (.inl rfl)
  have hgreaterEqual : ¬ (c = '>' ∧ d = '=') := by
    rintro ⟨rfl, rfl⟩
    exact h .greaterEqual (.inl rfl)
  clear h
  unfold takeSymbol?
  split <;> simp_all

theorem spells_of_takeSymbol? (h : takeSymbol? c cs = some (s, n)) :
    Spells (c :: cs.take n) (some (.symbol s)) (cs.drop n) := by
  refine .symbol (spelled_of_takeSymbol? h) fun d hd s' hs' => ?_
  obtain ⟨rest, hrest⟩ := List.head?_eq_some_iff.mp hd
  cases n with
  | zero =>
    rw [List.drop_zero] at hrest
    rw [hrest, takeSymbol?_pair hs'] at h
    cases h
  | succ n =>
    -- there is no symbol with three characters
    have hlt : n + 1 < cs.length := by
      by_contra hle
      rw [List.drop_eq_nil_of_le (Nat.le_of_not_lt hle)] at hrest
      cases hrest
    have hlength := Symbol.length_le_two_of_spelled hs'
    rw [List.length_append, List.length_cons, List.length_take_of_le hlt.le] at hlength
    simp at hlength

theorem takeSymbol?_append (h : s.Spelled (c :: cs))
    (hrest : ∀ d ∈ rest.head?, ∀ s' : Symbol, ¬ s'.Spelled (c :: cs ++ [d])) :
    takeSymbol? c (cs ++ rest) = some (s, cs.length) := by
  match cs with
  | [] =>
    cases rest with
    | nil => exact takeSymbol?_nil h
    | cons d rest =>
      rw [List.nil_append, takeSymbol?_cons (hrest d rfl)]
      exact takeSymbol?_nil h
  | [d] => exact takeSymbol?_pair h rest
  | _ :: _ :: _ => exact absurd (Symbol.length_le_two_of_spelled h) (by simp)

/-! ### Parts of a text -/

theorem spells_of_takeToken {t : Token} (h : takeToken c cs = .ok (t, n)) :
    Spells (c :: cs.take n) (some t) (cs.drop n) := by
  unfold takeToken at h
  split at h
  · rename_i hdigit
    obtain ⟨t, ht, h⟩ := exists_of_bind_eq_ok h
    cases h
    unfold ofDigits at ht
    dsimp only at ht
    split at ht
    · rename_i hvalue
      cases ht
      obtain ⟨htake, hdrop⟩ := split_takeWhile Char.isDigit cs
      rw [htake, hdrop]
      refine .int (List.forall_mem_cons.mpr ⟨hdigit, fun d hd => List.mem_takeWhile_imp hd⟩)
        hvalue (forall_head?_dropWhile _ cs)
    · cases ht
  split at h
  · rename_i halpha
    cases h
    obtain ⟨htake, hdrop⟩ := split_takeWhile isWordRest cs
    rw [htake, hdrop]
    exact spells_word halpha (fun d hd => List.mem_takeWhile_imp hd) (forall_head?_dropWhile _ cs)
  split at h
  · rename_i hquote
    subst hquote
    obtain ⟨⟨contents, m⟩, hstring, h⟩ := exists_of_bind_eq_ok h
    cases h
    obtain ⟨text, rest, rfl, rfl, htext⟩ := spellsText_of_takeString hstring
    have hcut : text.length + 1 = (text ++ ['"']).length := by simp
    rw [append_cons, hcut, take_left, drop_left]
    exact .string htext
  split at h
  · rename_i hquote
    subst hquote
    exact spells_of_takeCharacter h
  split at h
  · rename_i hsymbol
    cases h
    exact spells_of_takeSymbol? hsymbol
  · cases h

/-- What is taken from the front of a text spells what it is taken for. -/
theorem spells_of_take {s s' : Scanner} (h : take c cs s = .ok (token?, n, s')) :
    Spells (c :: cs.take n) token? (cs.drop n) := by
  unfold take at h
  split at h
  · rename_i hblank
    cases h
    exact .blank hblank
  split at h
  · rename_i hslash
    subst hslash
    obtain ⟨_, hcomment, h⟩ := exists_of_bind_eq_ok h
    cases h
    exact spells_of_takeComment hcomment
  · obtain ⟨_, htoken, h⟩ := exists_of_bind_eq_ok h
    cases h
    exact spells_of_takeToken htoken

theorem not_isBlank_of_isAlphanum (h : c.isAlphanum) : ¬ isBlank c := by
  intro hblank
  simp only [isBlank, or_eq_true, decide_eq_true_eq] at hblank
  obtain ((rfl | rfl) | rfl) | rfl := hblank <;> revert h <;> decide

theorem not_isDigit_of_isAlpha (h : c.isAlpha) : ¬ c.isDigit := by
  delta isAlpha isUpper isLower at h
  simp only [isDigit, or_eq_true, and_eq_true, decide_eq_true_eq, UInt32.le_iff_toNat_le,
    ge_iff_le] at h ⊢
  have h0 : '9'.val.toNat = 57 := rfl
  have hA : 'A'.val.toNat = 65 := rfl
  have ha : 'a'.val.toNat = 97 := rfl
  omega

theorem take_slash (cs : List Char) (s : Scanner) :
    take '/' cs s = do return (none, ← takeComment cs s) := rfl

theorem takeToken_doubleQuote (cs : List Char) : takeToken '"' cs = do
    let (contents, n) ← takeString cs
    return (.string (String.ofList contents), n) := rfl

theorem takeToken_symbol (h : s.Spelled (c :: cs)) (rest : List Char) : takeToken c rest =
      match takeSymbol? c rest with
      | some (s, n) => .ok (.symbol s, n)
      | none => .error (.unknownCharacter c) := by
  obtain h | ⟨rfl, h⟩ := h
  · cases s <;> cases h <;> rfl
  · cases h
    rfl

/-- A word that is not continued is taken as a whole. -/
theorem takeToken_word (hc : c.isAlpha) (hcs : ∀ d ∈ cs, isWordRest d)
    (hrest : ∀ d ∈ rest.head?, ¬ isWordRest d) :
    takeToken c (cs ++ rest) = .ok (ofWord (.ofList (c :: cs)), cs.length) := by
  rw [takeToken, if_neg (not_isDigit_of_isAlpha hc), if_pos hc]
  dsimp only
  rw [takeWhile_append_of_head? hcs hrest]

/-- The spelling of a token is taken from the front of a text. -/
theorem Spells.takeToken_eq {t : Token} (h : Spells (c :: cs) (some t) rest) :
    takeToken c (cs ++ rest) = .ok (t, cs.length) := by
  generalize hspelling : c :: cs = spelling at h
  cases h with
  | symbol hcs hrest =>
    subst hspelling
    rw [takeToken_symbol hcs, takeSymbol?_append hcs hrest]
  | @keyword k _ hrest =>
    obtain ⟨c', cs', hk, hc, hcs⟩ := k.isWord_text
    cases hspelling.trans hk
    rw [takeToken_word hc hcs hrest, hspelling, String.ofList_toList, ofWord_text]
  | name hc hcs hkeyword hrest =>
    cases hspelling
    rw [takeToken_word hc hcs hrest, ofWord_of_ne]
    intro k hk
    exact hkeyword k (by rw [hk, String.toList_ofList])
  | int hcs hvalue hrest =>
    cases hspelling
    obtain ⟨hc, hcs⟩ := forall_mem_cons.mp hcs
    have hdigits : ofDigits (c :: cs) = .ok (.int (.ofNat (decimalValue (c :: cs)))) :=
      if_pos hvalue
    rw [takeToken, if_pos hc, takeWhile_append_of_head? hcs hrest]
    dsimp only
    rw [hdigits]
    rfl
  | char h =>
    cases hspelling
    rw [append_assoc, singleton_append, length_append]
    exact h.takeCharacter_eq
  | string h =>
    cases hspelling
    rw [takeToken_doubleQuote, append_assoc, singleton_append, h.takeString_eq, length_append]
    rfl

/-- A token starts with no blank and no slash. -/
theorem Spells.start_of_token {t : Token} (h : Spells (c :: cs) (some t) rest) :
    ¬ isBlank c ∧ c ≠ '/' := by
  have hword : c.isAlphanum → ¬ isBlank c ∧ c ≠ '/' := fun hc =>
    ⟨not_isBlank_of_isAlphanum hc, by rintro rfl; cases hc⟩
  generalize hspelling : c :: cs = spelling at h
  cases h with
  | @symbol s _ _ hcs =>
    subst hspelling
    obtain h | ⟨-, h⟩ := hcs
    · cases s <;> cases h <;> decide
    · cases h
      decide
  | @keyword k =>
    cases k <;> cases hspelling <;> decide
  | name hc =>
    cases hspelling
    exact hword (by rw [isAlphanum, hc]; rfl)
  | int hcs =>
    cases hspelling
    exact hword (by rw [isAlphanum, hcs c mem_cons_self, Bool.or_true])
  | _ =>
    cases hspelling
    decide

theorem Escapes.newline_notMem {e : List Char} (h : Escapes e b rest) : '\n' ∉ e := by
  have hhex : ∀ d v, hexValue? d = some v → '\n' ≠ d := by
    rintro d v hd rfl
    cases hd
  cases h with
  | @short _ c _ h =>
    have htable : ∀ entry ∈ literal.short, '\n' ≠ entry.2 := by decide
    simpa using htable _ h
  | number hc hd => simp [hhex _ _ hc, hhex _ _ hd]
  | signed hc => simp [hhex _ _ hc]
  | digit hc => simp [hhex _ _ hc]

theorem SpellsText.newline_notMem {text : List Char} (h : SpellsText text contents rest) :
    '\n' ∉ text := by
  induction h with
  | nil => exact not_mem_nil
  | plain _ _ hline _ _ ih => simp [Ne.symm hline, ih]
  | escape hescape _ _ ih => simp [hescape.newline_notMem, ih]

/-- No token goes over the end of a line. -/
theorem Spells.newline_notMem {t : Token} (h : Spells cs (some t) rest) : '\n' ∉ cs := by
  have hword : ¬ isWordRest '\n' := by decide
  cases h with
  | @symbol s _ _ hcs =>
    obtain rfl | ⟨-, rfl⟩ := hcs
    · cases s <;> decide
    · decide
  | @keyword k => cases k <;> decide
  | name hc hcs =>
    rintro hmem
    obtain rfl | hmem := mem_cons.mp hmem
    · exact absurd hc (by decide)
    · exact hword (hcs _ hmem)
  | int hcs => exact fun hmem => absurd (hcs _ hmem) (by decide)
  | @char cs _ _ h =>
    have hcs : '\n' ∉ cs := by
      cases h with
      | plain _ _ hline => simpa using hline.symm
      | escape h => simp [h.newline_notMem]
    simp [hcs]
  | string h => simp [h.newline_notMem]

/-- A spelling is taken from the front of a text, and reading goes over its characters. -/
theorem Spells.take_eq (h : Spells (c :: cs) token? rest) (s : Scanner) :
    take c (cs ++ rest) (s.advance 1) = .ok (token?, cs.length, s.past (c :: cs)) := by
  cases token? with
  | some t =>
    obtain ⟨hblank, hslash⟩ := h.start_of_token
    rw [take, if_neg hblank, if_neg hslash, h.takeToken_eq, s.past_eq_advance h.newline_notMem]
    change ok (some t, cs.length, (s.advance 1).advance cs.length) = _
    rw [s.advance_advance, length_cons]
  | none =>
    generalize hspelling : c :: cs = spelling at h
    cases h with
    | blank hc =>
      cases hspelling
      rw [take, if_pos hc]
      rfl
    | @lineComment cs _ hcs hrest =>
      cases hspelling
      have hline : (cs ++ rest).takeWhile (fun c => decide (c ≠ '\n')) = cs := by
        refine takeWhile_append_of_head? (fun c hc => ?_) fun c hc => ?_
        · simpa using hcs c hc
        · simpa using hrest c hc
      have hnone : '\n' ∉ '/' :: '/' :: cs := by
        simpa using fun hmem => hcs _ hmem rfl
      rw [cons_append, take_slash, takeComment, hline, s.past_eq_advance hnone]
      exact congrArg (fun s => ok (none, cs.length + 1, s)) (s.advance_advance 1 _)
    | @blockComment cs _ hcs =>
      cases hspelling
      rw [cons_append, append_assoc, take_slash, takeComment, takeBlockComment_append hcs]
      change ok _ = _
      rw [length_cons, length_append]
      rfl

end Token

end BlockLang
