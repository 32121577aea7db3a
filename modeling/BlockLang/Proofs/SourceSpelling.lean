import BlockLang.Proofs.LexemePositions
import BlockLang.Proofs.Text.Escape

/-!
# Writing tokens and reading them back

Tokens are written as a program would have them: symbols and keywords by their texts, integers
in decimal digits, literals in quotes with their bytes escaped. With single spaces between them
they are read back as they were, whatever their number and order.
-/

namespace BlockLang.Token

open EscapeStyle List

/-- A token as it is written in a program. -/
def spelling : Token → String
  | symbol s => s.text
  | keyword k => k.text
  | int value => toString value.toInt
  | char byte => "'" ++ String.ofList (literal.byte byte) ++ "'"
  | string text => "\"" ++ literal.text text ++ "\""
  | name text => text
  | eof => ""

/-- A program can hold a token: integers have no sign, strings consist of ASCII characters, and
names are words that are not reserved. -/
def IsWritable : Token → Prop
  | int value => 0 ≤ value
  | string text => ∀ c ∈ text.toList, c.toNat < 128
  | name text => (∃ c cs, text.toList = c :: cs ∧ c.isAlpha ∧ ∀ d ∈ cs, isWordRest d) ∧
      ∀ k : Keyword, k.text ≠ text
  | eof => False
  | _ => True

/-! ### Literals -/

/-- An escape that is not at the end of a text may be followed by anything. -/
theorem Escapes.followed {e rest : List Char} {b : UInt8} {c : Char} (h : Escapes e b (c :: rest))
    (rest' : List Char) : Escapes e b rest' := by
  cases h with
  | short h => exact .short h
  | number hc hd => exact .number hc hd
  | signed hc => exact .signed hc

/-- An escaped byte spells it, in a character literal. -/
theorem spellsByte_byte (b : UInt8) (rest : List Char) :
    SpellsByte (literal.byte b) b rest := by
  have hread : ∀ b, (takeByte (literal.byte b ++ ['\''])).toOption =
      some (b, (literal.byte b).length) :=
    forall_byte (by decide +kernel)
  have hok : takeByte (literal.byte b ++ ['\'']) =
      .ok (b, (literal.byte b).length) := by
    have hb := hread b
    cases htake : takeByte (literal.byte b ++ ['\'']) with
    | error cause => rw [htake] at hb; cases hb
    | ok result => rw [htake] at hb; cases hb; rfl
  have hspells := spellsByte_of_takeByte hok
  rw [take_left, drop_left] at hspells
  generalize literal.byte b = cs at hspells
  cases hspells with
  | plain hascii hquote hline hescape => exact .plain hascii hquote hline hescape
  | escape h => exact .escape (h.followed rest)

/-- An ASCII character can be told from its byte. -/
theorem ofNat_toNat_toUInt8 {c : Char} (hc : c.toNat < 128) :
    Char.ofNat c.toNat.toUInt8.toNat = c := by
  have hlt : c.toNat < UInt8.size := hc.trans (by decide)
  rw [Nat.toUInt8, UInt8.toNat_ofNat_of_lt' hlt, Char.ofNat_toNat]

/-- An escaped byte spells its character in a string literal. -/
theorem SpellsText.byte {b : UInt8} {cs contents rest : List Char} (hb : b < 128)
    (h : SpellsText cs contents rest) :
    SpellsText (literal.byte b ++ cs) (.ofNat b.toNat :: contents) rest := by
  have hform := isForm_byte b
  have hspells := spellsByte_byte b (cs ++ rest)
  generalize literal.byte b = e at hform hspells
  cases hspells with
  | @plain c _ hascii hquote hline hescape =>
    have hdouble : c ≠ '"' := by
      rintro rfl
      revert hform
      decide
    rw [ofNat_toNat_toUInt8 hascii]
    exact .plain hascii hdouble hline hescape h
  | escape he => exact .escape he hb h

/-- A text of ASCII characters with its bytes escaped spells it. -/
theorem spellsText_chars {text : List Char} (h : ∀ c ∈ text, c.toNat < 128) (rest : List Char) :
    SpellsText ((text.flatMap String.utf8EncodeChar).flatMap EscapeStyle.literal.byte)
      text rest := by
  induction text with
  | nil => exact .nil
  | cons c text ih =>
    obtain ⟨hc, htext⟩ := List.forall_mem_cons.mp h
    have hencode : String.utf8EncodeChar c = [c.toNat.toUInt8] :=
      String.utf8EncodeChar_eq_singleton (Char.utf8Size_eq_one_iff.mpr (Nat.le_of_lt_succ hc))
    have hb : c.toNat.toUInt8 < 128 := by
      rw [UInt8.lt_iff_toNat_lt, Nat.toUInt8, UInt8.toNat_ofNat_of_lt' (hc.trans (by decide))]
      exact hc
    have hspells := (ih htext).byte hb
    rw [ofNat_toNat_toUInt8 hc] at hspells
    rwa [List.flatMap_cons, hencode, List.singleton_append, List.flatMap_cons]

/-! ### Tokens -/

/-- No symbol holds a space. -/
theorem space_notMem_of_spelled {s : Symbol} {cs : List Char} (h : s.Spelled cs) : ' ' ∉ cs := by
  obtain rfl | ⟨-, rfl⟩ := h
  · cases s <;> decide
  · decide

/-- What is written for a token spells it, at the end of a text and in front of a space. -/
theorem spells_spelling {t : Token} (h : t.IsWritable) {rest : List Char}
    (hrest : ∀ c ∈ rest.head?, c = ' ') : Spells t.spelling.toList (some t) rest := by
  have hword : ∀ c ∈ rest.head?, ¬ isWordRest c := by
    intro c hc
    rw [hrest c hc]
    decide
  cases t with
  | symbol s =>
    refine .symbol (.inl rfl) fun c hc s' hs' => space_notMem_of_spelled hs' ?_
    rw [hrest c hc]
    exact List.mem_append_right _ List.mem_cons_self
  | keyword k => exact .keyword hword
  | int value =>
    have hvalue : value.toInt = value.toNatClampNeg := by
      rw [Int32.toNatClampNeg, Int.toNat_of_nonneg (Int32.le_iff_toInt_le.mp h)]
    have hlt := Int32.toInt_lt value
    have hspelling : (int value).spelling.toList = Nat.toDigits 10 value.toNatClampNeg := by
      rw [spelling, hvalue]
      exact String.toList_ofList
    obtain ⟨c, cs, hdigits⟩ := List.exists_cons_of_ne_nil
      (Nat.toDigits_ne_nil (n := value.toNatClampNeg) (b := 10))
    have hdecimal : decimalValue (c :: cs) = value.toNatClampNeg := by
      rw [← hdigits]
      exact Nat.ofDigitChars_eq_foldl.symm.trans Nat.ofDigitChars_ten_toDigits
    have hint : Spells (c :: cs) (some (.int (.ofNat (decimalValue (c :: cs))))) rest := by
      refine .int (fun d hd => ?_) (by omega) fun d hd => ?_
      · rw [← hdigits] at hd
        exact Nat.isDigit_of_mem_toDigits (by decide) (by decide) hd
      · rw [hrest d hd]
        decide
    rw [hdecimal, Int32.ofNat_toNatClampNeg value h] at hint
    rwa [hspelling, hdigits]
  | char b =>
    have hspelling : (char b).spelling.toList =
        '\'' :: (EscapeStyle.literal.byte b ++ ['\'']) := by
      simp [spelling]
    rw [hspelling]
    exact .char (spellsByte_byte b _)
  | string text =>
    have hspelling : (string text).spelling.toList =
        '"' :: (literal.chars text ++ ['"']) := by
      simp [spelling, EscapeStyle.text]
    have hstring : Spells ('"' :: (literal.chars text ++ ['"']))
        (some (.string (.ofList text.toList))) rest := .string (spellsText_chars h _)
    rw [String.ofList_toList] at hstring
    rwa [hspelling]
  | name text =>
    obtain ⟨⟨c, cs, htext, hc, hcs⟩, hkeyword⟩ := h
    have hname : Spells (c :: cs) (some (.name (.ofList (c :: cs)))) rest := by
      refine .name hc hcs (fun k hk => hkeyword k ?_) hword
      rw [← String.toList_inj, hk, htext]
    rw [← htext, String.ofList_toList] at hname
    exact hname
  | eof => exact h.elim

/-! ### Lists of tokens -/

/-- Tokens as they are written one after the other, with single spaces between them. -/
def spellings (tokens : List Token) : String := " ".intercalate (tokens.map spelling)

theorem toList_spellings_pair (t t' : Token) (tokens : List Token) :
    (spellings (t :: t' :: tokens)).toList =
      t.spelling.toList ++ ([' '] ++ (spellings (t' :: tokens)).toList) := by
  simp [spellings, String.toList_intercalate]

/-- What is written for tokens is divided into their spellings and the spaces. -/
theorem Divided.spellings {text : List Char} {lexemes : List Lexeme} {tokens : List Token}
    (htokens : ∀ t ∈ tokens, t.IsWritable)
    (h : Divided text lexemes (Token.spellings tokens).toList) :
    ∃ more, Divided (text ++ (Token.spellings tokens).toList) (lexemes ++ more) [] ∧
      more.map Lexeme.token = tokens := by
  match tokens with
  | [] => exact ⟨[], by simpa [Token.spellings] using h, rfl⟩
  | [t] =>
    have ht : (Token.spellings [t]).toList = t.spelling.toList := by
      simp [Token.spellings]
    rw [ht, ← List.append_nil t.spelling.toList] at h
    rw [ht]
    exact ⟨_, h.part (spells_spelling (htokens t List.mem_cons_self) nofun), rfl⟩
  | t :: t' :: tokens =>
    obtain ⟨ht, hmore⟩ := List.forall_mem_cons.mp htokens
    rw [toList_spellings_pair] at h
    -- the space belongs to neither token
    have hspace := (h.part (spells_spelling ht fun c hc => (Option.some.inj hc).symm)).part
      (Spells.blank (by decide))
    obtain ⟨more, hdivided, hmap⟩ := hspace.spellings hmore
    refine ⟨⟨t, .source (.following text)⟩ :: more, ?_, congrArg (t :: ·) hmap⟩
    rw [toList_spellings_pair]
    simpa using hdivided

/-- Tokens that are written with single spaces between them are read back as they were. -/
theorem tokens_of_scan_spellings (tokens : List Token) (h : ∀ t ∈ tokens, t.IsWritable) :
    ∃ lexemes, scan (spellings tokens) = .ok lexemes ∧
      lexemes.map Lexeme.token = tokens ++ [.eof] := by
  have hstart : Divided [] [] (spellings tokens).toList := .start
  obtain ⟨more, hdivided, hmap⟩ := hstart.spellings h
  refine ⟨_, scan_eq_ok_iff.mpr ⟨more, hdivided, rfl⟩, ?_⟩
  rw [List.map_append, hmap]
  rfl

/-- Tokens that would be read as others without the spaces, and literals that need escapes. -/
def closeTokens : List Token :=
  [.keyword .begin, .name "begin_0", .symbol .less, .symbol .equal, .int 2147483647, .char 0xff,
    .char 39, .string "/* \"\n", .symbol .less, .symbol .greater]

theorem tokens_of_scan_spellings_closeTokens :
    (∀ t ∈ closeTokens, t.IsWritable) ∧
      spellings closeTokens =
        "begin begin_0 < = 2147483647 '\\xff' '\\'' \"/* \\\"\\n\" < >" ∧
      ∃ lexemes, scan (spellings closeTokens) = .ok lexemes ∧
        lexemes.map Lexeme.token = closeTokens ++ [.eof] := by
  have hwritable : ∀ t ∈ closeTokens, t.IsWritable := by
    have hname : (Token.name "begin_0").IsWritable :=
      ⟨⟨_, _, rfl, by decide, all_eq_true.mp (by decide)⟩, fun k => by cases k <;> decide⟩
    have hascii : "/* \"\n".toList.all fun c => decide (c.toNat < 128) := by decide
    have hstring : (Token.string "/* \"\n").IsWritable := fun c hc =>
      of_decide_eq_true (all_eq_true.mp hascii c hc)
    have hint : (Token.int 2147483647).IsWritable := by
      unfold IsWritable
      decide
    simp only [closeTokens, forall_mem_cons]
    exact ⟨trivial, hname, trivial, trivial, hint, trivial, trivial, hstring, trivial, trivial,
      nofun⟩
  exact ⟨hwritable, by decide +kernel, tokens_of_scan_spellings closeTokens hwritable⟩

end BlockLang.Token
