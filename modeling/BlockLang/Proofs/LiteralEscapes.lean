import BlockLang.Proofs.SourceSpelling
import Mathlib.Data.List.Forall2

/-!
# The escapes of literals

An escape is a backslash and one of seven characters, or a backslash, an `x` and two hexadecimal
digits, for the first of which a plus sign may stand. So the elements of a literal are found by
looking at its characters only: a backslash takes the next character with it, and two more after an
`x`.
-/

namespace BlockLang

open List

variable {c : Char} {x : Lexeme} {body e rest : List Char} {lexemes : List Lexeme} {value : Nat}
  {b : UInt8}

namespace Token

/-! ### Elements -/

/-- A hexadecimal digit and its value. -/
def HexDigit (c : Char) (value : Nat) : Prop :=
  "0123456789abcdef".toList[value]? = some c ∨ "0123456789ABCDEF".toList[value]? = some c

instance (c : Char) (value : Nat) : Decidable (HexDigit c value) :=
  inferInstanceAs (Decidable (_ ∨ _))

/-- What follows the backslash of an escape, and the byte that the escape stands for. -/
inductive StandardEscape : List Char → UInt8 → Prop
  | newline : StandardEscape ['n'] 10
  | tab : StandardEscape ['t'] 9
  | carriageReturn : StandardEscape ['r'] 13
  | null : StandardEscape ['0'] 0
  | backslash : StandardEscape ['\\'] 92
  | quote : StandardEscape ['\''] 39
  | doubleQuote : StandardEscape ['"'] 34
  | number {c d : Char} {high low : Nat} (hc : HexDigit c high) (hd : HexDigit d low) :
      StandardEscape ['x', c, d] (16 * high + low).toUInt8

/-- The escapes by number that have a sign and only one digit. -/
inductive SignedEscape : List Char → UInt8 → Prop
  | number {d : Char} {low : Nat} (hd : HexDigit d low) : SignedEscape ['x', '+', d] low.toUInt8

/-- An element of a literal in given quotes, and the byte it stands for. -/
inductive Denotes (quote : Char) : List Char → UInt8 → Prop
  | plain {c : Char} (hascii : c.toNat < 128) (hquote : c ≠ quote) (hline : c ≠ '\n')
      (hescape : c ≠ '\\') : Denotes quote [c] c.toNat.toUInt8
  | escape {e : List Char} {b : UInt8} (h : StandardEscape e b) : Denotes quote ('\\' :: e) b
  | signed {e : List Char} {b : UInt8} (h : SignedEscape e b) : Denotes quote ('\\' :: e) b

def elements : List Char → List (List Char)
  | '\\' :: 'x' :: c :: d :: cs => ['\\', 'x', c, d] :: elements cs
  | '\\' :: c :: cs => ['\\', c] :: elements cs
  | c :: cs => [c] :: elements cs
  | [] => []

theorem flatten_elements (body : List Char) : (elements body).flatten = body := by
  fun_induction elements body with
  | case1 c d cs ih => rw [List.flatten_cons, ih]; rfl
  | case2 c cs hx ih => rw [List.flatten_cons, ih]; rfl
  | case3 c cs hx hescape ih => rw [List.flatten_cons, ih]; rfl
  | case4 => rfl

theorem elements_plain (hc : c ≠ '\\') (cs : List Char) : elements (c :: cs) = [c] :: elements cs :=
  elements.eq_3 c cs (fun _ _ _ h _ => hc h) (fun _ _ h _ => hc h)

/-! ### Escapes -/

theorem toNat_lt_of_hexValue? (h : hexValue? c = some value) : c.toNat < 128 := by
  have hle : ∀ d : Char, c ≤ d → c.toNat ≤ d.toNat := fun d hd => hd
  unfold hexValue? at h
  split_ifs at h with hdecimal hlower hupper
  · exact (hle _ hdecimal.2).trans_lt (by decide)
  · exact (hle _ hlower.2).trans_lt (by decide)
  · exact (hle _ hupper.2).trans_lt (by decide)

theorem hexValue?_eq_some_iff : hexValue? c = some value ↔ HexDigit c value := by
  constructor
  · intro h
    have htable : ∀ n : Fin 128, ∀ v ∈ hexValue? (.ofNat n), HexDigit (.ofNat n) v := by
      decide +kernel
    have hc := htable ⟨c.toNat, toNat_lt_of_hexValue? h⟩ value
    rw [Char.ofNat_toNat] at hc
    exact hc h
  · have htable : ∀ v < 16, "0123456789abcdef".toList[v]?.all (hexValue? · = some v) ∧
        "0123456789ABCDEF".toList[v]?.all (hexValue? · = some v) := by
      decide +kernel
    rintro (h | h)
    · have hall := (htable value (List.getElem?_eq_some_iff.mp h).1).1
      rwa [h, Option.all_some, decide_eq_true_iff] at hall
    · have hall := (htable value (List.getElem?_eq_some_iff.mp h).1).2
      rwa [h, Option.all_some, decide_eq_true_iff] at hall

/-- Inside a text, what is read as an escape is one of those that are listed. -/
theorem escapes_iff : Escapes e b (c :: rest) ↔ StandardEscape e b ∨ SignedEscape e b := by
  constructor
  · intro h
    cases h with
    | short h =>
      refine .inl ?_
      simp only [EscapeStyle.literal, List.mem_cons, Prod.mk.injEq, List.not_mem_nil, or_false] at h
      rcases h with ⟨rfl, rfl⟩ | ⟨rfl, rfl⟩ | ⟨rfl, rfl⟩ | ⟨rfl, rfl⟩ | ⟨rfl, rfl⟩ | ⟨rfl, rfl⟩ |
        ⟨rfl, rfl⟩ <;> constructor
    | number hc hd =>
      exact .inl (.number (hexValue?_eq_some_iff.mp hc) (hexValue?_eq_some_iff.mp hd))
    | signed hc => exact .inr (.number (hexValue?_eq_some_iff.mp hc))
  · rintro (h | h)
    · cases h with
      | number hc hd =>
        exact .number (hexValue?_eq_some_iff.mpr hc) (hexValue?_eq_some_iff.mpr hd)
      | _ => exact .short (by decide)
    · obtain ⟨hd⟩ := h
      exact .signed (hexValue?_eq_some_iff.mpr hd)

/-- A signed escape is no standard one. -/
theorem SignedEscape.not_standard (h : SignedEscape e b) (b' : UInt8) : ¬ StandardEscape e b' := by
  obtain ⟨-⟩ := h
  generalize hplus : '+' = c
  rintro (_ | _ | _ | _ | _ | _ | _ | @⟨_, _, high, _, hc, _⟩)
  have hvalue := hexValue?_eq_some_iff.mpr hc
  rw [← hplus, hexValue?_plus] at hvalue
  cases hvalue

/-- An escape is the first element of a body that starts with it. -/
theorem elements_escape (h : Escapes e b (c :: rest)) (cs : List Char) :
    elements ('\\' :: (e ++ cs)) = ('\\' :: e) :: elements cs := by
  cases h with
  | @short _ c _ h =>
    have hx : ∀ entry ∈ EscapeStyle.literal.short, entry.2 ≠ 'x' := by decide
    exact elements.eq_2 c cs fun _ _ _ hc _ => hx _ h hc
  | number => rfl
  | signed => rfl

theorem Denotes.of_escapes (quote : Char) (h : Escapes e b (c :: rest)) :
    Denotes quote ('\\' :: e) b :=
  (escapes_iff.mp h).elim .escape .signed

/-- An element stands for its byte as a plain character or as an escape. -/
theorem Denotes.spellsByte {element : List Char} (h : Denotes '\'' element b) (c : Char)
    (rest : List Char) : SpellsByte element b (c :: rest) := by
  cases h with
  | plain hascii hquote hline hescape => exact .plain hascii hquote hline hescape
  | escape h => exact .escape (escapes_iff.mpr (.inl h))
  | signed h => exact .escape (escapes_iff.mpr (.inr h))

/-- An element stands for its byte in front of what is spelled in a string literal. -/
theorem SpellsText.element {element cs contents rest : List Char} {b : UInt8} {c : Char}
    (h : SpellsText cs contents (c :: rest)) (hfirst : Denotes '"' element b) (hb : b < 128) :
    SpellsText (element ++ cs) (.ofNat b.toNat :: contents) (c :: rest) := by
  have hescape : ∀ {e}, Escapes e b (c :: rest) → Escapes e b (cs ++ c :: rest) :=
    fun he => he.followed _
  cases hfirst with
  | plain hascii hquote hline hplain =>
    rw [ofNat_toNat_toUInt8 hascii]
    exact .plain hascii hquote hline hplain h
  | escape he => exact .escape (hescape (escapes_iff.mpr (.inl he))) hb h
  | signed he => exact .escape (hescape (escapes_iff.mpr (.inr he))) hb h

/-! ### Bodies of literals -/

/-- The body of a character literal is one element. -/
theorem spellsByte_iff :
    SpellsByte body b (c :: rest) ↔ List.Forall₂ (Denotes '\'') (elements body) [b] := by
  constructor
  · intro h
    cases h with
    | plain hascii hquote hline hescape =>
      rw [elements_plain hescape]
      exact .cons (.plain hascii hquote hline hescape) .nil
    | @escape e _ _ h =>
      have hsplit := elements_escape h []
      rw [append_nil] at hsplit
      rw [hsplit]
      exact .cons (.of_escapes _ h) .nil
  · intro h
    rw [← flatten_elements body]
    generalize elements body = parts at h
    cases h with
    | cons hfirst hnone =>
      cases hnone
      rw [flatten_singleton]
      exact hfirst.spellsByte c rest

/-- The body of a string literal is a list of elements, each of which stands for an ASCII
character. -/
theorem spellsText_iff {contents : List Char} :
    SpellsText body contents (c :: rest) ↔
      ∃ bytes, List.Forall₂ (Denotes '"') (elements body) bytes ∧ (∀ b ∈ bytes, b < 128) ∧
        contents = bytes.map fun b => .ofNat b.toNat := by
  constructor
  · intro h
    generalize hend : c :: rest = tail at h
    induction h with
    | nil => exact ⟨[], .nil, by simp, rfl⟩
    | @plain c cs contents _ hascii hquote hline hescape h ih =>
      obtain ⟨bytes, helements, hbytes, rfl⟩ := ih hend
      have hb : c.toNat.toUInt8 < 128 := by
        rw [UInt8.lt_iff_toNat_lt, Nat.toUInt8, UInt8.toNat_ofNat_of_lt' (hascii.trans (by decide))]
        exact hascii
      refine ⟨c.toNat.toUInt8 :: bytes, ?_, List.forall_mem_cons.mpr ⟨hb, hbytes⟩, ?_⟩
      · rw [elements_plain hescape]
        exact .cons (.plain hascii hquote hline hescape) helements
      · rw [List.map_cons, ofNat_toNat_toUInt8 hascii]
    | @escape e cs contents _ b hescapes hascii h ih =>
      obtain ⟨bytes, helements, hbytes, rfl⟩ := ih hend
      subst hend
      have hin : Escapes e b ('"' :: []) := by
        cases hcs : cs ++ c :: rest with
        | nil => simp at hcs
        | cons d more => exact (hcs ▸ hescapes).followed _
      refine ⟨b :: bytes, ?_, forall_mem_cons.mpr ⟨hascii, hbytes⟩, rfl⟩
      rw [elements_escape hin]
      exact .cons (.of_escapes _ hin) helements
  · rintro ⟨bytes, helements, hbytes, rfl⟩
    rw [← flatten_elements body]
    generalize elements body = parts at helements
    induction helements with
    | nil => exact .nil
    | cons hfirst hmore ih =>
      obtain ⟨hb, hbytes⟩ := forall_mem_cons.mp hbytes
      exact (ih hbytes).element hfirst hb

/-! ### Literals in a text -/

/-- A lexeme of a divided text is spelled where it stands. -/
theorem Divided.exists_spells {text : List Char} (h : Divided text lexemes rest)
    (hx : x ∈ lexemes) : ∃ before cs after, text ++ rest = before ++ (cs ++ after) ∧
      x.location = .source (.following before) ∧ Spells cs (some x.token) after := by
  induction h with
  | start => cases hx
  | @part text cs rest lexemes token? h hcs ih =>
    rw [append_assoc]
    obtain hx | hx := mem_append.mp hx
    · exact ih hx
    · obtain ⟨t, ht, rfl⟩ := mem_map.mp hx
      rw [Option.mem_toList.mp ht] at hcs
      exact ⟨text, cs, rest, rfl, rfl, hcs⟩

/-- A text that is the spelling of one token is read as that token. -/
theorem scan_of_spells {cs : List Char} {t : Token} (h : Spells cs (some t) []) :
    scan (.ofList cs) = .ok [⟨t, .source .start⟩, endOf cs] := by
  have hdivided : Divided ([] ++ cs) [⟨t, .source .start⟩] [] := .part .start h
  have hcs : (String.ofList cs).toList = cs := String.toList_ofList
  exact scan_eq_ok_iff.mpr ⟨_, hcs.symm ▸ hdivided, hcs.symm ▸ rfl⟩

/-- A lexeme of a text is spelled at its location, unless it marks the end. -/
theorem exists_spells_of_scan {source : String} (h : scan source = .ok lexemes) (hx : x ∈ lexemes)
    (heof : x.token ≠ .eof) :
    ∃ before cs after, source.toList = before ++ (cs ++ after) ∧
      x.location = .source (.following before) ∧ Spells cs (some x.token) after := by
  obtain ⟨tokens, hdivided, rfl⟩ := scan_eq_ok_iff.mp h
  obtain hx | hx := mem_append.mp hx
  · have hspells := hdivided.exists_spells hx
    rwa [append_nil] at hspells
  · rw [mem_singleton.mp hx] at heof
    exact absurd rfl heof

end Token

/-- A literal in given quotes starts at the location of a lexeme, and its elements stand for some
bytes. -/
def Lexeme.IsLiteral (x : Lexeme) (text : List Char) (quote : Char) (bytes : List UInt8) : Prop :=
  ∃ before body after, text = before ++ quote :: (body ++ quote :: after) ∧
    x.location = .source (.following before) ∧
    List.Forall₂ (Token.Denotes quote) (Token.elements body) bytes

/-- Literals stand for the bytes of their elements. Where a text is read, every character and
string token is a literal of the text at its location, and all elements of that are plain
characters, standard escapes or signed escapes, which stand for the bytes of the token. Every
literal of such elements is read as the token of their bytes, which in a string are those of ASCII
characters. -/
theorem literals_denote (source : String) (lexemes : List Lexeme) (body : List Char)
    (bytes : List UInt8) :
    (Token.scan source = .ok lexemes →
      ∀ x ∈ lexemes, (∀ b, x.token = .char b → x.IsLiteral source.toList '\'' [b]) ∧
        ∀ s, x.token = .string s → ∃ bytes, x.IsLiteral source.toList '"' bytes ∧
          (∀ b ∈ bytes, b < 128) ∧ s = .ofList (bytes.map fun b => .ofNat b.toNat)) ∧
    (∀ b, List.Forall₂ (Token.Denotes '\'') (Token.elements body) [b] →
      Token.scan (.ofList ('\'' :: (body ++ ['\'']))) =
        .ok [⟨.char b, .source .start⟩, Token.endOf ('\'' :: (body ++ ['\'']))]) ∧
    (List.Forall₂ (Token.Denotes '"') (Token.elements body) bytes → (∀ b ∈ bytes, b < 128) →
      Token.scan (.ofList ('"' :: (body ++ ['"']))) =
        .ok [⟨.string (.ofList (bytes.map fun b => .ofNat b.toNat)), .source .start⟩,
          Token.endOf ('"' :: (body ++ ['"']))]) := by
  refine ⟨fun hscan x hx => ⟨fun b hb => ?_, fun s hs => ?_⟩, fun b h => ?_, fun h hascii => ?_⟩
  · obtain ⟨before, cs, after, htext, hlocation, hspells⟩ :=
      Token.exists_spells_of_scan hscan hx (by rw [hb]; nofun)
    rw [hb] at hspells
    cases hspells with
    | @char body _ _ h =>
      refine ⟨before, body, after, ?_, hlocation, Token.spellsByte_iff.mp h⟩
      rw [htext, cons_append, append_assoc, singleton_append]
  · obtain ⟨before, cs, after, htext, hlocation, hspells⟩ :=
      Token.exists_spells_of_scan hscan hx (by rw [hs]; nofun)
    rw [hs] at hspells
    cases hspells with
    | @string body contents _ h =>
      obtain ⟨bytes, helements, hbytes, rfl⟩ := Token.spellsText_iff.mp h
      refine ⟨bytes, ⟨before, body, after, ?_, hlocation, helements⟩, hbytes, rfl⟩
      rw [htext, cons_append, append_assoc, singleton_append]
  · exact Token.scan_of_spells (.char (Token.spellsByte_iff.mpr h))
  · exact Token.scan_of_spells (.string (Token.spellsText_iff.mpr ⟨bytes, h, hascii, rfl⟩))

/-- A text whose literals hold signed escapes beside standard ones. -/
def signedEscapes : String := "c := '\\x+5'; s := \"a\\x4A\\\"\\x+9\";"

theorem literals_denote_signedEscapes :
    (∃ lexemes, Token.scan signedEscapes = .ok lexemes ∧ lexemes.map Lexeme.token =
        [.name "c", .symbol .assign, .char 5, .symbol .semicolon, .name "s", .symbol .assign,
          .string "aJ\"\t", .symbol .semicolon, .eof] ∧
      ∀ x ∈ lexemes, (∀ b, x.token = .char b → x.IsLiteral signedEscapes.toList '\'' [b]) ∧
        ∀ s, x.token = .string s → ∃ bytes, x.IsLiteral signedEscapes.toList '"' bytes ∧
          (∀ b ∈ bytes, b < 128) ∧ s = .ofList (bytes.map fun b => .ofNat b.toNat)) ∧
    (∀ b, ¬ Token.StandardEscape ['x', '+', '5'] b) ∧
      Token.scan (.ofList ['\'', '\\', 'x', '+', '5', '\'']) =
        .ok [⟨.char 5, .source ⟨1, 1⟩⟩, ⟨.eof, .source ⟨1, 7⟩⟩] ∧
      Token.scan (.ofList ['"', '\\', 'x', '+', '5', '"']) =
        .ok [⟨.string "\x05", .source ⟨1, 1⟩⟩, ⟨.eof, .source ⟨1, 7⟩⟩] := by
  have htokens : (Token.scan signedEscapes).map (List.map Lexeme.token) =
      .ok [.name "c", .symbol .assign, .char 5, .symbol .semicolon, .name "s", .symbol .assign,
        .string "aJ\"\t", .symbol .semicolon, .eof] := by
    decide +kernel
  obtain ⟨lexemes, hok⟩ := exists_eq_ok (Token.scan signedEscapes) (by decide +kernel)
  rw [hok] at htokens
  have hsigned : Token.SignedEscape ['x', '+', '5'] 5 :=
    .number (show Token.HexDigit '5' 5 by decide +kernel)
  obtain ⟨hliterals, hchar, hstring⟩ :=
    literals_denote signedEscapes lexemes ['\\', 'x', '+', '5'] [5]
  refine ⟨⟨lexemes, hok, Except.ok.inj htokens, hliterals hok⟩, hsigned.not_standard,
    hchar 5 (.cons (.signed hsigned) .nil), hstring (.cons (.signed hsigned) .nil) (by simp)⟩

end BlockLang
