import BlockLang.Proofs.Compile
import BlockLang.Proofs.Token.Malformed
import Mathlib.Data.List.DropRight

/-!
# Where lexemes stand

A text that can be read is divided, without gaps, into the spellings of its tokens, blanks and
comments. The line of a token is one more than the number of line ends in front of it, its column
one more than the number of characters since the last of them. A text that cannot be read is
divided in this way up to the malformed token or comment that the error locates.
-/

namespace BlockLang

open Except List Position Scanner

variable {cs rest text : List Char} {lexemes : List Lexeme} {token? : Option Token}

namespace Position

/-- The position that follows a piece of text at the start: its line is found by counting line
ends, its column by counting the characters since the last of them. -/
def following (text : List Char) : Position :=
  ⟨1 + text.count '\n', 1 + (text.rtakeWhile (· ≠ '\n')).length⟩

/-- A position comes before another one, in an earlier line or in the same. -/
def Precedes (p q : Position) : Prop := p.line < q.line ∨ p.line = q.line ∧ p.column < q.column

/-- The position that follows a character. -/
def after (p : Position) (c : Char) : Position :=
  if c = '\n' then ⟨p.line + 1, 1⟩ else ⟨p.line, p.column + 1⟩

theorem following_concat (text : List Char) (c : Char) :
    following (text ++ [c]) = (following text).after c := by
  unfold following after
  by_cases hc : c = '\n'
  · subst hc
    simp [Nat.add_assoc]
  · rw [if_neg hc, rtakeWhile_concat_pos _ _ _ (by simpa using hc)]
    simp [hc, Nat.add_assoc]

theorem Precedes.trans {p q r : Position} (h : p.Precedes q) (h' : q.Precedes r) :
    p.Precedes r := by
  unfold Precedes at *
  omega

theorem precedes_after (p : Position) (c : Char) : p.Precedes (p.after c) := by
  unfold after Precedes
  split
  · exact .inl (Nat.lt_succ_self _)
  · exact .inr ⟨rfl, Nat.lt_succ_self _⟩

/-- Characters lead to a later position. -/
theorem following_precedes (text : List Char) {more : List Char} (h : more ≠ []) :
    (following text).Precedes (following (text ++ more)) := by
  induction more using List.reverseRecOn with
  | nil => exact absurd rfl h
  | append_singleton more c ih =>
    rw [← append_assoc, following_concat]
    by_cases hmore : more = []
    · subst hmore
      rw [append_nil]
      exact precedes_after _ c
    · exact (ih hmore).trans (precedes_after _ c)

end Position

namespace Scanner

theorem past_append (s : Scanner) (text more : List Char) :
    s.past (text ++ more) = (s.past text).past more := foldl_append

/-- Where a text has been read to. The cursor counts its characters and the line its line ends;
the last of these stands before the line. -/
theorem past_start (text : List Char) : past {} text = ⟨text.length, 1 + text.count '\n',
    text.length - (text.rtakeWhile (· ≠ '\n')).length⟩ := by
  induction text using List.reverseRecOn with
  | nil => rfl
  | append_singleton text c ih =>
    rw [past_append, ih, past, foldl_cons, foldl_nil, after]
    by_cases hc : c = '\n'
    · subst hc
      simp [advance, newline, Nat.add_assoc]
    · rw [if_neg hc, rtakeWhile_concat_pos _ _ _ (by simpa using hc)]
      simp [advance, hc]

/-- What comes after a piece of text stands at the position that follows it. -/
theorem locationOf_past (text : List Char) :
    (past {} text).locationOf (past {} text).cursor = .source (.following text) := by
  have hle : (text.rtakeWhile (· ≠ '\n')).length ≤ text.length :=
    (rtakeWhile_suffix _ text).length_le
  rw [past_start, locationOf, following, Nat.sub_sub_self hle, Nat.add_comm _ 1]

end Scanner

/-- A lexeme stands in the text before another one. -/
def Lexeme.Precedes (x y : Lexeme) : Prop :=
  ∃ p q, x.location = .source p ∧ y.location = .source q ∧ p.Precedes q

namespace Token

/-- The front of a text is divided into the spellings of tokens, blanks and comments, and every
token has the position that follows what comes before it. -/
inductive Divided : List Char → List Lexeme → List Char → Prop
  | start {rest : List Char} : Divided [] [] rest
  | part {text cs rest : List Char} {lexemes : List Lexeme} {token? : Option Token}
      (h : Divided text lexemes (cs ++ rest)) (hcs : Spells cs token? rest) :
      Divided (text ++ cs)
        (lexemes ++ token?.toList.map fun t => ⟨t, .source (.following text)⟩) rest

def endOf (text : List Char) : Lexeme := ⟨.eof, .source (.following text)⟩

theorem Spells.ne_nil (h : Spells cs token? rest) : cs ≠ [] := by
  intro hnil
  cases h with
  | @symbol s _ _ hcs =>
    subst hnil
    obtain h | ⟨-, h⟩ := hcs
    · cases s <;> cases h
    · cases h
  | @keyword k =>
    obtain ⟨c, cs, hk, -⟩ := k.isWord_text
    cases hk.symm.trans hnil
  | _ => cases hnil

/-- A part of a text gives its token, with its position, and reading goes on after it. -/
theorem Spells.scanFrom_eq (h : Spells cs token? rest) (s : Scanner) :
    scanFrom s (cs ++ rest) =
      (scanFrom (s.past cs) rest).map (token?.toList.map (⟨·, s.locationOf s.cursor⟩) ++ ·) := by
  obtain ⟨c, cs, rfl⟩ := exists_cons_of_ne_nil h.ne_nil
  rw [cons_append, scanFrom, h.take_eq]
  dsimp only
  rw [drop_left]
  cases token? <;> cases scanFrom (s.past (c :: cs)) rest <;> rfl

/-- A text that is divided up to some place is read to its end, or up to a place where it is
malformed. -/
theorem Divided.scanFrom_cases (h : Divided text lexemes rest) :
    (∃ more, Divided (text ++ rest) (lexemes ++ more) [] ∧
      scanFrom (.past {} text) rest = .ok (more ++ [endOf (text ++ rest)])) ∨
    ∃ cause text' lexemes' rest', text ++ rest = text' ++ rest' ∧ Divided text' lexemes' rest' ∧
      Malformed rest' cause ∧
      scanFrom (.past {} text) rest = .error ⟨cause, .source (.following text')⟩ := by
  induction hn : rest.length using Nat.strong_induction_on generalizing text lexemes rest with
  | _ n ih =>
    cases rest with
    | nil =>
      refine .inl ⟨[], ?_, ?_⟩
      · rwa [append_nil, append_nil]
      · rw [scanFrom, append_nil, locationOf_past]
        rfl
    | cons c more =>
      cases htake : take c more ((past {} text).advance 1) with
      | error cause =>
        refine .inr ⟨cause, text, lexemes, c :: more, rfl, h, malformed_of_take htake, ?_⟩
        rw [scanFrom, htake, ← locationOf_past]
        rfl
      | ok result =>
        obtain ⟨token?, k, _⟩ := result
        -- the first part of the rest is divided off
        have hspells := spells_of_take htake
        have hsplit : c :: more = c :: more.take k ++ more.drop k := by
          rw [cons_append, take_append_drop]
        rw [hsplit] at h ⊢
        rw [hspells.scanFrom_eq, ← past_append, locationOf_past, ← append_assoc]
        have hlength : (more.drop k).length < n := by
          rw [← hn, length_cons, length_drop]
          omega
        obtain ⟨others, hdivided, hscan⟩ | ⟨cause, text', lexemes', rest', heq, hdivided, hbad,
          hscan⟩ := ih _ hlength (.part h hspells) rfl
        · rw [hscan]
          rw [append_assoc lexemes] at hdivided
          exact .inl ⟨_, hdivided, congrArg ok (append_assoc _ _ _).symm⟩
        · rw [hscan]
          exact .inr ⟨cause, text', lexemes', rest', heq, hdivided, hbad, rfl⟩

/-- Reading gives the tokens of a text that is divided up to some place, and what is read from
there on. -/
theorem Divided.scanFrom_eq {text rest : List Char} {lexemes : List Lexeme}
    (h : Divided text lexemes rest) :
    scanFrom {} (text ++ rest) = (scanFrom (.past {} text) rest).map (lexemes ++ ·) := by
  induction h with
  | start =>
    rw [nil_append]
    change _ = (scanFrom {} _).map _
    cases scanFrom {} _ <;> rfl
  | part h hcs ih =>
    rw [append_assoc, ih, hcs.scanFrom_eq, ← past_append, locationOf_past]
    cases scanFrom _ _ with
    | error e => rfl
    | ok more => exact congrArg ok (append_assoc _ _ _).symm

/-- A text can be read if and only if it is divided, and its lexemes are those of its parts and
the mark for its end. -/
theorem scan_eq_ok_iff {source : String} :
    scan source = .ok lexemes ↔
      ∃ tokens, Divided source.toList tokens [] ∧ lexemes = tokens ++ [endOf source.toList] := by
  constructor
  · intro h
    have hstart : Divided [] [] source.toList := .start
    obtain ⟨tokens, hdivided, hscan⟩ | ⟨_, _, _, _, _, _, _, hscan⟩ := hstart.scanFrom_cases
    · exact ⟨tokens, hdivided, ok.inj (h.symm.trans hscan)⟩
    · cases h.symm.trans hscan
  · rintro ⟨tokens, hdivided, rfl⟩
    have hscan := hdivided.scanFrom_eq
    rw [append_nil, scanFrom, locationOf_past] at hscan
    exact hscan

/-- Lexemes of a divided text come one after the other, before its end. -/
theorem Divided.pairwise (h : Divided text lexemes rest) :
    (lexemes ++ [endOf text]).Pairwise Lexeme.Precedes := by
  induction h with
  | start => exact pairwise_singleton _ _
  | @part text cs rest lexemes token? h hcs ih =>
    have hlater := following_precedes text hcs.ne_nil
    obtain ⟨hlexemes, -, hbefore⟩ := pairwise_append.mp ih
    have hend : ∀ x ∈ lexemes, x.Precedes (endOf (text ++ cs)) := by
      intro x hx
      obtain ⟨p, q, hp, hq, hpq⟩ := hbefore x hx _ mem_cons_self
      cases hq
      exact ⟨p, _, hp, rfl, hpq.trans hlater⟩
    cases token? with
    | none =>
      rw [Option.toList_none, map_nil, append_nil]
      refine pairwise_append.mpr ⟨hlexemes, pairwise_singleton _ _, fun x hx y hy => ?_⟩
      rw [mem_singleton.mp hy]
      exact hend x hx
    | some t =>
      rw [append_assoc]
      refine pairwise_append.mpr ⟨hlexemes, ?_, fun x hx y hy => ?_⟩
      · exact pairwise_pair.mpr ⟨_, _, rfl, rfl, hlater⟩
      · obtain rfl | hy := mem_cons.mp hy
        · -- the token stands where the text ended before
          have hx := hbefore x hx _ mem_cons_self
          exact hx
        · rw [mem_singleton.mp hy]
          exact hend x hx

end Token

/-- Where lexemes and errors stand. A text that can be read is divided into the spellings of its
tokens, blanks and comments; each token has the position that is found by counting the line ends
and characters in front of it, and so has the end of the text. These locations increase. A text
that cannot be read is divided up to something malformed, and the error has the position of its
first character. -/
theorem lexemes_located (source : String) :
    (∀ lexemes, Token.scan source = .ok lexemes →
      (∃ tokens, Token.Divided source.toList tokens [] ∧
        lexemes = tokens ++ [Token.endOf source.toList]) ∧ lexemes.Pairwise Lexeme.Precedes) ∧
    ∀ e, Token.scan source = .error e → ∃ text tokens rest, source.toList = text ++ rest ∧
      Token.Divided text tokens rest ∧ Token.Malformed rest e.cause ∧
      e.location = .source (.following text) := by
  constructor
  · intro lexemes h
    obtain ⟨tokens, hdivided, rfl⟩ := Token.scan_eq_ok_iff.mp h
    exact ⟨⟨tokens, hdivided, rfl⟩, hdivided.pairwise⟩
  · intro e h
    have hstart : Token.Divided [] [] source.toList := .start
    obtain ⟨_, -, hscan⟩ | ⟨cause, text, tokens, rest, heq, hdivided, hbad, hscan⟩ :=
      hstart.scanFrom_cases
    · cases h.symm.trans hscan
    · cases h.symm.trans hscan
      exact ⟨text, tokens, rest, heq, hdivided, hbad, rfl⟩

/-- A text with comments and escapes over several lines. -/
def overLines : String := "begin // '\n /* \"\n*/ c := '\\n'; end"

/-- A text with a string literal that is not closed in its line. -/
def openLiteral : String := "/* \n */ s := \"\\\"\n\";"

theorem lexemes_located_overLines :
    (∃ lexemes, Token.scan overLines = .ok lexemes ∧ lexemes.map Lexeme.location =
        [⟨1, 1⟩, ⟨3, 4⟩, ⟨3, 6⟩, ⟨3, 9⟩, ⟨3, 13⟩, ⟨3, 15⟩, ⟨3, 18⟩].map .source ∧
      (∃ tokens, Token.Divided overLines.toList tokens [] ∧
        lexemes = tokens ++ [Token.endOf overLines.toList]) ∧ lexemes.Pairwise Lexeme.Precedes) ∧
    Token.scan openLiteral = .error ⟨.openString, .source ⟨2, 10⟩⟩ ∧
      ∃ text tokens rest, openLiteral.toList = text ++ rest ∧
        Token.Divided text tokens rest ∧ Token.Malformed rest .openString ∧
        Position.following text = ⟨2, 10⟩ := by
  have hlocations : (Token.scan overLines).map (List.map Lexeme.location) =
      .ok ([⟨1, 1⟩, ⟨3, 4⟩, ⟨3, 6⟩, ⟨3, 9⟩, ⟨3, 13⟩, ⟨3, 15⟩, ⟨3, 18⟩].map .source) := by
    decide +kernel
  have herror : Token.scan openLiteral = .error ⟨.openString, .source ⟨2, 10⟩⟩ := by
    decide +kernel
  obtain ⟨lexemes, hok⟩ := exists_eq_ok (Token.scan overLines) (by decide +kernel)
  rw [hok] at hlocations
  obtain ⟨hdivided, hpairwise⟩ := (lexemes_located overLines).1 lexemes hok
  obtain ⟨text, tokens, rest, heq, hfront, hbad, hlocation⟩ :=
    (lexemes_located openLiteral).2 _ herror
  exact ⟨⟨lexemes, hok, Except.ok.inj hlocations, hdivided, hpairwise⟩, herror, text, tokens, rest,
    heq, hfront, hbad, (Location.source.inj hlocation).symm⟩

end BlockLang
