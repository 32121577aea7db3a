import BlockLang.Proofs.Assembly.Symbol
import BlockLang.Proofs.Text.Escape

/-!
# Nested applications can be read back

In the text of a tree commas, brackets, braces and quotes stand only where parts meet, except
inside a literal, which is escaped. So the text of each part ends where it has to, and what is
shown can be told from its text.
-/

namespace BlockLang

open EscapeStyle List

variable {r r' : List Char} {n : Option Nat} {t : Shown}

/-- The labels of applications. -/
inductive ShownLabel
  | named | index | call | arguments | grouping | not
  | arith (operator : Arith) | sign (s : Sign) | compare (relation : Relation)
  | logic (connective : Connective)
  | assign | branch | loop | ret | statement
  | function | forward | parameters | parameter | locals | vars
  deriving DecidableEq

namespace ShownLabel

def text : ShownLabel → String
  | named => "Named"
  | index => "Index"
  | call => "Call"
  | arguments => "Args"
  | grouping => "Grouping"
  | not => "Not"
  | arith operator => operator.label
  | sign s => s.label
  | compare relation => relation.label
  | logic connective => connective.label
  | assign => "Assign"
  | branch => "IF"
  | loop => "WHILE"
  | ret => "Return"
  | statement => "Stmt"
  | function => "FUNCTION"
  | forward => "FORWARD"
  | parameters => "ARGS"
  | parameter => "ARG"
  | locals => "LOCALS"
  | vars => "VAR"

def all : List ShownLabel :=
  [named, index, call, arguments, grouping, not, arith .add, arith .sub, arith .mul, arith .div,
    arith .mod, sign .minus, sign .plus, compare .equal, compare .notEqual, compare .greater,
    compare .less, compare .greaterEqual, compare .lessEqual, logic .and, logic .or, assign, branch,
    loop, ret, statement, function, forward, parameters, parameter, locals, vars]

theorem mem_all (l : ShownLabel) : l ∈ all := by
  cases l with
  | arith operator => cases operator <;> decide
  | sign s => cases s <;> decide
  | compare relation => cases relation <;> decide
  | logic connective => cases connective <;> decide
  | _ => decide

theorem text_injective {l l' : ShownLabel} (h : l.text = l'.text) : l = l' := by
  have hall : ∀ l ∈ all, all.find? (fun k => k.text = l.text) = some l := by decide +kernel
  have hl := hall l (mem_all l)
  rw [h, hall l' (mem_all l')] at hl
  exact (Option.some.inj hl).symm

end ShownLabel

/-- What the text of a tree is made of. -/
inductive Shown
  /-- A word, with extents in brackets after it; one that is left open is empty. -/
  | word (cs : List Char) (extents : List (Option Nat))
  | char (byte : UInt8)
  | string (text : String)
  | node (label : ShownLabel) (arguments : List Shown)
  | block (items : List Shown)

namespace Shown

/-- The characters that stand where the parts of a text meet. -/
def marks : List Char := ['(', ')', ',', '\x7b', '\x7d', '[', ']', '"', '\'', '\n']

/-- A character that stands inside of words. -/
def IsPlain (c : Char) : Prop := c ∉ marks

instance : DecidablePred IsPlain := fun c => inferInstanceAs (Decidable (c ∉ marks))

/-- All characters are plain, as a check. -/
def arePlain (cs : List Char) : Bool := cs.all fun c => decide (IsPlain c)

theorem isPlain_of_mem {cs : List Char} (h : arePlain cs) : ∀ c ∈ cs, IsPlain c := fun c hc =>
  of_decide_eq_true (List.all_eq_true.mp h c hc)

def extentDigits (n : Option Nat) : List Char := n.elim [] digits

def extentsChars : List (Option Nat) → List Char
  | [] => []
  | n :: ns => '[' :: (extentDigits n ++ ']' :: extentsChars ns)

/-- The characters in front of a block. -/
def blockFront : List Char := "Block ".toList

mutual

/-- The text of what is shown. -/
def chars : Shown → List Char
  | word cs extents => cs ++ extentsChars extents
  | char byte => '\'' :: (EscapeStyle.literal.byte byte ++ ['\''])
  | string s => '"' :: (literal.chars s ++ ['"'])
  | node label arguments => label.text.toList ++ '(' :: (list arguments ++ [')'])
  | block items => blockFront ++ '\x7b' :: '\n' :: (lines items ++ ['\x7d'])

def list : List Shown → List Char
  | [] => []
  | a :: as => a.chars ++ others as

def others : List Shown → List Char
  | [] => []
  | a :: as => ',' :: ' ' :: (a.chars ++ others as)

def lines : List Shown → List Char
  | [] => []
  | a :: as => a.chars ++ ',' :: '\n' :: lines as

end

mutual

/-- All words are not empty and hold plain characters only. -/
def WellFormed : Shown → Prop
  | word cs _ => cs ≠ [] ∧ ∀ c ∈ cs, IsPlain c
  | char _ | string _ => True
  | node _ arguments => AllWellFormed arguments
  | block items => AllWellFormed items

/-- All words in all items are not empty and hold plain characters only. -/
def AllWellFormed : List Shown → Prop
  | [] => True
  | a :: as => a.WellFormed ∧ AllWellFormed as

end

theorem allWellFormed_iff {as : List Shown} : AllWellFormed as ↔ ∀ a ∈ as, a.WellFormed := by
  induction as with
  | nil => simp [AllWellFormed]
  | cons a as ih => simp [AllWellFormed, ih]

/-! ### The front of a text -/

/-- The forms of what is shown. -/
inductive Form
  | word | char | string | node | block

def form : Shown → Form
  | word .. => .word
  | char _ => .char
  | string _ => .string
  | node .. => .node
  | block _ => .block

/-- The plain characters at the front. -/
def front : Shown → List Char
  | word cs _ => cs
  | char _ | string _ => []
  | node label _ => label.text.toList
  | block _ => blockFront

/-- What stands after the plain characters at the front. -/
def body : Shown → List Char
  | word _ extents => extentsChars extents
  | char byte => '\'' :: (EscapeStyle.literal.byte byte ++ ['\''])
  | string s => '"' :: (literal.chars s ++ ['"'])
  | node _ arguments => '(' :: (list arguments ++ [')'])
  | block items => '\x7b' :: '\n' :: (lines items ++ ['\x7d'])

theorem front_append_body (t : Shown) : t.front ++ t.body = t.chars := by
  cases t <;> simp only [front, body, chars, List.nil_append]

theorem isPlain_of_mem_front (h : t.WellFormed) : ∀ c ∈ t.front, IsPlain c := by
  cases t with
  | word cs extents => exact h.2
  | node label arguments =>
    have hall : ∀ l ∈ ShownLabel.all, arePlain l.text.toList := by decide +kernel
    exact isPlain_of_mem (hall label label.mem_all)
  | block items =>
    have hblock : arePlain blockFront := by decide
    exact isPlain_of_mem hblock
  | _ => exact List.forall_mem_nil _

/-- A text at whose front what was shown before is complete. -/
def Closes (r : List Char) : Prop := ∀ c, r.head? = some c → c = ',' ∨ c = ')'

theorem closes_comma (r : List Char) : Closes (',' :: r) := fun _ h => .inl (Option.some.inj h).symm

theorem closes_paren (r : List Char) : Closes (')' :: r) := fun _ h => .inr (Option.some.inj h).symm

theorem closes_others (as : List Shown) (r : List Char) : Closes (others as ++ ')' :: r) := by
  cases as with
  | nil => exact closes_paren r
  | cons a as => exact closes_comma _

/-- The form that the first character after the front tells. -/
def formOf : Option Char → Form
  | some '\'' => .char
  | some '"' => .string
  | some '(' => .node
  | some '\x7b' => .block
  | _ => .word

theorem head?_extents {extents : List (Option Nat)} (hr : Closes r) {c : Char}
    (h : (extentsChars extents ++ r).head? = some c) : c = '[' ∨ c = ',' ∨ c = ')' := by
  cases extents with
  | nil => exact .inr (hr c h)
  | cons n ns => exact .inl (Option.some.inj h).symm

theorem formOf_body (t : Shown) (hr : Closes r) : formOf (t.body ++ r).head? = t.form := by
  cases t with
  | word cs extents =>
    change formOf (extentsChars extents ++ r).head? = .word
    cases hhead : (extentsChars extents ++ r).head? with
    | none => rfl
    | some c => rcases head?_extents hr hhead with rfl | rfl | rfl <;> rfl
  | _ => rfl

theorem not_isPlain_body (t : Shown) (hr : Closes r) :
    ∀ c, (t.body ++ r).head? = some c → ¬ IsPlain c := by
  intro c h
  cases t with
  | word cs extents => rcases head?_extents hr h with rfl | rfl | rfl <;> decide
  | char byte => cases h; decide
  | string s => cases h; decide
  | node label arguments => cases h; decide
  | block items => cases h; decide

/-- The plain characters at the front and the form are read in one way only. -/
theorem front_inj {t' : Shown} (ht : t.WellFormed) (ht' : t'.WellFormed) (hr : Closes r)
    (hr' : Closes r') (h : t.chars ++ r = t'.chars ++ r') :
    t.front = t'.front ∧ t.body ++ r = t'.body ++ r' ∧ t.form = t'.form := by
  rw [← t.front_append_body, ← t'.front_append_body, append_assoc, append_assoc] at h
  obtain ⟨hfront, hbody⟩ := append_inj_of_kind (isPlain_of_mem_front ht) (isPlain_of_mem_front ht')
    (t.not_isPlain_body hr) (t'.not_isPlain_body hr') h
  refine ⟨hfront, hbody, ?_⟩
  rw [← t.formOf_body hr, ← t'.formOf_body hr', hbody]

/-- No text that is shown starts with what ends a list of arguments or a block. -/
theorem chars_append_ne {t : Shown} (h : t.WellFormed) (r : List Char) {c : Char}
    (hc : c = ')' ∨ c = '\x7d') (r' : List Char) : t.chars ++ r ≠ c :: r' := by
  intro heq
  have hmark : ¬ IsPlain c := by rcases hc with rfl | rfl <;> decide
  rw [← t.front_append_body] at heq
  cases hfront : t.front with
  | cons c' cs =>
    have hplain := isPlain_of_mem_front h c' (by rw [hfront]; exact mem_cons_self)
    rw [hfront] at heq
    exact hmark ((cons.inj heq).1 ▸ hplain)
  | nil =>
    cases t with
    | word cs extents => exact h.1 hfront
    | char byte => rcases hc with rfl | rfl <;> exact absurd (cons.inj heq).1 (by decide)
    | string s => rcases hc with rfl | rfl <;> exact absurd (cons.inj heq).1 (by decide)
    | node label arguments =>
      have hall : ∀ l ∈ ShownLabel.all, l.text.toList ≠ [] := by decide +kernel
      exact hall label label.mem_all hfront
    | block items => cases hfront

/-! ### Extents -/

theorem extentDigits_injective {n' : Option Nat} (h : extentDigits n = extentDigits n') :
    n = n' := by
  cases n with
  | none =>
    cases n' with
    | none => rfl
    | some k' => exact absurd h.symm (digits_ne_nil k')
  | some k =>
    cases n' with
    | none => exact absurd h (digits_ne_nil k)
    | some k' => exact congrArg some (digits_injective h)

theorem isDigit_of_mem_extentDigits : ∀ c ∈ extentDigits n, c.isDigit := by
  cases n with
  | none => exact forall_mem_nil _
  | some k => exact fun c hc => isDigit_of_mem_digits hc

/-- Extents at the front of a text are read in one way only. -/
theorem extentsChars_append_inj {ns ns' : List (Option Nat)} (hr : Closes r) (hr' : Closes r')
    (h : extentsChars ns ++ r = extentsChars ns' ++ r') : ns = ns' ∧ r = r' := by
  have hopen : ∀ cs, ¬ Closes ('[' :: cs) := by
    intro cs hclose
    rcases hclose '[' rfl with h | h <;> cases h
  induction ns generalizing ns' with
  | nil =>
    cases ns' with
    | nil => exact ⟨rfl, h⟩
    | cons n' ns' =>
      rw [extentsChars, nil_append] at h
      exact absurd (h ▸ hr) (hopen _)
  | cons n ns ih =>
    cases ns' with
    | nil =>
      rw [extentsChars, extentsChars, nil_append] at h
      exact absurd (h ▸ hr') (hopen _)
    | cons n' ns' =>
      simp only [extentsChars, cons_append, append_assoc] at h
      have hbracket : ∀ (cs : List Char) (c : Char), (']' :: cs).head? = some c → ¬ c.isDigit := by
        rintro cs c ⟨⟩
        decide
      obtain ⟨hn, hrest⟩ := append_inj_of_kind isDigit_of_mem_extentDigits
        isDigit_of_mem_extentDigits (hbracket _) (hbracket _) (cons.inj h).2
      obtain ⟨rfl, rfl⟩ := ih (cons.inj hrest).2
      exact ⟨by rw [extentDigits_injective hn], rfl⟩

/-! ### Whole texts -/

mutual

/-- What is shown at the front of a text is read in one way only. -/
theorem chars_append_inj : ∀ (t : Shown) {t' : Shown} {r r' : List Char}, t.WellFormed →
    t'.WellFormed → Closes r → Closes r' → t.chars ++ r = t'.chars ++ r' → t = t' ∧ r = r'
  | word cs extents, t', r, r', ht, ht', hr, hr', h => by
    obtain ⟨hfront, hbody, hform⟩ := front_inj ht ht' hr hr' h
    cases t' with
    | word cs' extents' =>
      obtain ⟨rfl, rfl⟩ := extentsChars_append_inj hr hr' hbody
      cases hfront
      exact ⟨rfl, rfl⟩
    | _ => cases hform
  | char byte, t', r, r', ht, ht', hr, hr', h => by
    obtain ⟨-, hbody, hform⟩ := front_inj ht ht' hr hr' h
    cases t' with
    | char byte' =>
      simp only [body, cons_append, append_assoc, nil_append] at hbody
      obtain ⟨rfl, hrest⟩ := byte_append_inj (cons.inj hbody).2
      exact ⟨rfl, (cons.inj hrest).2⟩
    | _ => cases hform
  | string s, t', r, r', ht, ht', hr, hr', h => by
    obtain ⟨-, hbody, hform⟩ := front_inj ht ht' hr hr' h
    cases t' with
    | string s' =>
      simp only [body, cons_append, append_assoc, nil_append] at hbody
      obtain ⟨rfl, rfl⟩ := EscapeStyle.chars_append_inj (cons.inj hbody).2
      exact ⟨rfl, rfl⟩
    | _ => cases hform
  | node label arguments, t', r, r', ht, ht', hr, hr', h => by
    obtain ⟨hfront, hbody, hform⟩ := front_inj ht ht' hr hr' h
    cases t' with
    | node label' arguments' =>
      cases ShownLabel.text_injective (String.toList_injective hfront)
      simp only [body, cons_append, append_assoc, nil_append] at hbody
      obtain ⟨rfl, rfl⟩ := list_append_inj arguments ht ht' (cons.inj hbody).2
      exact ⟨rfl, rfl⟩
    | _ => cases hform
  | block items, t', r, r', ht, ht', hr, hr', h => by
    obtain ⟨-, hbody, hform⟩ := front_inj ht ht' hr hr' h
    cases t' with
    | block items' =>
      simp only [body, cons_append, append_assoc, nil_append] at hbody
      obtain ⟨rfl, rfl⟩ :=
        lines_append_inj items ht ht' (cons.inj (cons.inj hbody).2).2
      exact ⟨rfl, rfl⟩
    | _ => cases hform

theorem list_append_inj : ∀ (as : List Shown) {as' : List Shown} {r r' : List Char},
    AllWellFormed as → AllWellFormed as' → list as ++ ')' :: r = list as' ++ ')' :: r' →
      as = as' ∧ r = r'
  | [], [], _, _, _, _, h => ⟨rfl, (cons.inj h).2⟩
  | [], a' :: as', r, r', _, has', h => by
    rw [list, nil_append, list, append_assoc] at h
    exact absurd h.symm (chars_append_ne has'.1 _ (.inl rfl) _)
  | a :: as, [], r, r', has, _, h => by
    rw [list, list, nil_append, append_assoc] at h
    exact absurd h (chars_append_ne has.1 _ (.inl rfl) _)
  | a :: as, a' :: as', r, r', has, has', h => by
    rw [list, list, append_assoc, append_assoc] at h
    obtain ⟨rfl, hrest⟩ := chars_append_inj a has.1 has'.1 (closes_others as r)
      (closes_others as' r') h
    obtain ⟨rfl, rfl⟩ := others_append_inj as has.2 has'.2 hrest
    exact ⟨rfl, rfl⟩

theorem others_append_inj : ∀ (as : List Shown) {as' : List Shown} {r r' : List Char},
    AllWellFormed as → AllWellFormed as' → others as ++ ')' :: r = others as' ++ ')' :: r' →
      as = as' ∧ r = r'
  | [], [], _, _, _, _, h => ⟨rfl, (cons.inj h).2⟩
  | [], a' :: as', r, r', _, has', h => by
    cases (cons.inj h).1
  | a :: as, [], r, r', has, _, h => by
    cases (cons.inj h).1
  | a :: as, a' :: as', r, r', has, has', h => by
    simp only [others, cons_append, append_assoc, cons.injEq, true_and] at h
    obtain ⟨rfl, hrest⟩ := chars_append_inj a has.1 has'.1 (closes_others as r)
      (closes_others as' r') h
    obtain ⟨rfl, rfl⟩ := others_append_inj as has.2 has'.2 hrest
    exact ⟨rfl, rfl⟩

theorem lines_append_inj : ∀ (as : List Shown) {as' : List Shown} {r r' : List Char},
    AllWellFormed as → AllWellFormed as' →
      lines as ++ '\x7d' :: r = lines as' ++ '\x7d' :: r' → as = as' ∧ r = r'
  | [], [], _, _, _, _, h => ⟨rfl, (cons.inj h).2⟩
  | [], a' :: as', r, r', _, has', h => by
    rw [lines, nil_append, lines, append_assoc] at h
    exact absurd h.symm (chars_append_ne has'.1 _ (.inr rfl) _)
  | a :: as, [], r, r', has, _, h => by
    rw [lines, lines, nil_append, append_assoc] at h
    exact absurd h (chars_append_ne has.1 _ (.inr rfl) _)
  | a :: as, a' :: as', r, r', has, has', h => by
    simp only [lines, cons_append, append_assoc] at h
    obtain ⟨rfl, hrest⟩ := chars_append_inj a has.1 has'.1 (closes_comma _) (closes_comma _) h
    simp only [cons.injEq, true_and] at hrest
    obtain ⟨rfl, rfl⟩ := lines_append_inj as has.2 has'.2 hrest
    exact ⟨rfl, rfl⟩

end

end Shown

end BlockLang
