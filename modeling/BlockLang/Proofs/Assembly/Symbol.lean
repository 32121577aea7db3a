import BlockLang.Assembly
import Mathlib.Logic.Basic

/-!
# Labels as they are written

A label of a function is written as its name, its depth and its serial number. Behind the last
underscore there are only the last two, so the text tells the label. Labels of other kinds differ
in their first character or in their last ones.
-/

namespace BlockLang

open Assembly List

variable {c : Char} {g : FunctionDecl} {depth m n serial : Nat}

/-- A list is split in one way only into characters of a kind and a rest that starts with
another character. -/
theorem append_inj_of_kind {α : Type} {P : α → Prop} :
    ∀ {xs ys as bs : List α}, (∀ c ∈ xs, P c) → (∀ c ∈ ys, P c) → (∀ c, as.head? = some c → ¬ P c) →
      (∀ c, bs.head? = some c → ¬ P c) → xs ++ as = ys ++ bs → xs = ys ∧ as = bs
  | [], [], _, _, _, _, _, _, h => ⟨rfl, h⟩
  | [], y :: ys, as, bs, _, hys, has, _, h => by
    have hhead : as.head? = some y := congrArg head? h
    exact absurd (hys y mem_cons_self) (has y hhead)
  | x :: xs, [], as, bs, hxs, _, _, hbs, h => by
    have hhead : bs.head? = some x := (congrArg head? h).symm
    exact absurd (hxs x mem_cons_self) (hbs x hhead)
  | x :: xs, y :: ys, as, bs, hxs, hys, has, hbs, h => by
    obtain ⟨rfl, htail⟩ := cons.inj h
    obtain ⟨rfl, rfl⟩ := append_inj_of_kind (forall_mem_cons.mp hxs).2
      (forall_mem_cons.mp hys).2 has hbs htail
    exact ⟨rfl, rfl⟩

/-! ### Numbers -/

def digits (n : Nat) : List Char := Nat.toDigits 10 n

theorem toList_toString (n : Nat) : (toString n).toList = digits n := Nat.toList_repr

theorem isDigit_of_mem_digits (h : c ∈ digits n) : c.isDigit :=
  Nat.isDigit_of_mem_toDigits (by decide) (by decide) h

theorem digits_injective (h : digits m = digits n) : m = n := by
  have hvalue := congrArg (Nat.ofDigitChars 10 · 0) h
  simpa [digits, Nat.ofDigitChars_toDigits] using hvalue

theorem digits_ne_nil (n : Nat) : digits n ≠ [] := Nat.toDigits_ne_nil

namespace FunctionLabel

/-! ### Labels of functions -/

/-- What stands behind the last underscore. -/
def tail (depth serial : Nat) : List Char :=
  digits depth ++ if 0 < serial then '.' :: digits serial else []

theorem mem_tail (h : c ∈ tail depth serial) : c.isDigit ∨ c = '.' := by
  rcases mem_append.mp h with h | h
  · exact .inl (isDigit_of_mem_digits h)
  · split at h
    · rcases mem_cons.mp h with h | h
      · exact .inr h
      · exact .inl (isDigit_of_mem_digits h)
    · cases h

/-- Depth and serial number can be told from their text. -/
theorem tail_injective {depth' serial' : Nat} (h : tail depth serial = tail depth' serial') :
    depth = depth' ∧ serial = serial' := by
  have hpoint : ∀ (n : Nat) (c : Char),
      (if 0 < n then '.' :: digits n else []).head? = some c → ¬ c.isDigit := by
    intro n c hc
    split at hc
    · cases hc
      decide
    · cases hc
  obtain ⟨hdepth, hserial⟩ := append_inj_of_kind (P := fun c => c.isDigit)
    (fun _ => isDigit_of_mem_digits) (fun _ => isDigit_of_mem_digits) (hpoint _) (hpoint _) h
  refine ⟨digits_injective hdepth, ?_⟩
  split at hserial <;> split at hserial
  · exact digits_injective (cons.inj hserial).2
  · cases hserial
  · cases hserial
  · omega

/-- The last character of a depth or a serial number is a digit. -/
theorem getLast?_tail (depth serial : Nat) :
    ∃ c, (tail depth serial).getLast? = some c ∧ c.isDigit := by
  have hdigits : ∀ n, ∃ c, (digits n).getLast? = some c ∧ c.isDigit := fun n =>
    ⟨_, getLast?_eq_some_getLast (digits_ne_nil n),
      isDigit_of_mem_digits (getLast_mem _)⟩
  unfold tail
  split
  · obtain ⟨c, hc, hdigit⟩ := hdigits serial
    refine ⟨c, ?_, hdigit⟩
    rw [getLast?_append, getLast?_cons, hc]
    rfl
  · rw [append_nil]
    exact hdigits depth

variable {l l' : FunctionLabel}

/-- A label of a function has a depth that is not negative. -/
def IsDeep (l : FunctionLabel) : Prop := ∃ depth : Nat, l.depth = some (depth : Int)

theorem isDeep_of_nonneg {depth : Int} (h : l.depth = some depth) (hdepth : 0 ≤ depth) :
    l.IsDeep := ⟨depth.toNat, by rw [h, Int.toNat_of_nonneg hdepth]⟩

theorem toList_text (h : l.depth = some (depth : Int)) :
    l.text.toList = '_' :: (l.name.toList ++ '_' :: tail depth l.serial) := by
  have hdepth : (toString (depth : Int)).toList = digits depth := Nat.toList_repr
  rw [text, h]
  simp only [String.toList_append, hdepth, tail]
  split <;> simp [digits]

/-- The text of a label tells the label. -/
theorem eq_of_text_eq (hl : l.IsDeep) (hl' : l'.IsDeep) (h : l.text = l'.text) : l = l' := by
  obtain ⟨depth, hdepth⟩ := hl
  obtain ⟨depth', hdepth'⟩ := hl'
  have hlist := congrArg (reverse ∘ String.toList) h
  simp only [Function.comp, toList_text hdepth, toList_text hdepth', reverse_cons,
    reverse_append, append_assoc, singleton_append] at hlist
  -- from the end, the text is cut at the first underscore
  have hkind : ∀ depth serial, ∀ c ∈ (tail depth serial).reverse, c ≠ '_' := by
    rintro depth serial c hc rfl
    exact absurd (mem_tail (mem_reverse.mp hc)) (by decide)
  obtain ⟨htail, hrest⟩ := append_inj_of_kind (P := (· ≠ '_')) (hkind _ _) (hkind _ _)
    (fun c hc => by cases hc; simp) (fun c hc => by cases hc; simp) hlist
  obtain ⟨rfl, hserial⟩ := tail_injective (reverse_inj.mp htail)
  have hname : l.name.toList = l'.name.toList := by simpa using hrest
  obtain ⟨name, d, serial⟩ := l
  obtain ⟨name', d', serial'⟩ := l'
  cases hdepth
  cases hdepth'
  cases String.toList_inj.mp hname
  cases hserial
  rfl

theorem getLast?_text (hl : l.IsDeep) : ∃ c, l.text.toList.getLast? = some c ∧ c.isDigit := by
  obtain ⟨depth, hdepth⟩ := hl
  obtain ⟨c, hc, hdigit⟩ := getLast?_tail depth l.serial
  refine ⟨c, ?_, hdigit⟩
  rw [toList_text hdepth, getLast?_cons, getLast?_append, getLast?_cons, hc]
  rfl

theorem toList_endLabel (l : FunctionLabel) :
    (endLabel l).toList = l.text.toList ++ ['_', 'e', 'n', 'd'] :=
  String.toList_append

theorem eq_of_endLabel_eq (hl : l.IsDeep) (hl' : l'.IsDeep)
    (h : endLabel l = endLabel l') : l = l' := by
  refine eq_of_text_eq hl hl' (String.toList_inj.mp ?_)
  have hlist := congrArg String.toList h
  rw [toList_endLabel, toList_endLabel] at hlist
  exact append_cancel_right hlist

/-- The label of a function is not that of an end. -/
theorem text_ne_endLabel (hl : l.IsDeep) (l' : FunctionLabel) :
    l.text ≠ endLabel l' := by
  intro h
  obtain ⟨c, hc, hdigit⟩ := getLast?_text hl
  rw [h, toList_endLabel, getLast?_append] at hc
  cases hc
  exact absurd hdigit (by decide)

/-- No label of a function is that of a standard routine. -/
theorem text_ne_standard (hl : l.IsDeep) (hg : g ∈ FunctionDecl.standard) :
    l.text ≠ (standard g.name).text := by
  intro h
  have hlast : ∀ g ∈ FunctionDecl.standard,
      (standard g.name).text.toList.getLast?.any Char.isDigit = false := by decide
  obtain ⟨c, hc, hdigit⟩ := getLast?_text hl
  have hnot := hlast g hg
  rw [← h, hc, Option.any_some, hdigit] at hnot
  cases hnot

theorem endLabel_ne_standard (l : FunctionLabel) (hg : g ∈ FunctionDecl.standard) :
    endLabel l ≠ (standard g.name).text := by
  intro h
  have hlast : ∀ g ∈ FunctionDecl.standard,
      (standard g.name).text.toList.reverse.take 4 ≠ ['d', 'n', 'e', '_'] := by decide
  refine hlast g hg ?_
  rw [← h, toList_endLabel, reverse_append]
  rfl

end FunctionLabel

/-! ### Labels of other kinds -/

namespace Assembly

theorem quadLabel_injective (h : quadLabel m = quadLabel n) : m = n := by
  have hlist := congrArg String.toList h
  rw [quadLabel, quadLabel, String.toList_append, String.toList_append, toList_toString,
    toList_toString] at hlist
  exact digits_injective (append_cancel_left hlist)

theorem stringLabel_injective (h : stringLabel m = stringLabel n) : m = n := by
  have hlist := congrArg String.toList h
  rw [stringLabel, stringLabel, String.toList_append, String.toList_append, toList_toString,
    toList_toString] at hlist
  exact digits_injective (append_cancel_left hlist)

def initial (label : String) : Option Char := label.toList.head?

@[simp] theorem initial_main : initial "main" = some 'm' := rfl

@[simp] theorem initial_quadLabel (n : Nat) : initial (quadLabel n) = some 'L' := by
  rw [initial, quadLabel, String.toList_append]
  rfl

@[simp] theorem initial_stringLabel (n : Nat) : initial (stringLabel n) = some 's' := by
  rw [initial, stringLabel, String.toList_append]
  rfl

@[simp] theorem initial_text (l : FunctionLabel) : initial l.text = some '_' := by
  unfold FunctionLabel.text initial
  split <;> simp [String.toList_append]

@[simp] theorem initial_endLabel (l : FunctionLabel) : initial (endLabel l) = some '_' := by
  have htext := initial_text l
  unfold initial at htext ⊢
  rw [FunctionLabel.toList_endLabel, head?_append, htext]
  rfl

theorem quadLabel_ne_text (n : Nat) (l : FunctionLabel) : quadLabel n ≠ l.text :=
  ne_of_apply_ne initial (by simp)

theorem quadLabel_ne_endLabel (n : Nat) (l : FunctionLabel) : quadLabel n ≠ endLabel l :=
  ne_of_apply_ne initial (by simp)

end Assembly

end BlockLang
