import BlockLang.Token.Scan

/-!
# Escaped bytes can be told apart

A byte inside a quoted literal is written as one character, as a backslash and a character, or as a
backslash, an `x` and two digits. The first two characters tell which. A quote ends them, as no
escaped byte starts with one.
-/

namespace BlockLang

open List

variable {r r' : List Char} {s s' : String} {b b' : UInt8}

namespace EscapeStyle

/-- Whether characters have a form that an escaped byte of a literal may have. -/
def isForm : List Char → Bool
  | [c] => c != '\\' && c != '"' && c != '\''
  | ['\\', c] => c != 'x'
  | ['\\', 'x', _, _] => true
  | _ => false

theorem forall_byte {P : UInt8 → Prop} (h : ∀ n < 256, P (UInt8.ofNat n)) (b : UInt8) : P b := by
  have hb := h b.toNat b.toNat_lt
  rwa [UInt8.ofNat_toNat] at hb

theorem isForm_byte : ∀ b, isForm (literal.byte b) = true := forall_byte (by decide +kernel)

/-- An escaped byte is read as that byte. -/
theorem takeByte_byte : ∀ b,
    (Token.takeByte (literal.byte b)).toOption = some (b, (literal.byte b).length) :=
  forall_byte (by decide +kernel)

theorem byte_injective (h : literal.byte b = literal.byte b') : b = b' := by
  have hread := takeByte_byte b
  rw [h, takeByte_byte b'] at hread
  exact (congrArg Prod.fst (Option.some.inj hread)).symm

/-- No form is a proper part of another at the front of a text. -/
theorem form_append_inj {cs cs' : List Char} (hcs : isForm cs) (hcs' : isForm cs')
    (h : cs ++ r = cs' ++ r') : cs = cs' ∧ r = r' := by
  unfold isForm at hcs hcs'
  split at hcs <;> split at hcs' <;> grind

/-- An escaped byte at the front of a text is read in one way only. -/
theorem byte_append_inj (h : literal.byte b ++ r = literal.byte b' ++ r') : b = b' ∧ r = r' := by
  obtain ⟨hb, hr⟩ := form_append_inj (isForm_byte b) (isForm_byte b') h
  exact ⟨byte_injective hb, hr⟩

/-- No escaped byte starts with a double quote. -/
theorem byte_append_ne_quote (b : UInt8) (r r' : List Char) : literal.byte b ++ r ≠ '"' :: r' := by
  have hb := isForm_byte b
  unfold isForm at hb
  split at hb <;> simp_all

theorem bytes_append_inj {bs bs' : List UInt8}
    (h : bs.flatMap literal.byte ++ '"' :: r = bs'.flatMap literal.byte ++ '"' :: r') :
    bs = bs' ∧ r = r' := by
  induction bs generalizing bs' with
  | nil =>
    cases bs' with
    | nil => exact ⟨rfl, (List.cons.inj h).2⟩
    | cons b' bs' =>
      rw [flatMap_cons, append_assoc] at h
      exact absurd h.symm (byte_append_ne_quote b' _ _)
  | cons b bs ih =>
    rw [flatMap_cons, append_assoc] at h
    cases bs' with
    | nil => exact absurd h (byte_append_ne_quote b _ _)
    | cons b' bs' =>
      rw [flatMap_cons, append_assoc] at h
      obtain ⟨rfl, hrest⟩ := byte_append_inj h
      obtain ⟨rfl, rfl⟩ := ih hrest
      exact ⟨rfl, rfl⟩

/-- A text is determined by its bytes. -/
theorem eq_of_bytes_eq
    (h : s.toList.flatMap String.utf8EncodeChar = s'.toList.flatMap String.utf8EncodeChar) :
    s = s' := by
  have hencode : s.toList.utf8Encode = s'.toList.utf8Encode := congrArg List.toByteArray h
  rw [← String.toByteArray_ofList, ← String.toByteArray_ofList] at hencode
  simpa using String.toByteArray_inj.mp hencode

/-- An escaped text with a quote after it is read in one way only. -/
theorem chars_append_inj (h : literal.chars s ++ '"' :: r = literal.chars s' ++ '"' :: r') :
    s = s' ∧ r = r' := by
  obtain ⟨hbytes, hr⟩ := bytes_append_inj h
  exact ⟨eq_of_bytes_eq hbytes, hr⟩

end EscapeStyle

end BlockLang
