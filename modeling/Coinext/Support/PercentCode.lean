import Mathlib.Data.List.Basic
import Mathlib.Tactic.Common

/-!
# Percent-encoding

Bytes are written as text of unreserved characters and escapes, `encode`, and read back by `decode`.
Reading inverts writing (`decode_encode`), and what is written has none of the characters that
separate one piece of a query from the next (`notMem_encode`).

`hexLower` writes bytes as pairs of hexadecimal digits, which are unreserved.
-/

namespace PercentCode

/-- The characters that stand for themselves. -/
def isUnreserved (c : Char) : Bool :=
  c.isAlphanum || c = '-' || c = '_' || c = '.' || c = '~'

/-- A hexadecimal digit, where `a` is the letter for ten. -/
def hexDigit (a : Char) (n : ℕ) : Char :=
  if n < 10 then Char.ofNat ('0'.toNat + n) else Char.ofNat (a.toNat + (n - 10))

def hexValue (c : Char) : Option ℕ :=
  if '0' ≤ c ∧ c ≤ '9' then some (c.toNat - '0'.toNat)
  else if 'A' ≤ c ∧ c ≤ 'F' then some (c.toNat - 'A'.toNat + 10)
  else if 'a' ≤ c ∧ c ≤ 'f' then some (c.toNat - 'a'.toNat + 10)
  else none

def encodeByte (b : UInt8) : List Char :=
  if isUnreserved (Char.ofNat b.toNat) then [Char.ofNat b.toNat]
  else ['%', hexDigit 'A' (b.toNat / 16), hexDigit 'A' (b.toNat % 16)]

def encode (bytes : List UInt8) : List Char := bytes.flatMap encodeByte

/-- The bytes of a text: an escape stands for one byte, any other character for its own. -/
def decode : List Char → Option (List UInt8)
  | [] => some []
  | c :: cs =>
    if c = '%' then match cs with
      | high :: low :: cs => do
        let high ← hexValue high
        let low ← hexValue low
        (decode cs).map (UInt8.ofNat (16 * high + low) :: ·)
      | _ => none
    else (decode cs).map (String.utf8EncodeChar c ++ ·)

/-- The bytes of a string. -/
def utf8Bytes (s : String) : List UInt8 := s.toUTF8.data.toList

/-- Pairs of hexadecimal digits. -/
def hexLower (bytes : List UInt8) : List Char :=
  bytes.flatMap fun b ↦ [hexDigit 'a' (b.toNat / 16), hexDigit 'a' (b.toNat % 16)]

/-! ## Single bytes -/

theorem hexValue_hexDigit {n : ℕ} (h : n < 16) : hexValue (hexDigit 'A' n) = some n := by
  revert n
  decide

theorem isUnreserved_hexDigit {n : ℕ} (h : n < 16) :
    isUnreserved (hexDigit 'A' n) = true ∧ isUnreserved (hexDigit 'a' n) = true := by
  revert n
  decide

theorem utf8_of_isUnreserved {b : UInt8} (h : isUnreserved (Char.ofNat b.toNat) = true) :
    String.utf8EncodeChar (Char.ofNat b.toNat) = [b] ∧ Char.ofNat b.toNat ≠ '%' := by
  have hall : ∀ n < 256, isUnreserved (Char.ofNat n) = true →
      String.utf8EncodeChar (Char.ofNat n) = [UInt8.ofNat n] ∧ Char.ofNat n ≠ '%' := by
    decide +kernel
  have hb := hall b.toNat b.toNat_lt h
  rwa [UInt8.ofNat_toNat] at hb

theorem decode_cons {c : Char} (h : c ≠ '%') (cs : List Char) :
    decode (c :: cs) = (decode cs).map (String.utf8EncodeChar c ++ ·) := by
  rw [decode.eq_def]
  exact if_neg h

theorem decode_escape {high low : ℕ} (hhigh : high < 16) (hlow : low < 16) (cs : List Char) :
    decode ('%' :: hexDigit 'A' high :: hexDigit 'A' low :: cs)
      = (decode cs).map (UInt8.ofNat (16 * high + low) :: ·) := by
  rw [decode.eq_def]
  simp only [if_pos, hexValue_hexDigit hhigh, hexValue_hexDigit hlow, Option.bind_eq_bind,
    Option.bind_some]

theorem decode_encodeByte_append (b : UInt8) (cs : List Char) :
    decode (encodeByte b ++ cs) = (decode cs).map (b :: ·) := by
  rw [encodeByte]
  split_ifs with hplain
  · obtain ⟨hbyte, hpercent⟩ := utf8_of_isUnreserved hplain
    rw [List.singleton_append, decode_cons hpercent, hbyte]
    rfl
  · have hb := b.toNat_lt
    have hsplit : 16 * (b.toNat / 16) + b.toNat % 16 = b.toNat := Nat.div_add_mod _ _
    have hhigh : b.toNat / 16 < 16 := by omega
    have hlow : b.toNat % 16 < 16 := by omega
    have hescape := decode_escape hhigh hlow cs
    rw [hsplit, UInt8.ofNat_toNat] at hescape
    exact hescape

theorem isUnreserved_of_mem_encodeByte {b : UInt8} {c : Char} (h : c ∈ encodeByte b) :
    isUnreserved c = true ∨ c = '%' := by
  rw [encodeByte] at h
  split_ifs at h with hplain
  · rw [List.mem_singleton.mp h]
    exact .inl hplain
  · have hb := b.toNat_lt
    simp only [List.mem_cons, List.not_mem_nil, or_false] at h
    rcases h with rfl | rfl | rfl
    · exact .inr rfl
    · exact .inl (isUnreserved_hexDigit (by omega)).1
    · exact .inl (isUnreserved_hexDigit (by omega)).1

/-! ## Whole texts -/

/-- **Reading inverts writing.** -/
theorem decode_encode (bytes : List UInt8) : decode (encode bytes) = some bytes := by
  induction bytes with
  | nil => rfl
  | cons b bytes ih =>
    have hcons : encode (b :: bytes) = encodeByte b ++ encode bytes := List.flatMap_cons
    rw [hcons, decode_encodeByte_append, ih]
    rfl

theorem notMem_encode {c : Char} (hc : isUnreserved c = false) (hpercent : c ≠ '%')
    (bytes : List UInt8) : c ∉ encode bytes := by
  intro hmem
  obtain ⟨b, -, hb⟩ := List.mem_flatMap.mp hmem
  rcases isUnreserved_of_mem_encodeByte hb with hplain | heq
  · rw [hc] at hplain
    cases hplain
  · exact hpercent heq

theorem isUnreserved_of_mem_hexLower {bytes : List UInt8} {c : Char} (h : c ∈ hexLower bytes) :
    isUnreserved c = true := by
  obtain ⟨b, -, hb⟩ := List.mem_flatMap.mp h
  have hlt := b.toNat_lt
  simp only [List.mem_cons, List.not_mem_nil, or_false] at hb
  rcases hb with rfl | rfl
  · exact (isUnreserved_hexDigit (by omega)).2
  · exact (isUnreserved_hexDigit (by omega)).2

theorem utf8Bytes_eq (s : String) : utf8Bytes s = s.toList.flatMap String.utf8EncodeChar := by
  rw [utf8Bytes, String.toUTF8_eq_toByteArray, ← String.utf8Encode_toList, List.utf8Encode,
    List.toList_data_toByteArray]

theorem fromUTF8?_utf8Bytes (s : String) : String.fromUTF8? ⟨(utf8Bytes s).toArray⟩ = some s := by
  rw [utf8Bytes, Array.toArray_toList]
  exact dif_pos s.isValidUTF8

theorem toNat_of_isAlpha {c : Char} (h : c.isAlpha = true) : c.toNat < 128 := by
  have hcase : (decide (c.val ≥ 65 ∧ c.val ≤ 90) || (decide (c.val ≥ 97) && decide (c.val ≤ 122)))
      = true := h
  simp only [Bool.or_eq_true, Bool.and_eq_true, decide_eq_true_eq, UInt32.le_iff_toNat_le,
    ge_iff_le] at hcase
  change 65 ≤ c.toNat ∧ c.toNat ≤ 90 ∨ 97 ≤ c.toNat ∧ c.toNat ≤ 122 at hcase
  omega

theorem toNat_of_isUnreserved {c : Char} (h : isUnreserved c = true) : c.toNat < 128 := by
  simp only [isUnreserved, Char.isAlphanum, Char.isDigit, Bool.or_eq_true, Bool.and_eq_true,
    decide_eq_true_eq, UInt32.le_iff_toNat_le, ge_iff_le, or_assoc] at h
  change c.isAlpha = true ∨ 48 ≤ c.toNat ∧ c.toNat ≤ 57 ∨
    c = '-' ∨ c = '_' ∨ c = '.' ∨ c = '~' at h
  rcases h with h | h | rfl | rfl | rfl | rfl
  · exact toNat_of_isAlpha h
  · omega
  all_goals decide

theorem encode_utf8EncodeChar {c : Char} (h : isUnreserved c = true) :
    encode (String.utf8EncodeChar c) = [c] := by
  have hascii := toNat_of_isUnreserved h
  have hall : ∀ n < 128, isUnreserved (Char.ofNat n) = true →
      encode (String.utf8EncodeChar (Char.ofNat n)) = [Char.ofNat n] := by decide
  have hc := hall c.toNat hascii
  rw [Char.ofNat_toNat] at hc
  exact hc h

theorem encode_utf8Bytes {s : String} (h : ∀ c ∈ s.toList, isUnreserved c = true) :
    encode (utf8Bytes s) = s.toList := by
  rw [utf8Bytes_eq, encode, List.flatMap_assoc]
  have hsame : s.toList.flatMap (fun c ↦ encode (String.utf8EncodeChar c))
      = s.toList.flatMap fun c ↦ [c] :=
    List.flatMap_congr fun c hc ↦ encode_utf8EncodeChar (h c hc)
  exact hsame.trans (List.flatMap_singleton' _)

end PercentCode
