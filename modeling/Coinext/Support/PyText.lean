import Mathlib

/-!
# Python's string methods

The string methods a normaliser of names is written with, on the characters of a string. Letters
are those of ASCII: elsewhere `upper` and `lower` change nothing, and `isDigit` is false. White
space is all of Unicode's.

A string is left alone by a method that cuts off a character it has not; so a string of letters
and digits, `IsAlnum`, is left alone by most of them. The two case maps absorb each other.
-/

namespace Coinext

namespace PyText

/-- White space, as `str.isspace` has it. -/
def isSpace (c : Char) : Bool :=
  let n := c.toNat
  decide (9 ≤ n ∧ n ≤ 13 ∨ 28 ≤ n ∧ n ≤ 32 ∨ 8192 ≤ n ∧ n ≤ 8202)
    || n ∈ [133, 160, 5760, 8232, 8233, 8239, 8287, 12288]

def strip (s : String) : String :=
  .ofList ((s.toList.dropWhile isSpace).rdropWhile isSpace)

def upper (s : String) : String := .ofList (s.toList.map Char.toUpper)

def lower (s : String) : String := .ofList (s.toList.map Char.toLower)

def startsWith (s pref : String) : Bool := pref.toList.isPrefixOf s.toList

def endsWith (s suf : String) : Bool := suf.toList.isSuffixOf s.toList

/-- `s[n:]`. -/
def dropFirst (n : ℕ) (s : String) : String := .ofList (s.toList.drop n)

/-- `s[:-n]`, for a positive `n`. -/
def dropLast (n : ℕ) (s : String) : String := .ofList (s.toList.take (s.toList.length - n))

def removeSuffix (s suf : String) : String :=
  if endsWith s suf then dropLast suf.toList.length s else s

/-- `s.replace(c, "")`. -/
def remove (c : Char) (s : String) : String := .ofList (s.toList.filter fun d ↦ d ≠ c)

/-- `s.lstrip(c)`. -/
def lstrip (c : Char) (s : String) : String := .ofList (s.toList.dropWhile fun d ↦ d = c)

/-- `s.split(c)[0]`. -/
def firstPart (c : Char) (s : String) : String := .ofList (s.toList.takeWhile fun d ↦ d ≠ c)

/-- What is before and after the last `c`, for a string that has one. -/
def rpartition (c : Char) (s : String) : String × String :=
  (.ofList (s.toList.rdropWhile fun d ↦ d ≠ c).dropLast,
    .ofList (s.toList.rtakeWhile fun d ↦ d ≠ c))

def isDigit (s : String) : Bool := !s.toList.isEmpty && s.toList.all Char.isDigit

/-- Pad with zeros on the left; the strings it is used on have no sign. -/
def zfill (n : ℕ) (s : String) : String :=
  .ofList (List.replicate (n - s.toList.length) '0' ++ s.toList)

/-! ## Strings of letters and digits -/

/-- A string of letters and digits, and not the empty one. -/
def IsAlnum (s : String) : Prop := s.toList ≠ [] ∧ ∀ c ∈ s.toList, c.isAlphanum = true

instance (s : String) : Decidable (IsAlnum s) :=
  decidable_of_iff (s.toList ≠ [] ∧ s.toList.all Char.isAlphanum = true) (by
    rw [IsAlnum, List.all_eq_true])

theorem toNat_of_isAlphanum {c : Char} (h : c.isAlphanum = true) :
    (65 ≤ c.toNat ∧ c.toNat ≤ 90 ∨ 97 ≤ c.toNat ∧ c.toNat ≤ 122) ∨
      48 ≤ c.toNat ∧ c.toNat ≤ 57 := by
  simp only [Char.isAlphanum, Char.isAlpha, Char.isUpper, Char.isLower, Char.isDigit,
    Bool.or_eq_true, Bool.and_eq_true, decide_eq_true_eq, UInt32.le_iff_toNat_le, ge_iff_le] at h
  exact h

theorem not_isSpace_of_isAlphanum {c : Char} (h : c.isAlphanum = true) : isSpace c = false := by
  have hrange := toNat_of_isAlphanum h
  have hnot : ¬ (9 ≤ c.toNat ∧ c.toNat ≤ 13 ∨ 28 ≤ c.toNat ∧ c.toNat ≤ 32
      ∨ 8192 ≤ c.toNat ∧ c.toNat ≤ 8202) := by omega
  have hlist : c.toNat ∉ [133, 160, 5760, 8232, 8233, 8239, 8287, 12288] := by
    simp only [List.mem_cons, List.not_mem_nil, or_false]
    omega
  simp only [isSpace, hnot, hlist, decide_false, Bool.or_self]

theorem not_isDigit_of_isAlpha {c : Char} (h : c.isAlpha = true) : c.isDigit = false := by
  simp only [Char.isAlpha, Char.isUpper, Char.isLower, Bool.or_eq_true, Bool.and_eq_true,
    decide_eq_true_eq, UInt32.le_iff_toNat_le, ge_iff_le] at h
  change (65 ≤ c.toNat ∧ c.toNat ≤ 90) ∨ (97 ≤ c.toNat ∧ c.toNat ≤ 122) at h
  have hnot : ¬ (48 ≤ c.toNat ∧ c.toNat ≤ 57) := by omega
  rw [not_and_or] at hnot
  simp only [Char.isDigit, Bool.and_eq_false_iff, decide_eq_false_iff_not, UInt32.le_iff_toNat_le,
    ge_iff_le]
  exact hnot

theorem isDigit_toUpper (c : Char) : c.toUpper.isDigit = c.isDigit := by
  by_cases h : c.isLower = true
  · have halpha : c.isAlpha = true := by simp [Char.isAlpha, h]
    have hupper : c.toUpper.isAlpha = true := by rw [Char.isAlpha_toUpper_eq_isAlpha, halpha]
    rw [not_isDigit_of_isAlpha halpha, not_isDigit_of_isAlpha hupper]
  · rw [Char.toUpper_eq_of_not_isLower h]

theorem isDigit_toLower (c : Char) : c.toLower.isDigit = c.isDigit := by
  by_cases h : c.isUpper = true
  · have halpha : c.isAlpha = true := by simp [Char.isAlpha, h]
    have hlower : c.toLower.isAlpha = true := by rw [Char.isAlpha_toLower_eq_isAlpha, halpha]
    rw [not_isDigit_of_isAlpha halpha, not_isDigit_of_isAlpha hlower]
  · rw [Char.toLower_eq_of_not_isUpper h]

theorem isAlphanum_toLower (c : Char) : c.toLower.isAlphanum = c.isAlphanum := by
  rw [Char.isAlphanum, Char.isAlphanum, Char.isAlpha_toLower_eq_isAlpha, isDigit_toLower]

theorem isAlphanum_toUpper (c : Char) : c.toUpper.isAlphanum = c.isAlphanum := by
  rw [Char.isAlphanum, Char.isAlphanum, Char.isAlpha_toUpper_eq_isAlpha, isDigit_toUpper]

variable {s : String}

theorem IsAlnum.upper (h : IsAlnum s) : IsAlnum (upper s) := by
  rw [IsAlnum, PyText.upper, String.toList_ofList]
  refine ⟨by simpa using h.1, fun c hc ↦ ?_⟩
  obtain ⟨d, hd, rfl⟩ := List.mem_map.mp hc
  rw [isAlphanum_toUpper]
  exact h.2 d hd

theorem IsAlnum.lower (h : IsAlnum s) : IsAlnum (lower s) := by
  rw [IsAlnum, PyText.lower, String.toList_ofList]
  refine ⟨by simpa using h.1, fun c hc ↦ ?_⟩
  obtain ⟨d, hd, rfl⟩ := List.mem_map.mp hc
  rw [isAlphanum_toLower]
  exact h.2 d hd

theorem IsAlnum.dropFirst (h : IsAlnum s) {n : ℕ} (hn : n < s.toList.length) :
    IsAlnum (dropFirst n s) := by
  rw [IsAlnum, PyText.dropFirst, String.toList_ofList]
  refine ⟨fun hnil ↦ ?_, fun c hc ↦ h.2 c (List.mem_of_mem_drop hc)⟩
  exact absurd (List.drop_eq_nil_iff.mp hnil) (Nat.not_le.mpr hn)

theorem IsAlnum.notMem (h : IsAlnum s) {c : Char} (hc : c.isAlphanum = false) : c ∉ s.toList :=
  fun hmem ↦ absurd (h.2 c hmem) (by simp [hc])

theorem startsWith_eq_false {pref : String} {c : Char} (hc : c ∈ pref.toList) (h : c ∉ s.toList) :
    startsWith s pref = false := by
  rw [startsWith, Bool.eq_false_iff]
  exact fun hprefix ↦ h ((List.isPrefixOf_iff_prefix.mp hprefix).subset hc)

theorem removeSuffix_eq {suf : String} {c : Char} (hc : c ∈ suf.toList) (h : c ∉ s.toList) :
    removeSuffix s suf = s := by
  have hsuffix : endsWith s suf = false := by
    rw [endsWith, Bool.eq_false_iff]
    exact fun hsuffix ↦ h ((List.isSuffixOf_iff_suffix.mp hsuffix).subset hc)
  rw [removeSuffix, hsuffix, if_neg Bool.false_ne_true]

theorem remove_eq {c : Char} (h : c ∉ s.toList) : remove c s = s := by
  have hall : s.toList.filter (fun d ↦ d ≠ c) = s.toList := by
    refine List.filter_eq_self.mpr fun d hd ↦ decide_eq_true fun hdc ↦ h (hdc ▸ hd)
  rw [remove, hall, String.ofList_toList]

theorem lstrip_eq {c : Char} (h : c ∉ s.toList) : lstrip c s = s := by
  have hall : s.toList.dropWhile (fun d ↦ d = c) = s.toList := by
    refine List.dropWhile_eq_self_iff.mpr fun hpos hd ↦ h ?_
    rw [← of_decide_eq_true hd]
    exact List.getElem_mem hpos
  rw [lstrip, hall, String.ofList_toList]

theorem strip_eq (h : IsAlnum s) : strip s = s := by
  have hnone : ∀ c ∈ s.toList, ¬ isSpace c = true := fun c hc ↦ by
    simp [not_isSpace_of_isAlphanum (h.2 c hc)]
  have hfront : s.toList.dropWhile isSpace = s.toList := by
    rw [List.dropWhile_eq_self_iff]
    exact fun hpos ↦ hnone _ (List.getElem_mem hpos)
  have hback : s.toList.rdropWhile isSpace = s.toList :=
    List.rdropWhile_eq_self_iff.mpr fun hne ↦ hnone _ (List.getLast_mem hne)
  rw [strip, hfront, hback, String.ofList_toList]

theorem IsAlnum.zfill (h : IsAlnum s) (n : ℕ) : IsAlnum (zfill n s) := by
  rw [IsAlnum, PyText.zfill, String.toList_ofList]
  refine ⟨List.append_ne_nil_of_right_ne_nil _ h.1, fun c hc ↦ ?_⟩
  rcases List.mem_append.mp hc with hzero | hold
  · rw [List.eq_of_mem_replicate hzero]
    rfl
  · exact h.2 c hold

theorem isDigit_of_mem_zfill {n : ℕ} (h : isDigit s = true) {c : Char}
    (hc : c ∈ (zfill n s).toList) : c.isDigit = true := by
  rw [zfill, String.toList_ofList] at hc
  rcases List.mem_append.mp hc with hzero | hold
  · rw [List.eq_of_mem_replicate hzero]
    rfl
  · exact List.all_eq_true.mp (Bool.and_eq_true_iff.mp h).2 c hold

theorem upper_upper (s : String) : PyText.upper (PyText.upper s) = PyText.upper s := by
  simp [PyText.upper, Function.comp_def]

theorem lower_upper (s : String) : lower (PyText.upper s) = lower s := by
  simp [PyText.upper, lower, Function.comp_def]

end PyText

end Coinext
