import LuaLens.Symbol.Declaration

/-!
The characters of words. None of them is white space: the ranges of letters, digits and joiners pass
by all of it.
-/

namespace LuaLens.Text

/-- White space, as closed ranges of code points. -/
def blankRanges : List (Nat × Nat) :=
  [(9, 13), (32, 32), (0x85, 0x85), (0xA0, 0xA0), (0x1680, 0x1680), (0x2000, 0x200A),
    (0x2028, 0x2029), (0x202F, 0x202F), (0x205F, 0x205F), (0x3000, 0x3000)]

theorem exists_blankRange {c : Char} (h : isBlank c = true) :
    ∃ r ∈ blankRanges, r.1 ≤ c.toNat ∧ c.toNat ≤ r.2 := by
  simp only [isBlank, Bool.or_eq_true, Bool.and_eq_true, decide_eq_true_eq, beq_iff_eq] at h
  simp only [blankRanges, List.mem_cons, List.not_mem_nil, or_false, exists_eq_or_imp,
    exists_eq_left]
  omega

/-- Whether none of the ranges meets white space. -/
def CodeRanges.passBlank (ranges : CodeRanges) : Bool :=
  ranges.toList.all fun r => blankRanges.all fun b => Nat.blt r.2 b.1 || Nat.blt b.2 r.1

theorem passBlank_alphabetic : alphabetic.passBlank = true := by decide +kernel

theorem passBlank_decimal : decimal.passBlank = true := by decide

theorem passBlank_joining : joining.passBlank = true := by decide

theorem isBlank_of_covers {ranges : CodeRanges} (hr : ranges.passBlank = true) {c : Char}
    (h : ranges.covers c.toNat = true) : isBlank c = false := by
  rw [CodeRanges.covers, ← Array.any_toList, List.any_eq_true] at h
  obtain ⟨r, hmem, hin⟩ := h
  rw [CodeRanges.passBlank, List.all_eq_true] at hr
  rw [Bool.and_eq_true, decide_eq_true_eq, decide_eq_true_eq] at hin
  rw [Bool.eq_false_iff]
  intro hb
  obtain ⟨b, hbmem, hbin⟩ := exists_blankRange hb
  have hpass := List.all_eq_true.1 (hr r hmem) b hbmem
  rw [Bool.or_eq_true, Nat.blt_eq, Nat.blt_eq] at hpass
  omega

/-- Characters of identifiers in ASCII. -/
theorem toNat_of_isAlphanum {c : Char} (h : (c.isAlphanum || c == '_') = true) :
    (48 ≤ c.toNat ∧ c.toNat ≤ 57) ∨ (65 ≤ c.toNat ∧ c.toNat ≤ 90) ∨ c.toNat = 95 ∨
      (97 ≤ c.toNat ∧ c.toNat ≤ 122) := by
  rw [Bool.or_eq_true, beq_iff_eq] at h
  obtain h | rfl := h
  · delta Char.isAlphanum Char.isAlpha Char.isUpper Char.isLower Char.isDigit at h
    simp only [Bool.or_eq_true, Bool.and_eq_true, decide_eq_true_eq, UInt32.le_iff_toNat_le,
      ge_iff_le] at h
    change ((65 ≤ c.toNat ∧ c.toNat ≤ 90) ∨ (97 ≤ c.toNat ∧ c.toNat ≤ 122)) ∨
      (48 ≤ c.toNat ∧ c.toNat ≤ 57) at h
    omega
  · decide

theorem isBlank_of_isAlphanum {c : Char} (h : (c.isAlphanum || c == '_') = true) :
    isBlank c = false := by
  have hn := toNat_of_isAlphanum h
  simp only [isBlank, Bool.or_eq_false_iff, Bool.and_eq_false_iff, decide_eq_false_iff_not,
    beq_eq_false_iff_ne]
  omega

theorem isBlank_of_isWord {c : Char} (h : isWord c = true) : isBlank c = false := by
  rw [isWord] at h
  split at h
  · exact isBlank_of_isAlphanum h
  · rw [Bool.or_eq_true, Bool.or_eq_true] at h
    obtain (h | h) | h := h
    · exact isBlank_of_covers passBlank_alphabetic h
    · exact isBlank_of_covers passBlank_decimal h
    · exact isBlank_of_covers passBlank_joining h

theorem isBlank_of_isTarget {c : Char} (h : Declaration.isTarget c = true) : isBlank c = false := by
  rw [Declaration.isTarget, Bool.or_eq_true, Bool.or_eq_true, beq_iff_eq, beq_iff_eq] at h
  obtain (h | rfl) | rfl := h
  · exact isBlank_of_isWord h
  · decide
  · decide

end LuaLens.Text
