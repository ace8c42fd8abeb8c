import LuaLens.Text.Basic

/-!
The bytes of a text. They read back as the text, and those of a text in ASCII are its code points.
-/

namespace LuaLens.Text

theorem toList_loop (b : ByteArray) (i : Nat) (r : List UInt8) :
    ByteArray.toList.loop b i r = r.reverse ++ b.data.toList.drop i := by
  fun_induction ByteArray.toList.loop b i r with
  | case1 i r h ih =>
    have hi : i < b.data.toList.length := by simpa using h
    rw [ih, List.drop_eq_getElem_cons hi]
    simp [ByteArray.get!, getElem!_pos b.data i h]
  | case2 i r h =>
    have hi : b.data.toList.length ≤ i := by simpa using h
    rw [List.drop_eq_nil_of_le hi, List.append_nil]

theorem byteArray_toList (b : ByteArray) : b.toList = b.data.toList := by
  rw [ByteArray.toList, toList_loop]
  rfl

theorem utf8_toList (s : String) : s.toUTF8.toList = s.toList.flatMap String.utf8EncodeChar := by
  rw [byteArray_toList, String.toUTF8, ← String.utf8Encode_toList, List.utf8Encode,
    List.toList_data_toByteArray]

/-- The bytes of a text read back as that text. -/
theorem fromUTF8?_utf8 (s : String) : String.fromUTF8? ⟨s.toUTF8.toList.toArray⟩ = some s := by
  have hb : (⟨s.toUTF8.toList.toArray⟩ : ByteArray) = s.toByteArray := by
    rw [byteArray_toList, String.toUTF8]
  rw [hb, String.fromUTF8?, dif_pos s.isValidUTF8]
  rfl

theorem utf8EncodeChar_ascii {c : Char} (h : c.toNat < 128) :
    String.utf8EncodeChar c = [UInt8.ofNat c.toNat] := by
  have hv : c.val.toNat ≤ 127 := by simpa using Nat.le_of_lt_succ h
  rw [String.utf8EncodeChar, if_pos hv]
  rfl

/-- The bytes of a text in ASCII are its code points. -/
theorem utf8_ascii {s : List Char} (h : ∀ c ∈ s, c.toNat < 128) :
    (String.ofList s).toUTF8.toList = s.map fun c => UInt8.ofNat c.toNat := by
  rw [utf8_toList, String.toList_ofList]
  induction s with
  | nil => rfl
  | cons c s ih =>
    rw [List.flatMap_cons, utf8EncodeChar_ascii (h c (by simp)), ih fun d hd => h d (by simp [hd])]
    rfl

/-! ### First characters -/

/-- Only a character of ASCII starts with a byte of ASCII. -/
theorem toNat_of_head?_utf8EncodeChar {c : Char} {b : UInt8} (hb : b.toNat < 128)
    (h : (String.utf8EncodeChar c).head? = some b) : c.toNat = b.toNat := by
  have hv : c.val.toNat = c.toNat := rfl
  rw [String.utf8EncodeChar] at h
  simp only [hv] at h
  repeat' split at h
  all_goals
    rw [List.head?_cons, Option.some.injEq] at h
    rw [← h] at hb ⊢
    simp only [UInt8.toNat_ofNat'] at hb ⊢
    omega

/-- A text whose bytes start with one of ASCII starts with its character. -/
theorem head?_of_fromUTF8? {bytes : List UInt8} {b : UInt8} {s : String} (hb : b.toNat < 128)
    (h : String.fromUTF8? ⟨(b :: bytes).toArray⟩ = some s) :
    ∃ c, s.toList.head? = some c ∧ c.toNat = b.toNat := by
  have hbytes : s.toList.flatMap String.utf8EncodeChar = b :: bytes := by
    rw [← utf8_toList, byteArray_toList]
    rw [String.fromUTF8?] at h
    split at h
    · obtain rfl := Option.some.inj h
      rfl
    · cases h
  cases hs : s.toList with
  | nil =>
    rw [hs] at hbytes
    cases hbytes
  | cons c t =>
    refine ⟨c, rfl, toNat_of_head?_utf8EncodeChar hb ?_⟩
    rw [hs, List.flatMap_cons] at hbytes
    have hne : String.utf8EncodeChar c ≠ [] := by
      intro hnil
      have hlen := String.length_utf8EncodeChar c
      rw [hnil] at hlen
      exact absurd hlen.symm (Nat.ne_of_gt c.utf8Size_pos)
    obtain ⟨d, rest, hd⟩ := List.exists_cons_of_ne_nil hne
    rw [hd, List.cons_append, List.cons.injEq] at hbytes
    rw [hd, hbytes.1, List.head?_cons]

end LuaLens.Text
