import LuaLens.Text.Units
import Mathlib.Data.List.Basic

/-!
Columns in characters, in UTF-16 units and in bytes. A column that was counted in units or in bytes
leads back to the same characters in every text that begins with them, and the units of a part of a text
stand between its columns.
-/

namespace LuaLens.Text

variable {p q s : List Char}

theorem unitSize_pos (c : Char) : 0 < unitSize c := by
  rw [unitSize]
  split <;> decide

theorem unitLength_append (s t : List Char) : unitLength (s ++ t) = unitLength s + unitLength t := by
  induction s with
  | nil => rw [List.nil_append, unitLength, Nat.zero_add]
  | cons c s ih =>
    rw [List.cons_append, unitLength, unitLength, ih]
    omega

theorem unitLength_mono (h : p <+: s) : unitLength p ≤ unitLength s := by
  obtain ⟨t, rfl⟩ := h
  rw [unitLength_append]
  exact Nat.le_add_right _ _

theorem charsOfUnits_zero (s : List Char) : charsOfUnits s 0 = 0 := by
  cases s <;> rfl

theorem charsOfUnits_cons {units : Nat} (h : 0 < units) (c : Char) (s : List Char) :
    charsOfUnits (c :: s) units = charsOfUnits s (units - unitSize c) + 1 := by
  obtain ⟨n, rfl⟩ := Nat.exists_eq_succ_of_ne_zero (Nat.ne_of_gt h)
  rfl

theorem charsOfUnits_le_length (s : List Char) (units : Nat) : charsOfUnits s units ≤ s.length := by
  induction s generalizing units with
  | nil => exact Nat.le_refl 0
  | cons c s ih =>
    obtain rfl | hpos := Nat.eq_zero_or_pos units
    · exact Nat.zero_le _
    · rw [charsOfUnits_cons hpos, List.length_cons]
      exact Nat.succ_le_succ (ih _)

/-- So many leading characters hold the units, or all do. -/
theorem charsOfUnits_le_iff {units k : Nat} :
    charsOfUnits s units ≤ k ↔ s.length ≤ k ∨ units ≤ unitLength (s.take k) := by
  induction s generalizing units k with
  | nil => simp [charsOfUnits]
  | cons c s ih =>
    obtain rfl | hpos := Nat.eq_zero_or_pos units
    · simp [charsOfUnits_zero]
    · cases k with
      | zero => simp [charsOfUnits_cons hpos, unitLength, Nat.ne_of_gt hpos]
      | succ k =>
        rw [charsOfUnits_cons hpos, Nat.add_le_add_iff_right, ih, List.length_cons,
          List.take_succ_cons, unitLength]
        omega

/-- As many units as a beginning has are held by that beginning. -/
theorem charsOfUnits_append (p s : List Char) : charsOfUnits (p ++ s) (unitLength p) = p.length := by
  induction p with
  | nil => exact charsOfUnits_zero s
  | cons c p ih =>
    have hpos := unitSize_pos c
    rw [List.cons_append, unitLength, charsOfUnits_cons (by omega), Nat.add_sub_cancel_left, ih,
      List.length_cons]

/-- The leading characters that hold `units` UTF-16 units. -/
def takeUnits (s : List Char) (units : Nat) : List Char := s.take (charsOfUnits s units)

theorem takeUnits_isPrefix (s : List Char) (units : Nat) : takeUnits s units <+: s :=
  List.take_prefix _ _

theorem takeUnits_unitLength_iff : takeUnits s (unitLength p) = p ↔ p <+: s := by
  constructor
  · intro h
    rw [← h]
    exact takeUnits_isPrefix s _
  · rintro ⟨t, rfl⟩
    rw [takeUnits, charsOfUnits_append, List.take_left]

/-! ### Bytes -/

theorem byteLength_append (s t : List Char) : byteLength (s ++ t) = byteLength s + byteLength t := by
  induction s with
  | nil => rw [List.nil_append, byteLength, Nat.zero_add]
  | cons c s ih => rw [List.cons_append, byteLength, byteLength, ih, Nat.add_assoc]

theorem byteLength_mono (h : p <+: s) : byteLength p ≤ byteLength s := by
  obtain ⟨t, rfl⟩ := h
  rw [byteLength_append]
  exact Nat.le_add_right _ _

theorem eq_nil_of_byteLength_eq_zero (h : byteLength s = 0) : s = [] := by
  cases s with
  | nil => rfl
  | cons c s =>
    have hpos := c.utf8Size_pos
    rw [byteLength] at h
    omega

/-- Of two beginnings of a text the one of fewer bytes begins the other. -/
theorem isPrefix_of_byteLength_le (hp : p <+: s) (hq : q <+: s) (h : byteLength p ≤ byteLength q) :
    p <+: q := by
  obtain hpq | ⟨t, rfl⟩ := List.prefix_or_prefix_of_prefix hp hq
  · exact hpq
  · rw [byteLength_append] at h
    obtain rfl := eq_nil_of_byteLength_eq_zero (s := t) (by omega)
    simp

/-- A text is cut again where its parts meet. -/
theorem takeBytes?_append (s t : List Char) : takeBytes? (s ++ t) (byteLength s) = some s := by
  induction s with
  | nil => rw [byteLength, takeBytes?]
  | cons c s ih =>
    obtain ⟨n, hn⟩ : ∃ n, byteLength (c :: s) = n + 1 :=
      Nat.exists_eq_succ_of_ne_zero (Nat.ne_of_gt (Nat.lt_add_right _ c.utf8Size_pos))
    have hle : c.utf8Size ≤ n + 1 := hn ▸ Nat.le_add_right _ _
    have hrest : n + 1 - c.utf8Size = byteLength s := by
      rw [← hn, byteLength, Nat.add_sub_cancel_left]
    rw [hn, List.cons_append, takeBytes?, if_pos hle, hrest, ih, Option.map_some]
    exact Nat.succ_ne_zero n

/-- Where two parts of a text meet, no column in bytes is past the end. -/
theorem takeBytes?_min_append (s t : List Char) :
    takeBytes? (s ++ t) (min (byteLength s) (byteLength (s ++ t))) = some s := by
  rw [Nat.min_eq_left (byteLength_mono (List.prefix_append s t)), takeBytes?_append]

/-- As many bytes as a beginning has are the units of that beginning. -/
theorem unitsOfBytes_append (p s : List Char) :
    unitsOfBytes (p ++ s) (byteLength p) = unitLength p := by
  rw [unitsOfBytes, takeBytes?_min_append]

/-- A column in units is behind the same characters in bytes as in characters. -/
theorem bytesOfUnits_eq (s : List Char) (units : Nat) :
    bytesOfUnits s units = byteLength (takeUnits s units) := by
  induction s generalizing units with
  | nil => rfl
  | cons c s ih =>
    cases units with
    | zero => rfl
    | succ n =>
      rw [bytesOfUnits, ih, takeUnits, takeUnits, charsOfUnits, List.take_succ_cons, byteLength]
      · exact Nat.succ_ne_zero n
      · exact Nat.succ_ne_zero n

theorem bytesOfUnits_append (p s : List Char) :
    bytesOfUnits (p ++ s) (unitLength p) = byteLength p := by
  rw [bytesOfUnits_eq, takeUnits, charsOfUnits_append, List.take_left]

theorem beforeByte_append (p s : List Char) : beforeByte (p ++ s) (byteLength p) = p := by
  rw [beforeByte, takeBytes?_min_append, Option.getD_some]

/-- Before a column in units stand the characters that hold so many. -/
theorem beforeByte_bytesOfUnits (s : List Char) (units : Nat) :
    beforeByte s (bytesOfUnits s units) = takeUnits s units := by
  obtain ⟨t, ht⟩ := takeUnits_isPrefix s units
  have happend := beforeByte_append (takeUnits s units) t
  rwa [ht, ← bytesOfUnits_eq] at happend

theorem byteLength_eq_utf8ByteSize (s : List Char) :
    byteLength s = (String.ofList s).utf8ByteSize := by
  induction s with
  | nil => rfl
  | cons c s ih =>
    rw [byteLength, ih, String.ofList_cons, String.utf8ByteSize_append, String.utf8ByteSize_singleton]

/-! ### Encoding -/

/-- The UTF-16 units of a character: its number, or two surrogates. -/
def charUnits (c : Char) : List Nat :=
  if c.toNat < 0x10000 then [c.toNat]
  else [0xD800 + (c.toNat - 0x10000) / 0x400, 0xDC00 + (c.toNat - 0x10000) % 0x400]

/-- The UTF-16 units of a text. -/
def utf16 (s : List Char) : List Nat := s.flatMap charUnits

theorem length_utf16 (s : List Char) : (utf16 s).length = unitLength s := by
  induction s with
  | nil => rfl
  | cons c s ih =>
    have hc : (charUnits c).length = unitSize c := by
      unfold charUnits unitSize
      split <;> rfl
    rw [unitLength, ← ih, ← hc, utf16, List.flatMap_cons, List.length_append, utf16]

theorem utf16_append (s t : List Char) : utf16 (s ++ t) = utf16 s ++ utf16 t := List.flatMap_append

theorem extract_utf16 (before s after : List Char) :
    (utf16 (before ++ s ++ after)).extract (unitLength before) (unitLength before + unitLength s) =
      utf16 s := by
  rw [utf16_append, utf16_append, List.append_assoc, List.extract_eq_take_drop, ← length_utf16,
    ← length_utf16, List.drop_left, Nat.add_sub_cancel_left, List.take_left]

end LuaLens.Text
