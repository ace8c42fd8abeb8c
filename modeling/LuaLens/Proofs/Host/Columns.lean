import LuaLens.Proofs.Host.Caret
import Mathlib.Order.Bounds.Basic
import Mathlib.Order.Monotone.Defs

/-!
One column in three measures. A column in UTF-16 units may be inside a character or past the end of its
line; in characters it is then behind the fewest that have so many units, or behind all of them, and in
bytes it never cuts a character. A column in bytes that cuts no character is led back to by its units, and
a caret by its place in the protocol.
-/

namespace LuaLens

namespace Text

variable {line p : List Char} {units k b : Nat}

/-! ### Fewest characters -/

/-- The numbers of leading characters that have so many units. -/
def reaching (line : List Char) (units : Nat) : Set Nat :=
  {n | n ≤ line.length ∧ units ≤ (utf16 (line.take n)).length}

theorem mem_reaching_iff :
    k ∈ reaching line units ↔ k ≤ line.length ∧ units ≤ unitLength (line.take k) := by
  rw [← length_utf16]
  rfl

/-- A line with so many units has them at its end, if not before. -/
theorem length_mem_reaching (h : (reaching line units).Nonempty) :
    line.length ∈ reaching line units := by
  obtain ⟨n, hn⟩ := h
  obtain ⟨-, hunits⟩ := mem_reaching_iff.1 hn
  refine mem_reaching_iff.2 ⟨le_rfl, hunits.trans ?_⟩
  rw [List.take_length]
  exact unitLength_mono (List.take_prefix n line)

theorem isLeast_charsOfUnits (h : (reaching line units).Nonempty) :
    IsLeast (reaching line units) (charsOfUnits line units) := by
  constructor
  · obtain hall | hunits := charsOfUnits_le_iff.1 (le_refl (charsOfUnits line units))
    · rw [(charsOfUnits_le_length line units).antisymm hall]
      exact length_mem_reaching h
    · exact mem_reaching_iff.2 ⟨charsOfUnits_le_length line units, hunits⟩
  · intro n hn
    exact charsOfUnits_le_iff.2 (.inr (mem_reaching_iff.1 hn).2)

theorem charsOfUnits_eq_length (h : reaching line units = ∅) :
    charsOfUnits line units = line.length := by
  have hle := charsOfUnits_le_length line units
  obtain hall | hunits := charsOfUnits_le_iff.1 (le_refl (charsOfUnits line units))
  · exact hle.antisymm hall
  · have hmem := mem_reaching_iff.2 ⟨hle, hunits⟩
    rw [h] at hmem
    cases hmem

theorem charsOfUnits_mono (line : List Char) : Monotone (charsOfUnits line) := by
  intro u v huv
  obtain hall | hunits := charsOfUnits_le_iff.1 (le_refl (charsOfUnits line v))
  · exact charsOfUnits_le_iff.2 (.inl hall)
  · exact charsOfUnits_le_iff.2 (.inr (huv.trans hunits))

/-! ### Bytes -/

/-- The columns in bytes that cut no character. -/
def boundaries (line : List Char) : Set Nat :=
  {b | String.Pos.Raw.IsValid (String.ofList line) ⟨b⟩}

theorem mem_boundaries_iff : b ∈ boundaries line ↔ ∃ p, p <+: line ∧ byteLength p = b := by
  refine String.Pos.Raw.isValid_iff_exists_append.trans ⟨?_, ?_⟩
  · rintro ⟨before, after, hline, hb⟩
    refine ⟨before.toList, ⟨after.toList, ?_⟩, ?_⟩
    · rw [← String.toList_append, ← hline, String.toList_ofList]
    · rw [byteLength_eq_utf8ByteSize, String.ofList_toList]
      exact (congrArg String.Pos.Raw.byteIdx hb).symm
  · rintro ⟨p, ⟨t, rfl⟩, rfl⟩
    refine ⟨String.ofList p, String.ofList t, String.ofList_append, ?_⟩
    rw [byteLength_eq_utf8ByteSize]
    rfl

theorem bytesOfUnits_mono (line : List Char) : Monotone (bytesOfUnits line) := by
  intro u v huv
  rw [bytesOfUnits_eq, bytesOfUnits_eq]
  exact byteLength_mono (List.take_prefix_take_left (charsOfUnits_mono line huv))

theorem unitsOfBytes_of_isPrefix (h : p <+: line) :
    unitsOfBytes line (byteLength p) = unitLength p := by
  obtain ⟨t, rfl⟩ := h
  exact unitsOfBytes_append p t

theorem unitsOfBytes_monotoneOn (line : List Char) :
    MonotoneOn (unitsOfBytes line) (boundaries line) := by
  intro a ha b hb hab
  obtain ⟨p, hp, rfl⟩ := mem_boundaries_iff.1 ha
  obtain ⟨q, hq, rfl⟩ := mem_boundaries_iff.1 hb
  rw [unitsOfBytes_of_isPrefix hp, unitsOfBytes_of_isPrefix hq]
  exact unitLength_mono (isPrefix_of_byteLength_le hp hq hab)

/-- A column in bytes that cuts no character is led back to by its units. -/
theorem bytesOfUnits_unitsOfBytes (h : b ∈ boundaries line) :
    bytesOfUnits line (unitsOfBytes line b) = b := by
  obtain ⟨p, ⟨t, rfl⟩, rfl⟩ := mem_boundaries_iff.1 h
  rw [unitsOfBytes_append, bytesOfUnits_append]

/-! ### Columns in units -/

/-- A column in units is behind `k` characters: the fewest that have so many, or all when even these have
not. In bytes it is where these characters end, and counted from there it has all of their units, which
are more than before when it was inside a character. -/
structure IsColumn (line : List Char) (units k : Nat) : Prop where
  fewest : (reaching line units).Nonempty → IsLeast (reaching line units) k
  all : reaching line units = ∅ → k = line.length
  whole : bytesOfUnits line units ∈ boundaries line
  bytes : bytesOfUnits line units = (String.ofList (line.take k)).utf8ByteSize
  rounded : unitsOfBytes line (bytesOfUnits line units) = (utf16 (line.take k)).length

theorem isColumn_charsOfUnits (line : List Char) (units : Nat) :
    IsColumn line units (charsOfUnits line units) where
  fewest := isLeast_charsOfUnits
  all := charsOfUnits_eq_length
  whole := mem_boundaries_iff.2 ⟨_, takeUnits_isPrefix line units, (bytesOfUnits_eq line units).symm⟩
  bytes := (bytesOfUnits_eq line units).trans (byteLength_eq_utf8ByteSize _)
  rounded := by
    rw [length_utf16, bytesOfUnits_eq]
    exact unitsOfBytes_of_isPrefix (takeUnits_isPrefix line units)

end Text

open Text

namespace Buffer

/-- The place of a caret in the text leads back to the caret. -/
theorem caretAt_positionOf {b : Buffer} {l column : Nat} (hl : l < b.lineCount)
    (hcolumn : column ≤ b.lineLength l) : b.caretAt (b.positionOf l column) = (l, column) := by
  rw [positionOf_of_lt hl, caretAt]
  -- The line begins with the characters before the caret, and it is their units that are counted.
  have hback := charsOfUnits_append (((b.line? l).getD []).take column)
    (((b.line? l).getD []).drop column)
  rw [List.take_append_drop, List.length_take_of_le hcolumn] at hback
  rw [hback]

/-- In every line a column in units is behind the fewest characters that have so many, in each measure,
and later columns stay in order. A column in bytes that cuts no character is kept on the way to units and
back, and a caret in a buffer on the way to its place and back. -/
theorem columns_exact :
    (∀ line units, IsColumn line units (charsOfUnits line units)) ∧
    (∀ line, Monotone (charsOfUnits line) ∧ Monotone (bytesOfUnits line) ∧
      MonotoneOn (unitsOfBytes line) (boundaries line)) ∧
    (∀ line, ∀ b ∈ boundaries line, bytesOfUnits line (unitsOfBytes line b) = b) ∧
    ∀ (b : Buffer) (l column : Nat), l < b.lineCount → column ≤ b.lineLength l →
      b.caretAt (b.positionOf l column) = (l, column) :=
  ⟨isColumn_charsOfUnits,
    fun line => ⟨charsOfUnits_mono line, bytesOfUnits_mono line, unitsOfBytes_monotoneOn line⟩,
    fun _ _ => bytesOfUnits_unitsOfBytes, fun _ _ _ => caretAt_positionOf⟩

/-- Characters of one, two and one units, and of two, four and one bytes. -/
def mixedLine : List Char := ['é', '😀', 'x']

/-- Inside the second character, past the end of the line, between the characters, and in a buffer. -/
theorem columns_exact_mixed :
    (reaching mixedLine 2).Nonempty ∧ IsLeast (reaching mixedLine 2) 2 ∧
    reaching mixedLine 5 = ∅ ∧ charsOfUnits mixedLine 5 = mixedLine.length ∧
    2 ∈ boundaries mixedLine ∧ 6 ∈ boundaries mixedLine ∧
    unitsOfBytes mixedLine 2 ≤ unitsOfBytes mixedLine 6 ∧
    bytesOfUnits mixedLine (unitsOfBytes mixedLine 6) = 6 ∧
    1 < (ofText "a\r\né😀x").lineCount ∧ 2 ≤ (ofText "a\r\né😀x").lineLength 1 ∧
    (ofText "a\r\né😀x").caretAt ((ofText "a\r\né😀x").positionOf 1 2) = (1, 2) := by
  have hreached : (reaching mixedLine 2).Nonempty := ⟨2, mem_reaching_iff.2 (by decide)⟩
  have hshort : reaching mixedLine 5 = ∅ := by
    refine Set.not_nonempty_iff_eq_empty.1 fun h => ?_
    exact absurd (mem_reaching_iff.1 (length_mem_reaching h)).2 (by decide)
  have hfirst : 2 ∈ boundaries mixedLine := mem_boundaries_iff.2 ⟨['é'], by decide, by decide⟩
  have hsecond : 6 ∈ boundaries mixedLine := mem_boundaries_iff.2 ⟨['é', '😀'], by decide, by decide⟩
  have hline : 1 < (ofText "a\r\né😀x").lineCount := by decide +kernel
  have hlength : 2 ≤ (ofText "a\r\né😀x").lineLength 1 := by decide +kernel
  obtain ⟨hcolumn, hordered, hkept, hcaret⟩ := columns_exact
  exact ⟨hreached, (hcolumn mixedLine 2).fewest hreached, hshort, (hcolumn mixedLine 5).all hshort,
    hfirst, hsecond, (hordered mixedLine).2.2 hfirst hsecond (by decide),
    hkept mixedLine 6 hsecond, hline, hlength, hcaret _ 1 2 hline hlength⟩

end Buffer

end LuaLens
