import LuaLens.Proofs.Text.Utf8

/-!
Bytes read as a text whatever they are. Bytes that belong to no character are read as replacement
characters, one for each longest beginning of a character. What has no such character in it is the
text that the bytes encode, so every reader that has no use for replacement characters may refuse
bytes that are no text instead.
-/

namespace LuaLens.Text

/-- The character at the beginning of bytes. -/
def firstChar? (bytes : List UInt8) : Option Char := bytes.toByteArray.utf8DecodeChar? 0

/-- What stands for bytes that belong to no character. -/
def replacement : Char := Char.ofNat 0xFFFD

def isTail (b : UInt8) : Bool := 0x80 ≤ b && b ≤ 0xBF

/-- Whether a character of four bytes may start with these two. -/
def startsFour (b c : UInt8) : Bool :=
  b == 0xF0 && 0x90 ≤ c && c ≤ 0xBF || 0xF1 ≤ b && b ≤ 0xF3 && isTail c ||
    b == 0xF4 && 0x80 ≤ c && c ≤ 0x8F

/-- Whether a character of three bytes may start with these two. -/
def startsThree (b c : UInt8) : Bool :=
  b == 0xE0 && 0xA0 ≤ c && c ≤ 0xBF || 0xE1 ≤ b && b ≤ 0xEC && isTail c ||
    b == 0xED && 0x80 ≤ c && c ≤ 0x9F || 0xEE ≤ b && b ≤ 0xEF && isTail c

/-- How many bytes are replaced together where no character starts: the longest beginning of one, and
a single byte when there is none. -/
def replacedBytes : List UInt8 → Nat
  | b :: c :: rest =>
    if startsFour b c then if rest.head?.any isTail then 3 else 2
    else if startsThree b c then 2
    else 1
  | _ => 1

theorem replacedBytes_pos (bytes : List UInt8) : 0 < replacedBytes bytes := by
  unfold replacedBytes
  repeat' split
  all_goals omega

/-- The text of bytes, with replacement characters where they are no text. -/
def lossy (bytes : List UInt8) : List Char :=
  match bytes with
  | [] => []
  | b :: rest =>
    match firstChar? (b :: rest) with
    | some c => c :: lossy ((b :: rest).drop c.utf8Size)
    | none => replacement :: lossy ((b :: rest).drop (replacedBytes (b :: rest)))
termination_by bytes.length
decreasing_by
  · have := c.utf8Size_pos
    simp only [List.length_drop, List.length_cons]
    omega
  · have := replacedBytes_pos (b :: rest)
    simp only [List.length_drop, List.length_cons]
    omega

/-! ### Characters in bytes -/

theorem firstChar?_append (c : Char) (rest : List UInt8) :
    firstChar? (String.utf8EncodeChar c ++ rest) = some c := by
  rw [firstChar?, List.toByteArray_append]
  exact ByteArray.utf8DecodeChar?_utf8EncodeChar_append

/-- A character that is found is encoded there. -/
theorem eq_append_of_firstChar? {bytes : List UInt8} {c : Char} (h : firstChar? bytes = some c) :
    bytes = String.utf8EncodeChar c ++ bytes.drop c.utf8Size := by
  obtain ⟨rest, hrest⟩ := ByteArray.exists_of_utf8DecodeChar?_eq_some h
  have hbytes : bytes = String.utf8EncodeChar c ++ rest.data.toList := by
    have hlist := congrArg (fun b : ByteArray => b.data.toList) hrest
    simpa using hlist
  have hdrop : bytes.drop c.utf8Size = rest.data.toList := by
    rw [hbytes, ← String.length_utf8EncodeChar c, List.drop_left]
  rw [hdrop, ← hbytes]

theorem firstChar?_nil : firstChar? [] = none := by
  rw [Option.eq_none_iff_forall_ne_some]
  intro c h
  have hlen := congrArg List.length (eq_append_of_firstChar? h)
  rw [List.length_append, String.length_utf8EncodeChar] at hlen
  have := c.utf8Size_pos
  simp only [List.length_nil] at hlen
  omega

theorem lossy_of_firstChar? {bytes : List UInt8} {c : Char} (h : firstChar? bytes = some c) :
    lossy bytes = c :: lossy (bytes.drop c.utf8Size) := by
  cases bytes with
  | nil => simp [firstChar?_nil] at h
  | cons b rest =>
    rw [lossy]
    simp [h]

/-! ### Whole texts -/

/-- The bytes of a text are read as that text. -/
theorem lossy_utf8 (s : List Char) : lossy (s.flatMap String.utf8EncodeChar) = s := by
  induction s with
  | nil => rw [List.flatMap_nil, lossy]
  | cons c s ih =>
    have hdrop : (String.utf8EncodeChar c ++ s.flatMap String.utf8EncodeChar).drop c.utf8Size =
        s.flatMap String.utf8EncodeChar := by
      rw [← String.length_utf8EncodeChar c, List.drop_left]
    rw [List.flatMap_cons, lossy_of_firstChar? (firstChar?_append c _), hdrop, ih]

/-- Where nothing was replaced, the bytes are those of the text. -/
theorem utf8_lossy {bytes : List UInt8} (h : replacement ∉ lossy bytes) :
    (lossy bytes).flatMap String.utf8EncodeChar = bytes := by
  fun_induction lossy bytes with
  | case1 => rfl
  | case2 b rest c hc ih =>
    rw [List.flatMap_cons, ih fun hm => h (List.mem_cons_of_mem _ hm)]
    exact (eq_append_of_firstChar? hc).symm
  | case3 b rest hc ih => exact absurd List.mem_cons_self h

/-- Bytes are the bytes of a text, or a replacement character shows that they are not. -/
theorem fromUTF8?_cases (bytes : List UInt8) :
    String.fromUTF8? ⟨bytes.toArray⟩ = some (String.ofList (lossy bytes)) ∨
      String.fromUTF8? ⟨bytes.toArray⟩ = none ∧ replacement ∈ lossy bytes := by
  by_cases hvalid : (⟨bytes.toArray⟩ : ByteArray).IsValidUTF8
  · left
    obtain ⟨s, hs⟩ := hvalid
    have hbytes : bytes = s.flatMap String.utf8EncodeChar := by
      have hlist := congrArg (fun b : ByteArray => b.data.toList) hs
      simpa [List.utf8Encode] using hlist
    have hutf8 : bytes = (String.ofList s).toUTF8.toList := by
      rw [utf8_toList, String.toList_ofList, hbytes]
    rw [hbytes, lossy_utf8, ← hbytes, hutf8]
    exact fromUTF8?_utf8 _
  · right
    refine ⟨by rw [String.fromUTF8?, dif_neg hvalid], ?_⟩
    refine Classical.byContradiction fun hnone => hvalid ⟨lossy bytes, ?_⟩
    rw [List.utf8Encode, utf8_lossy hnone, ByteArray.ext_iff, List.data_toByteArray]

end LuaLens.Text
