import LuaLens.Proofs.Text.Lossy
import LuaLens.Proofs.Text.Trim
import LuaLens.Proofs.Wire.Block

/-!
The lines of a header as they are spelt. A line announces a length when it reads as the name in any
case, a colon and a number, with white space around each; all other lines announce nothing, those with
bytes that are no text among them. A stream of frames whose lines are told apart by this spelling is
read as its payloads.
-/

namespace LuaLens.Text

/-- What trimming takes off is white space. -/
theorem exists_trim (s : List Char) :
    ∃ a b, (∀ c ∈ a ++ b, isBlank c = true) ∧ s = a ++ trim s ++ b := by
  obtain ⟨b, hb, hs⟩ := exists_trimEnd (trimStart s)
  refine ⟨s.takeWhile isBlank, b, fun c hc => ?_, ?_⟩
  · obtain hc | hc := List.mem_append.1 hc
    · exact List.mem_takeWhile_imp hc
    · exact hb c hc
  · calc
      s = s.takeWhile isBlank ++ trimStart s := List.takeWhile_append_dropWhile.symm
      _ = s.takeWhile isBlank ++ (trim s ++ b) := by rw [trim, ← hs]
      _ = s.takeWhile isBlank ++ trim s ++ b := (List.append_assoc ..).symm

end LuaLens.Text

namespace LuaLens.Frame

open Text

/-! ### Spelling -/

/-- A text that announces a length, which is below `2 ^ 64`. -/
inductive Announcement : List Char → Nat → Prop
  | intro {a name b c digits d : List Char} (blank : ∀ x ∈ a ++ b ++ (c ++ d), isBlank x = true)
      (named : name.map Char.toLower = "content-length".toList)
      (nonempty : digits ≠ []) (decimal : ∀ x ∈ digits, x.isDigit = true)
      (fits : Nat.ofDigitChars 10 digits 0 < 18446744073709551616) :
      Announcement (a ++ name ++ b ++ ':' :: (c ++ digits ++ d)) (Nat.ofDigitChars 10 digits 0)

/-- The characters of the name are in ASCII, and neither white space nor a colon. -/
theorem plain_of_mem_name {name : List Char} (h : name.map Char.toLower = "content-length".toList)
    {x : Char} (hx : x ∈ name) : x.toNat < 128 ∧ isBlank x = false ∧ x ≠ ':' := by
  by_cases hupper : 65 ≤ x.toNat ∧ x.toNat ≤ 90
  · refine ⟨by omega, ?_, fun hc => ?_⟩
    · simp only [isBlank, Bool.or_eq_false_iff, Bool.and_eq_false_iff, decide_eq_false_iff_not,
        beq_eq_false_iff_ne]
      omega
    · rw [hc] at hupper
      exact absurd hupper (by decide)
  · have hlower : x.toLower = x := dif_neg hupper
    have hmem : x ∈ "content-length".toList := by
      rw [← h, ← hlower]
      exact List.mem_map_of_mem hx
    have hall : "content-length".toList.all
        (fun x => x.toNat < 128 && !isBlank x && x != ':') = true := by decide
    simpa [and_assoc] using List.all_eq_true.1 hall x hmem

theorem decimal?_eq_some_iff {digits : List Char} {n : Nat} :
    decimal? digits = some n ↔ digits ≠ [] ∧ (∀ x ∈ digits, x.isDigit = true) ∧
      Nat.ofDigitChars 10 digits 0 = n ∧ n < 18446744073709551616 := by
  have hfold : digits.foldl (fun n c => n * 10 + (c.toNat - 48)) 0 = Nat.ofDigitChars 10 digits 0 := by
    rw [Nat.ofDigitChars_eq_foldl]
    simp only [Nat.mul_comm]
    rfl
  simp only [decimal?, hfold]
  by_cases hd : digits = [] ∨ ¬∀ x ∈ digits, x.isDigit = true
  · have hbad : (digits.isEmpty || !digits.all Char.isDigit) = true := by simpa using hd
    rw [if_pos hbad]
    constructor
    · intro h
      cases h
    · rintro ⟨hne, hall, -⟩
      exact absurd hall (hd.resolve_left hne)
  · obtain ⟨hne, hall⟩ := not_or.1 hd
    have hgood : (digits.isEmpty || !digits.all Char.isDigit) = false := by
      simpa [hne] using not_not.1 hall
    rw [hgood, if_neg Bool.false_ne_true]
    split
    · next hlt =>
      rw [Option.some.injEq]
      exact ⟨fun h => ⟨hne, not_not.1 hall, h, h ▸ hlt⟩, fun h => h.2.2.1⟩
    · next hge =>
      constructor
      · intro h
        cases h
      · rintro ⟨-, -, rfl, hlt⟩
        exact absurd hlt hge

/-- A text is read as announcing a length exactly when it is spelt so. -/
theorem contentLength?_eq_some_iff {text : List Char} {n : Nat} :
    contentLength? text = some n ↔ Announcement text n := by
  constructor
  · intro h
    rw [contentLength?] at h
    split at h
    · cases h
    · next name value hsplit =>
      split at h
      · next hname =>
        obtain ⟨-, rfl⟩ := splitOnce_eq_some hsplit
        obtain ⟨hne, hdigits, rfl, hlt⟩ := decimal?_eq_some_iff.1 h
        obtain ⟨a, b, hab, ha⟩ := exists_trim name
        obtain ⟨c, d, hcd, hc⟩ := exists_trim value
        have hblank : ∀ x ∈ a ++ b ++ (c ++ d), isBlank x = true := fun x hx =>
          (List.mem_append.1 hx).elim (hab x) (hcd x)
        have hspelt := Announcement.intro hblank (beq_iff_eq.1 hname) hne hdigits hlt
        rwa [← ha, ← hc] at hspelt
      · cases h
  · rintro (@⟨a, name, b, c, digits, d, blank, named, hne, hdigits, fits⟩)
    simp only [List.forall_mem_append] at blank
    obtain ⟨⟨ha, hb⟩, hc, hd⟩ := blank
    have hcolon {s : List Char} (hs : ∀ x ∈ s, isBlank x = true) : ':' ∉ s := fun hm =>
      absurd (hs ':' hm) (by decide)
    have hbefore : ':' ∉ a ++ name ++ b := by
      simp only [List.mem_append, not_or]
      exact ⟨⟨hcolon ha, fun hm => (plain_of_mem_name named hm).2.2 rfl⟩, hcolon hb⟩
    have hname : trim (a ++ name ++ b) = name :=
      trim_append ha hb fun x hx => (plain_of_mem_name named hx).2.1
    have hvalue : trim (c ++ digits ++ d) = digits :=
      trim_append hc hd fun x hx => isBlank_of_isDigit (hdigits x hx)
    rw [contentLength?, splitOnce_append hbefore]
    simp only [hname, hvalue, named, beq_self_eq_true, ↓reduceIte]
    exact decimal?_eq_some_iff.2 ⟨hne, hdigits, rfl, fits⟩

/-- A text that announces a length has nothing replaced in it. -/
theorem Announcement.replacement_not_mem {text : List Char} {n : Nat} (h : Announcement text n) :
    replacement ∉ text := by
  obtain @⟨a, name, b, c, digits, d, blank, named, -, hdigits, -⟩ := h
  have hcode : replacement.toNat = 65533 := by decide
  intro hm
  simp only [List.mem_append, List.mem_cons] at hm
  have hblank : replacement ∉ a ++ b ++ (c ++ d) := fun hx => absurd (blank _ hx) (by decide)
  simp only [List.mem_append, not_or] at hblank
  obtain ⟨⟨ha, hb⟩, hc, hd⟩ := hblank
  have hname : replacement ∉ name := fun hx => by
    have := (plain_of_mem_name named hx).1
    omega
  have hdigit : replacement ∉ digits := fun hx => by
    have := toNat_of_isDigit (hdigits _ hx)
    omega
  have hcolon : replacement ≠ ':' := by decide
  tauto

/-! ### Lines of any bytes -/

/-- Whether a line announces a length, whatever its bytes. -/
def Announces (line : List UInt8) (n : Nat) : Prop := Announcement (lossy line) n

/-- Whether a line is white space alone, whatever its bytes. -/
def IsBlank (line : List UInt8) : Prop := ∀ c ∈ lossy line, isBlank c = true

/-- A line is read as its text, or it has bytes that are no text and stands for itself. -/
theorem lineText_cases (line : List UInt8) :
    lineText line = lossy line ∨ lineText line = [replacement] ∧ replacement ∈ lossy line := by
  rw [lineText]
  obtain h | ⟨h, hmem⟩ := fromUTF8?_cases line
  · left
    rw [h]
    exact String.toList_ofList
  · right
    rw [h]
    exact ⟨rfl, hmem⟩

theorem announces?_eq_some_iff {line : List UInt8} {n : Nat} :
    announces? line = some n ↔ Announces line n := by
  rw [announces?, contentLength?_eq_some_iff, Announces]
  obtain h | ⟨h, hmem⟩ := lineText_cases line
  · rw [h]
  · rw [h]
    exact ⟨fun ha => absurd List.mem_cons_self ha.replacement_not_mem,
      fun ha => absurd hmem ha.replacement_not_mem⟩

theorem announces?_eq_none_iff {line : List UInt8} :
    announces? line = none ↔ ∀ n, ¬Announces line n := by
  rw [Option.eq_none_iff_forall_ne_some]
  simp only [ne_eq, announces?_eq_some_iff]

theorem isBlankLine_iff {line : List UInt8} : isBlankLine line = true ↔ IsBlank line := by
  rw [isBlankLine, isBlankText, List.all_eq_true, IsBlank]
  obtain h | ⟨h, hmem⟩ := lineText_cases line
  · rw [h]
  · have hno : ¬isBlank replacement = true := by decide
    rw [h]
    exact ⟨fun hb => absurd (hb replacement List.mem_cons_self) hno,
      fun hb => absurd (hb replacement hmem) hno⟩

/-! ### Streams -/

/-- Lines that announce nothing leave the length announced before. -/
theorem announced_append_silent (length : Option Nat) (lines : List (List UInt8)) {line : List UInt8}
    {n : Nat} {later : List (List UInt8)} (hline : announces? line = some n)
    (hlater : ∀ l ∈ later, announces? l = none) :
    announced length (lines ++ line :: later) = some n := by
  have hrest (length : Option Nat) : announced length later = length := by
    induction later generalizing length with
    | nil => rfl
    | cons l later ih =>
      obtain ⟨hl, hlater⟩ := List.forall_mem_cons.1 hlater
      rw [announced, List.foldl_cons, hl, Option.none_or]
      exact ih hlater length
  rw [announced, List.foldl_append, List.foldl_cons, hline, Option.some_or]
  exact hrest (some n)

/-- Whether a block is spelt as a frame: the last of its lines that announce a length announces that of
the payload. -/
structure Block.IsSpelt (b : Block) : Prop where
  before : ∀ line ∈ b.before, 10 ∉ line ∧ ∀ n, ¬Announces line n
  first : 10 ∉ b.first ∧ ∃ n, Announces b.first n
  others : ∀ line ∈ b.others, 10 ∉ line ∧ ¬IsBlank line
  blank : 10 ∉ b.blank ∧ IsBlank b.blank
  last : ∃ earlier line later, b.first :: b.others = earlier ++ line :: later ∧
    Announces line b.payload.length ∧ ∀ l ∈ later, ∀ n, ¬Announces l n
  within : b.payload.length ≤ limit

theorem Block.IsSpelt.wellFormed {b : Block} (h : b.IsSpelt) : b.WellFormed where
  before line hl := ⟨(h.before line hl).1, announces?_eq_none_iff.2 (h.before line hl).2⟩
  first := by
    obtain ⟨hfeed, n, hn⟩ := h.first
    exact ⟨hfeed, by rw [announces?_eq_some_iff.2 hn]; rfl⟩
  others line hl := by
    obtain ⟨hfeed, hb⟩ := h.others line hl
    exact ⟨hfeed, Bool.eq_false_iff.2 fun hblank => hb (isBlankLine_iff.1 hblank)⟩
  blank := ⟨h.blank.1, isBlankLine_iff.2 h.blank.2⟩
  length := by
    obtain ⟨earlier, line, later, hlines, hline, hlater⟩ := h.last
    rw [hlines]
    exact announced_append_silent none earlier (announces?_eq_some_iff.2 hline)
      fun l hl => announces?_eq_none_iff.2 (hlater l hl)
  within := h.within

/-- A stream of blocks that are spelt as frames is read as their payloads, in order, and then is over. -/
theorem readAll_spelt_blocks (blocks : List Block) (h : ∀ b ∈ blocks, b.IsSpelt) :
    readAll true (blocks.flatMap Block.bytes) = (blocks.map Block.payload, .ended) := by
  have hblocks : (Transcript.mk blocks []).WellFormed :=
    ⟨fun b hb => (h b hb).wellFormed, by simp⟩
  have hread := hblocks.readAll
  rwa [Transcript.bytes, show lineBytes [] = [] from rfl, List.append_nil] at hread

/-- A block with lines before its header that are no text or blank, with two lengths in the header, and
with a payload that is a blank line. -/
def junkBlock : Block where
  before := [[0xFF, 58, 0xC3], [], ascii "Content-Length: 1x".toList]
  first := ascii "\tCONTENT-length : 9\r".toList
  others := [ascii "X-Other: 1\r".toList, ascii "Content-Length:3\r".toList, [58, 0xE2, 0x82]]
  blank := [32, 13]
  payload := [10, 13, 10]

theorem junkBlock_isSpelt : junkBlock.IsSpelt where
  before := by
    have h : ∀ line ∈ junkBlock.before, 10 ∉ line ∧ announces? line = none := by decide
    exact fun line hl => ⟨(h line hl).1, announces?_eq_none_iff.1 (h line hl).2⟩
  first := by
    have h : announces? junkBlock.first = some 9 := by decide
    exact ⟨by decide, 9, announces?_eq_some_iff.1 h⟩
  others := by
    have h : ∀ line ∈ junkBlock.others, 10 ∉ line ∧ ¬isBlankLine line = true := by decide
    exact fun line hl => ⟨(h line hl).1, fun hb => (h line hl).2 (isBlankLine_iff.2 hb)⟩
  blank := ⟨by decide, isBlankLine_iff.1 (by decide)⟩
  last := by
    have h : announces? (ascii "Content-Length:3\r".toList) = some 3 := by decide
    have hlater : ∀ l ∈ [[58, 0xE2, 0x82]], announces? l = none := by decide
    exact ⟨[junkBlock.first, ascii "X-Other: 1\r".toList], _, _, rfl, announces?_eq_some_iff.1 h,
      fun l hl => announces?_eq_none_iff.1 (hlater l hl)⟩
  within := by decide

theorem readAll_spelt_blocks_junk :
    (∀ b ∈ [junkBlock, junkBlock], b.IsSpelt) ∧
      readAll true (junkBlock.bytes ++ (junkBlock.bytes ++ [])) =
        ([[10, 13, 10], [10, 13, 10]], .ended) := by
  have h : ∀ b ∈ [junkBlock, junkBlock], b.IsSpelt := by simp [junkBlock_isSpelt]
  exact ⟨h, readAll_spelt_blocks [junkBlock, junkBlock] h⟩

end LuaLens.Frame
