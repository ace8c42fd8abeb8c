import LuaLens.Proofs.Wire.Header

/-!
Lengths above the limit. A header that announces one is refused, as long as its digits fit a word of 64
bits. Digits that do not are no length at all: the header is passed over like lines that announce
nothing, and the reading goes on after it.
-/

namespace LuaLens.Frame

open Text

variable {digits : String}

/-- A header that announces a length in the given digits, with the blank line after it. -/
def lengthHeader (digits : String) : List UInt8 :=
  ("Content-Length: " ++ digits ++ "\r\n\r\n").toUTF8.toList

/-- The number that digits spell. -/
def spelled (digits : String) : Nat := Nat.ofDigitChars 10 digits.toList 0

theorem decimal?_spelled (hne : digits ≠ "") (hdigits : ∀ c ∈ digits.toList, c.isDigit = true) :
    decimal? digits.toList =
      if spelled digits < 18446744073709551616 then some (spelled digits) else none := by
  split
  · next hlt =>
    exact decimal?_eq_some_iff.2 ⟨mt String.toList_eq_nil_iff.1 hne, hdigits, rfl, hlt⟩
  · next hge =>
    rw [Option.eq_none_iff_forall_ne_some]
    intro n hn
    obtain ⟨-, -, hvalue, hlt⟩ := decimal?_eq_some_iff.1 hn
    rw [spelled, hvalue] at hge
    exact hge hlt

/-- After a header comes a payload of the length it announces, or, if it announces none, whatever is
there without the header. -/
theorem next_lengthHeader (hdigits : ∀ c ∈ digits.toList, c.isDigit = true) (closed : Bool)
    (rest : List UInt8) :
    next closed (lengthHeader digits ++ rest) =
      (decimal? digits.toList).elim (next closed rest) fun n => payload closed n rest := by
  have hheader := utf8_header hdigits
  rw [String.ofList_toList] at hheader
  rw [next, lengthHeader, hheader, List.append_assoc, List.cons_append, scan_digitsLine closed hdigits]
  exact scan_return_line closed (decimal? digits.toList) rest

theorem payload_of_limit_lt {n : Nat} (h : limit < n) (closed : Bool) (bytes : List UInt8) :
    payload closed n bytes = .broken (.tooLong n) := if_pos h

/-- A header with a length above the limit is refused whatever comes after it if the length fits a word,
and else it is as if the header were not there. So headers are always refused for just those lengths
above the limit that fit a word. -/
theorem oversized_length_iff (hne : digits ≠ "") (hdigits : ∀ c ∈ digits.toList, c.isDigit = true)
    (hbig : limit < spelled digits) :
    (∀ closed rest, next closed (lengthHeader digits ++ rest) =
      if spelled digits < 18446744073709551616 then .broken (.tooLong (spelled digits))
      else next closed rest) ∧
    ((∀ rest, ∃ fault, next true (lengthHeader digits ++ rest) = .broken fault) ↔
      spelled digits < 18446744073709551616) := by
  have hnext (closed : Bool) (rest : List UInt8) : next closed (lengthHeader digits ++ rest) =
      if spelled digits < 18446744073709551616 then .broken (.tooLong (spelled digits))
      else next closed rest := by
    rw [next_lengthHeader hdigits, decimal?_spelled hne hdigits]
    split
    · exact payload_of_limit_lt hbig closed rest
    · rfl
  refine ⟨hnext, fun hrefused => ?_, fun hlt rest => ⟨_, (hnext true rest).trans (if_pos hlt)⟩⟩
  by_contra hge
  -- With nothing after the header, the stream is over instead of broken.
  obtain ⟨fault, hbroken⟩ := hrefused []
  rw [hnext, if_neg hge] at hbroken
  cases hbroken

/-- The least length that fits no word is passed over, and the frame after it is read. -/
theorem oversized_length_iff_word :
    ("18446744073709551616" ≠ "" ∧ (∀ c ∈ "18446744073709551616".toList, c.isDigit = true) ∧
      limit < spelled "18446744073709551616") ∧
    next true (lengthHeader "18446744073709551616" ++ (lengthHeader "2" ++ [111, 107])) =
      .frame [111, 107] [] := by
  have hne : "18446744073709551616" ≠ "" := by decide
  have hdigits : ∀ c ∈ "18446744073709551616".toList, c.isDigit = true :=
    List.all_eq_true.1 (by decide)
  have hbig : limit < spelled "18446744073709551616" := by decide
  have hge : ¬ spelled "18446744073709551616" < 18446744073709551616 := by decide
  have htwo : ∀ c ∈ "2".toList, c.isDigit = true := List.all_eq_true.1 (by decide)
  refine ⟨⟨hne, hdigits, hbig⟩, ?_⟩
  rw [(oversized_length_iff hne hdigits hbig).1, if_neg hge, next_lengthHeader htwo]
  decide

end LuaLens.Frame
