import LuaLens.Proofs.Text.Cut
import LuaLens.Proofs.Text.Utf8
import LuaLens.Wire.Frame

/-!
Frames survive the stream they are written to. Reading what was written gives the payloads back, and
a stream that is cut anywhere gives a beginning of them: its cut frame is never read as a shorter one.
A payload may look like a header, since the reader takes it by length and not by lines; the line end
after it is a blank line before the next header.
-/

namespace LuaLens.Frame

open Text

/-! ### Lines of a header -/

/-- The end of a blank line starts the payload of the length announced so far, if there is one. -/
theorem scan_blank_line {closed : Bool} {length : Option Nat} {line : List UInt8}
    (h : isBlankText (lineText line.reverse) = true) (rest : List UInt8) :
    scan closed length line (10 :: rest) =
      length.elim (scan closed none [] rest) fun n => payload closed n rest := by
  cases length <;> simp [scan, h]

/-- The end of any other line may announce a length. -/
theorem scan_header_line {closed : Bool} {length : Option Nat} {line : List UInt8}
    (h : isBlankText (lineText line.reverse) = false) (rest : List UInt8) :
    scan closed length line (10 :: rest) =
      scan closed ((contentLength? (lineText line.reverse)).or length) [] rest := by
  simp [scan, h]

/-- Bytes of a line are collected backwards. -/
theorem scan_append (closed : Bool) (length : Option Nat) {l : List UInt8} (hl : 10 ∉ l)
    (line rest : List UInt8) :
    scan closed length line (l ++ rest) = scan closed length (l.reverse ++ line) rest := by
  induction l generalizing line with
  | nil => rfl
  | cons b l ih =>
    have hb : (b == 10) = false := by
      rw [beq_eq_false_iff_ne]
      rintro rfl
      exact hl List.mem_cons_self
    have hs : scan closed length line (b :: (l ++ rest)) =
        scan closed length (b :: line) (l ++ rest) := by simp [scan, hb]
    rw [List.cons_append, hs, ih fun h => hl (List.mem_cons_of_mem _ h)]
    simp

theorem isBlankText_return : isBlankText (lineText [13]) = true := by decide

/-- A line of a carriage return alone is blank. -/
theorem scan_return_line (closed : Bool) (length : Option Nat) (rest : List UInt8) :
    scan closed length [] (13 :: 10 :: rest) =
      length.elim (scan closed none [] rest) fun n => payload closed n rest := by
  have h := scan_append closed length (l := [13]) (by decide) [] (10 :: rest)
  have hblank : isBlankText (lineText [13].reverse) = true := isBlankText_return
  exact h.trans (scan_blank_line hblank rest)

theorem next_return_line (closed : Bool) (bytes : List UInt8) :
    next closed (13 :: 10 :: bytes) = next closed bytes := scan_return_line closed none bytes

/-- The code points of a text in ASCII, as bytes. -/
def ascii (s : List Char) : List UInt8 := s.map fun c => UInt8.ofNat c.toNat

theorem lineText_ascii {s : List Char} (h : ∀ c ∈ s, c.toNat < 128) : lineText (ascii s) = s := by
  simp only [lineText, ascii, ← utf8_ascii h, fromUTF8?_utf8, String.toList_ofList]

/-- The name in a header that announces a length. -/
def lengthName : List Char := "Content-Length".toList

/-- The header line that announces a length in the given digits, without its line feed. -/
def digitsLine (digits : List Char) : List Char := lengthName ++ ':' :: ' ' :: digits ++ ['\r']

/-- The header line that announces a length, without its line feed. -/
def headerLine (n : Nat) : List Char := lengthName ++ ':' :: ' ' :: Nat.toDigits 10 n ++ ['\r']

theorem headerLine_eq (n : Nat) : headerLine n = digitsLine (Nat.toDigits 10 n) := rfl

theorem isDigit_of_mem_digits {n : Nat} {c : Char} (h : c ∈ Nat.toDigits 10 n) : c.isDigit = true :=
  Nat.isDigit_of_mem_toDigits (by decide) (by decide) h

theorem toNat_of_isDigit {c : Char} (h : c.isDigit = true) : 48 ≤ c.toNat ∧ c.toNat ≤ 57 := by
  simp only [Char.isDigit, ge_iff_le, UInt32.le_iff_toNat_le, Bool.and_eq_true,
    decide_eq_true_eq] at h
  exact h

theorem digitsLine_ascii {digits : List Char} (h : ∀ c ∈ digits, c.isDigit = true) :
    ∀ c ∈ digitsLine digits, c.toNat < 128 ∧ c.toNat ≠ 10 := by
  have hall : (lengthName ++ [':', ' ', '\r']).all (fun c => c.toNat < 128 && c.toNat != 10) = true := by
    decide
  have hname : ∀ c ∈ lengthName ++ [':', ' ', '\r'], c.toNat < 128 ∧ c.toNat ≠ 10 := by
    intro c hc
    simpa using List.all_eq_true.1 hall c hc
  intro c hc
  by_cases hd : c ∈ digits
  · have := toNat_of_isDigit (h c hd)
    omega
  · apply hname
    simp only [digitsLine, List.mem_append, List.mem_cons] at hc ⊢
    grind

theorem headerLine_ascii (n : Nat) : ∀ c ∈ headerLine n, c.toNat < 128 ∧ c.toNat ≠ 10 :=
  digitsLine_ascii fun _ => isDigit_of_mem_digits

/-- Of a text in ASCII, the bytes have a line feed where the text has one. -/
theorem feed_not_mem_ascii {s : List Char} (h : ∀ c ∈ s, c.toNat < 128 ∧ c.toNat ≠ 10) :
    (10 : UInt8) ∉ ascii s := by
  intro hm
  obtain ⟨c, hc, he⟩ := List.mem_map.1 hm
  obtain ⟨hlt, hne⟩ := h c hc
  have ht : (UInt8.ofNat c.toNat).toNat = 10 := congrArg UInt8.toNat he
  rw [UInt8.toNat_ofNat'] at ht
  omega

theorem feed_not_mem_headerLine (n : Nat) : (10 : UInt8) ∉ ascii (headerLine n) :=
  feed_not_mem_ascii (headerLine_ascii n)

/-- The bytes of a header of one line. -/
theorem utf8_header {digits : List Char} (h : ∀ c ∈ digits, c.isDigit = true) :
    ("Content-Length: " ++ String.ofList digits ++ "\r\n\r\n").toUTF8.toList =
      ascii (digitsLine digits) ++ [10, 13, 10] := by
  have hs : "Content-Length: " ++ String.ofList digits ++ "\r\n\r\n" =
      String.ofList (digitsLine digits ++ ['\n', '\r', '\n']) := by
    have hname : "Content-Length: ".toList = lengthName ++ [':', ' '] := by decide
    rw [← String.toList_inj, String.toList_append, String.toList_append, hname,
      String.toList_ofList, String.toList_ofList, digitsLine]
    simp
  have hascii : ∀ c ∈ digitsLine digits ++ ['\n', '\r', '\n'], c.toNat < 128 := by
    have hend : ∀ c ∈ ['\n', '\r', '\n'], c.toNat < 128 := by
      simp only [List.mem_cons, List.not_mem_nil, or_false]
      rintro c (rfl | rfl | rfl) <;> decide
    intro c hc
    rcases List.mem_append.1 hc with hc | hc
    · exact (digitsLine_ascii h c hc).1
    · exact hend c hc
  rw [hs, utf8_ascii hascii, List.map_append]
  rfl

theorem write_eq (p : List UInt8) :
    write p = ascii (headerLine p.length) ++ 10 :: 13 :: 10 :: (p ++ [13, 10]) := by
  rw [write, parts, Nat.toString_eq_repr, Nat.repr_eq_ofList_toDigits,
    utf8_header fun _ => isDigit_of_mem_digits, ← headerLine_eq]
  simp

theorem isBlank_of_isDigit {c : Char} (h : c.isDigit = true) : isBlank c = false := by
  have := toNat_of_isDigit h
  simp only [isBlank, Bool.or_eq_false_iff, Bool.and_eq_false_iff, decide_eq_false_iff_not,
    beq_eq_false_iff_ne]
  omega

theorem decimal?_digits {n : Nat} (h : n < 18446744073709551616) : decimal? (Nat.toDigits 10 n) = some n := by
  have hall : (Nat.toDigits 10 n).all Char.isDigit = true :=
    List.all_eq_true.2 fun c hc => isDigit_of_mem_digits hc
  have hfold : (Nat.toDigits 10 n).foldl (fun n c => n * 10 + (c.toNat - 48)) 0 = n := by
    have hd := Nat.ofDigitChars_ten_toDigits (n := n)
    simpa [Nat.ofDigitChars_eq_foldl, Nat.mul_comm] using hd
  have hne : (Nat.toDigits 10 n).isEmpty = false := by
    simp [Nat.toDigits_ne_nil]
  simp only [decimal?, hall, hne, hfold]
  simpa using h

/-- The header line announces what its digits spell. -/
theorem contentLength?_digitsLine {digits : List Char} (h : ∀ c ∈ digits, c.isDigit = true) :
    contentLength? (digitsLine digits) = decimal? digits := by
  have hsplit : splitOnce ':' (digitsLine digits) =
      some (lengthName, [' '] ++ digits ++ ['\r']) := by
    rw [digitsLine, List.append_assoc]
    exact splitOnce_append (by decide) _
  have hname : ((trim lengthName).map Char.toLower == "content-length".toList) = true := by
    decide
  have htrim : trim ([' '] ++ digits ++ ['\r']) = digits :=
    trim_append (List.forall_mem_singleton.2 (by decide)) (List.forall_mem_singleton.2 (by decide))
      fun c hc => isBlank_of_isDigit (h c hc)
  simp only [contentLength?, hsplit, hname, htrim, ↓reduceIte]

theorem contentLength?_headerLine {n : Nat} (h : n < 18446744073709551616) :
    contentLength? (headerLine n) = some n :=
  (contentLength?_digitsLine fun _ => isDigit_of_mem_digits).trans (decimal?_digits h)

theorem isBlankText_digitsLine (digits : List Char) : isBlankText (digitsLine digits) = false := by
  have hc : 'C' ∈ lengthName := by decide
  have hb : isBlank 'C' = false := by decide
  simp only [isBlankText, List.all_eq_false]
  exact ⟨'C', by simp [digitsLine, hc], by simp [hb]⟩

/-! ### Whole frames -/

/-- Up to the end of the header line, a frame has announced what the digits spell and nothing else. -/
theorem scan_digitsLine (closed : Bool) {digits : List Char} (h : ∀ c ∈ digits, c.isDigit = true)
    (rest : List UInt8) :
    scan closed none [] (ascii (digitsLine digits) ++ 10 :: rest) =
      scan closed (decimal? digits) [] rest := by
  have htext : lineText (((ascii (digitsLine digits)).reverse ++ []).reverse) = digitsLine digits := by
    rw [List.append_nil, List.reverse_reverse]
    exact lineText_ascii fun c hc => (digitsLine_ascii h c hc).1
  rw [scan_append closed none (feed_not_mem_ascii (digitsLine_ascii h)), scan_header_line, htext,
    contentLength?_digitsLine h, Option.or_none]
  rw [htext, isBlankText_digitsLine]

theorem scan_headerLine (closed : Bool) {n : Nat} (h : n < 18446744073709551616) (rest : List UInt8) :
    scan closed none [] (ascii (headerLine n) ++ 10 :: rest) = scan closed (some n) [] rest := by
  rw [headerLine_eq, scan_digitsLine closed fun _ => isDigit_of_mem_digits, decimal?_digits h]

theorem payload_append (closed : Bool) {p : List UInt8} (h : p.length ≤ limit)
    (rest : List UInt8) : payload closed p.length (p ++ rest) = .frame p rest := by
  simp [payload, Nat.not_lt.2 h]

theorem lt_of_le_limit {n : Nat} (h : n ≤ limit) : n < 18446744073709551616 := Nat.lt_of_le_of_lt h (by decide)

/-- A written payload is the next frame. -/
theorem next_write (closed : Bool) {p : List UInt8} (h : p.length ≤ limit) (rest : List UInt8) :
    next closed (write p ++ rest) = .frame p (13 :: 10 :: rest) := by
  rw [next, write_eq, List.append_assoc, List.cons_append, scan_headerLine closed (lt_of_le_limit h),
    List.cons_append, List.cons_append, scan_return_line, List.append_assoc]
  exact payload_append closed h _

/-! ### Whole streams -/

theorem readAll_frame {closed : Bool} {bytes p rest : List UInt8}
    (h : next closed bytes = .frame p rest) :
    readAll closed bytes = (p :: (readAll closed rest).1, (readAll closed rest).2) := by
  rw [readAll]
  split <;> simp_all

theorem readAll_ended {closed : Bool} {bytes : List UInt8} (h : next closed bytes = .ended) :
    readAll closed bytes = ([], .ended) := by
  rw [readAll]
  split <;> simp_all

theorem readAll_broken {closed : Bool} {bytes : List UInt8} {fault : Fault}
    (h : next closed bytes = .broken fault) : readAll closed bytes = ([], .broken fault) := by
  rw [readAll]
  split <;> simp_all

theorem readAll_return_line (bytes : List UInt8) :
    readAll true (13 :: 10 :: bytes) = readAll true bytes := by
  have hn := next_return_line true bytes
  cases h : next true bytes with
  | frame p rest => rw [readAll_frame h, readAll_frame (hn.trans h)]
  | waiting => exact absurd h (next_closed_ne_waiting bytes)
  | ended => rw [readAll_ended h, readAll_ended (hn.trans h)]
  | broken fault => rw [readAll_broken h, readAll_broken (hn.trans h)]

theorem readAll_write {p : List UInt8} (h : p.length ≤ limit) (rest : List UInt8) :
    readAll true (write p ++ rest) = (p :: (readAll true rest).1, (readAll true rest).2) := by
  rw [readAll_frame (next_write true h rest), readAll_return_line]

/-- The bytes of payloads written one after the other. -/
def stream (payloads : List (List UInt8)) : List UInt8 := payloads.flatMap write

/-- What was written is read back. -/
theorem readAll_stream {payloads : List (List UInt8)} (h : ∀ p ∈ payloads, p.length ≤ limit) :
    readAll true (stream payloads) = (payloads, .ended) := by
  induction payloads with
  | nil => exact readAll_ended rfl
  | cons p payloads ih =>
    rw [stream, List.flatMap_cons, readAll_write (h p (by simp)), ← stream,
      ih fun q hq => h q (by simp [hq])]

/-! ### Streams that go on -/

/-- What was found, with more bytes behind it. -/
def Found.before (more : List UInt8) : Found → Found
  | .frame payload rest => .frame payload (rest ++ more)
  | found => found

theorem payload_before {n : Nat} {bytes : List UInt8} (h : payload false n bytes ≠ .waiting)
    (more : List UInt8) : payload true n (bytes ++ more) = (payload false n bytes).before more := by
  unfold payload at h ⊢
  by_cases hlong : limit < n
  · simp only [hlong, ↓reduceIte, Found.before]
  · simp only [hlong, Bool.false_eq_true, ↓reduceIte, List.length_take] at h ⊢
    by_cases hshort : min n bytes.length < n
    · simp [hshort] at h
    · have hle : n ≤ bytes.length := by omega
      rw [if_neg hshort, if_neg (by rw [List.length_append]; omega), Found.before,
        List.take_append_of_le_length hle, List.drop_append_of_le_length hle]

theorem scan_before {length : Option Nat} {line bytes : List UInt8}
    (h : scan false length line bytes ≠ .waiting) (more : List UInt8) :
    scan true length line (bytes ++ more) = (scan false length line bytes).before more := by
  induction bytes generalizing length line with
  | nil => exact absurd rfl h
  | cons b bytes ih =>
    rw [List.cons_append]
    cases hb : b == 10 with
    | false =>
      have hstep (closed : Bool) (rest : List UInt8) :
          scan closed length line (b :: rest) = scan closed length (b :: line) rest := by
        simp [scan, hb]
      rw [hstep] at h ⊢
      rw [hstep, ih h]
    | true =>
      obtain rfl := beq_iff_eq.1 hb
      cases hblank : isBlankText (lineText line.reverse) with
      | false =>
        rw [scan_header_line hblank] at h ⊢
        rw [scan_header_line hblank, ih h]
      | true =>
        rw [scan_blank_line hblank] at h ⊢
        rw [scan_blank_line hblank]
        cases length with
        | none => exact ih h
        | some n => exact payload_before h more

/-- What the beginning of a stream holds stays the same when the stream goes on, unless bytes were
waited for. -/
theorem next_before {bytes : List UInt8} (h : next false bytes ≠ .waiting) (more : List UInt8) :
    next true (bytes ++ more) = (next false bytes).before more :=
  scan_before h more
/-! ### Streams that are cut -/

/-- A reading is over: the stream has come to its end, or is broken there. -/
def Ending.IsFinal : Ending → Prop
  | .waiting _ => False
  | .ended | .broken _ => True

/-- A stream that holds no more than a part of a line gives nothing. -/
theorem readAll_part_of_line {l : List UInt8} (hl : 10 ∉ l) :
    (readAll true l).1 = [] ∧ (readAll true l).2.IsFinal := by
  have hscan : next true l = .ended ∨ next true l = .broken .insideHeader := by
    have h := scan_append true none hl [] []
    rw [List.append_nil, List.append_nil] at h
    have hend (found : Option Nat) : atEnd found = .ended ∨ atEnd found = .broken .insideHeader := by
      cases found <;> simp [atEnd]
    rw [next, h]
    simp only [scan, Bool.not_true, Bool.false_eq_true, ↓reduceIte]
    split_ifs
    · exact hend _
    · exact .inl rfl
    · exact hend _
  obtain h | h := hscan
  · rw [readAll_ended h]
    exact ⟨rfl, trivial⟩
  · rw [readAll_broken h]
    exact ⟨rfl, trivial⟩

/-- A part of the line end after a payload gives nothing. -/
theorem readAll_part_of_end {l : List UInt8} (h : l <+: [13, 10]) :
    readAll true l = ([], .ended) := by
  apply readAll_ended
  obtain rfl | ⟨l, rfl, hl⟩ := List.prefix_cons_iff.1 h
  · rfl
  obtain rfl | ⟨l, rfl, hn⟩ := List.prefix_cons_iff.1 hl
  · decide
  · rw [List.prefix_nil.1 hn, next_return_line]
    rfl

/-- A part of a payload is either refused, or it is the whole payload. -/
theorem payload_part {p part : List UInt8} (h : p.length ≤ limit) (hp : part <+: p ++ [13, 10]) :
    payload true p.length part = .broken (.cutShort p.length) ∨
      ∃ rest, rest <+: [13, 10] ∧ payload true p.length part = .frame p rest := by
  by_cases hlen : part.length < p.length
  · left
    simp only [payload, Nat.not_lt.2 h, List.length_take, ↓reduceIte]
    rw [if_pos (by omega)]
  · right
    have hpre : p <+: part :=
      List.prefix_of_prefix_length_le (List.prefix_append p _) hp (Nat.not_lt.1 hlen)
    obtain ⟨rest, rfl⟩ := hpre
    exact ⟨rest, (List.prefix_append_right_inj p).1 hp, payload_append true h rest⟩

/-- After the header line of a frame that is cut, either the reading breaks or the payload is whole. -/
theorem scan_part_of_payload {p part : List UInt8} (h : p.length ≤ limit)
    (hp : part <+: 13 :: 10 :: (p ++ [13, 10])) :
    (∃ fault, scan true (some p.length) [] part = .broken fault) ∨
      ∃ rest, rest <+: [13, 10] ∧ scan true (some p.length) [] part = .frame p rest := by
  obtain rfl | ⟨part, rfl, hr⟩ := List.prefix_cons_iff.1 hp
  · exact .inl ⟨_, rfl⟩
  obtain rfl | ⟨part, rfl, hpay⟩ := List.prefix_cons_iff.1 hr
  · -- A carriage return at the very end is a blank line, and the payload is empty.
    have hs : scan true (some p.length) [] [13] = payload true p.length [] := by
      simp [scan, isBlankText_return]
    rw [hs]
    exact (payload_part h List.nil_prefix).imp_left fun hb => ⟨_, hb⟩
  · rw [scan_return_line]
    exact (payload_part h hpay).imp_left fun hb => ⟨_, hb⟩

/-- A frame that is cut gives its payload or nothing. -/
theorem readAll_part_of_frame {p part : List UInt8} (h : p.length ≤ limit) (hp : part <+: write p) :
    (readAll true part).1 <+: [p] ∧ (readAll true part).2.IsFinal := by
  have hline {l : List UInt8} (hl : l <+: ascii (headerLine p.length)) :
      (readAll true l).1 <+: [p] ∧ (readAll true l).2.IsFinal := by
    have := readAll_part_of_line fun hmem => feed_not_mem_headerLine p.length (hl.subset hmem)
    exact ⟨this.1 ▸ List.nil_prefix, this.2⟩
  rw [write_eq] at hp
  obtain hl | ⟨r, rfl⟩ := List.prefix_or_prefix_of_prefix hp (List.prefix_append _ _)
  · exact hline hl
  rw [List.prefix_append_right_inj] at hp
  obtain rfl | ⟨part, rfl, hr⟩ := List.prefix_cons_iff.1 hp
  · exact hline (by simp)
  have hnext := scan_headerLine true (lt_of_le_limit h) part
  obtain ⟨fault, hb⟩ | ⟨rest, hr, hf⟩ := scan_part_of_payload h hr
  · rw [readAll_broken (hnext.trans hb)]
    exact ⟨List.nil_prefix, trivial⟩
  · rw [readAll_frame (hnext.trans hf), readAll_part_of_end hr]
    exact ⟨List.prefix_rfl, trivial⟩

/-- A stream that is cut anywhere gives a beginning of the payloads. -/
theorem readAll_part_of_stream {payloads : List (List UInt8)} {part : List UInt8}
    (h : ∀ p ∈ payloads, p.length ≤ limit) (hp : part <+: stream payloads) :
    (readAll true part).1 <+: payloads ∧ (readAll true part).2.IsFinal := by
  induction payloads generalizing part with
  | nil =>
    have hnil : next true [] = .ended := rfl
    rw [List.prefix_nil.1 hp, readAll_ended hnil]
    exact ⟨List.nil_prefix, trivial⟩
  | cons p payloads ih =>
    have hlen := h p (by simp)
    rw [stream, List.flatMap_cons] at hp
    obtain hw | ⟨r, rfl⟩ := List.prefix_or_prefix_of_prefix hp (List.prefix_append _ _)
    · obtain ⟨hf, he⟩ := readAll_part_of_frame hlen hw
      exact ⟨hf.trans (List.prefix_append [p] payloads), he⟩
    · rw [List.prefix_append_right_inj] at hp
      obtain ⟨hf, he⟩ := ih (fun q hq => h q (by simp [hq])) hp
      rw [readAll_write hlen]
      exact ⟨List.prefix_cons_inj p |>.2 hf, he⟩

/-- Frames survive the stream: it gives the payloads back, byte for byte and in order, and then ends;
and wherever it is cut, it gives a beginning of them, and then ends or is broken. -/
theorem stream_exact (payloads : List (List UInt8)) (h : ∀ p ∈ payloads, p.length ≤ limit) :
    readAll true (stream payloads) = (payloads, .ended) ∧
      ∀ part, part <+: stream payloads →
        (readAll true part).1 <+: payloads ∧
          ((readAll true part).2 = .ended ∨ ∃ fault, (readAll true part).2 = .broken fault) := by
  refine ⟨readAll_stream h, fun part hp => ?_⟩
  obtain ⟨hf, he⟩ := readAll_part_of_stream h hp
  refine ⟨hf, ?_⟩
  cases hend : (readAll true part).2 with
  | waiting rest => simp [hend, Ending.IsFinal] at he
  | ended => exact .inl rfl
  | broken fault => exact .inr ⟨fault, rfl⟩

/-- A payload that is itself a header, one that is a line end, and an empty one. -/
theorem stream_exact_header_like :
    let payloads := [ascii (headerLine 3) ++ [10, 13, 10], [13, 10], []]
    readAll true (stream payloads) = (payloads, .ended) ∧
      (readAll true ((stream payloads).take 40)).1 <+: payloads := by
  have h := stream_exact [ascii (headerLine 3) ++ [10, 13, 10], [13, 10], []] (by decide)
  exact ⟨h.1, (h.2 _ (List.take_prefix 40 _)).1⟩

end LuaLens.Frame
