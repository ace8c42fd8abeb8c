import LuaLens.Proofs.Wire.Frame

/-!
Frames as any peer may write them: lines that announce nothing, a line that announces a length, more
lines of the header, a blank line, and as many bytes of payload as were announced last. A stream of
such blocks is read as its payloads.
-/

namespace LuaLens.Frame

open Text

/-! ### Lines -/

/-- The length that a line announces. -/
def announces? (line : List UInt8) : Option Nat := contentLength? (lineText line)

def isBlankLine (line : List UInt8) : Bool := isBlankText (lineText line)

/-- The bytes of lines, each with its line feed. -/
def lineBytes (lines : List (List UInt8)) : List UInt8 := lines.flatMap (· ++ [10])

/-- The length announced last, with the one announced before the lines. -/
def announced (length : Option Nat) (lines : List (List UInt8)) : Option Nat :=
  lines.foldl (fun length line => (announces? line).or length) length

theorem lineBytes_cons (line : List UInt8) (lines : List (List UInt8)) (rest : List UInt8) :
    lineBytes (line :: lines) ++ rest = line ++ 10 :: (lineBytes lines ++ rest) := by
  rw [lineBytes, List.flatMap_cons, ← lineBytes, List.append_assoc, List.append_assoc]
  rfl

theorem contentLength?_of_isBlankText {text : List Char} (h : isBlankText text = true) :
    contentLength? text = none := by
  have hcolon : ':' ∉ text := by
    intro hc
    have hblank := List.all_eq_true.1 h ':' hc
    revert hblank
    decide
  rw [contentLength?, splitOnce_of_not_mem hcolon]

theorem isBlankLine_of_announces? {line : List UInt8} (h : (announces? line).isSome = true) :
    isBlankLine line = false := by
  rw [Bool.eq_false_iff]
  intro hblank
  rw [announces?, contentLength?_of_isBlankText hblank] at h
  cases h

/-- The end of a line that is not blank. -/
theorem scan_line {closed : Bool} {line : List UInt8} (length : Option Nat) (hl : 10 ∉ line)
    (hb : isBlankLine line = false) (rest : List UInt8) :
    scan closed length [] (line ++ 10 :: rest) = scan closed ((announces? line).or length) [] rest := by
  have htext : ((line.reverse ++ []).reverse) = line := by
    rw [List.append_nil, List.reverse_reverse]
  rw [scan_append closed length hl, scan_header_line, htext, announces?]
  rw [htext]
  exact hb

/-- The end of a blank line. -/
theorem scan_blank {closed : Bool} {line : List UInt8} (length : Option Nat) (hl : 10 ∉ line)
    (hb : isBlankLine line = true) (rest : List UInt8) :
    scan closed length [] (line ++ 10 :: rest) =
      length.elim (scan closed none [] rest) fun n => payload closed n rest := by
  rw [scan_append closed length hl, scan_blank_line]
  rw [List.append_nil, List.reverse_reverse]
  exact hb

/-- Lines that announce nothing are passed over, blank ones included. -/
theorem scan_silent_lines (closed : Bool) {lines : List (List UInt8)}
    (h : ∀ line ∈ lines, 10 ∉ line ∧ announces? line = none) (rest : List UInt8) :
    scan closed none [] (lineBytes lines ++ rest) = scan closed none [] rest := by
  induction lines with
  | nil => rfl
  | cons line lines ih =>
    obtain ⟨hl, hnone⟩ := h line (by simp)
    have hrest := ih fun l hm => h l (by simp [hm])
    rw [lineBytes_cons]
    cases hb : isBlankLine line with
    | true => rw [scan_blank none hl hb, Option.elim_none, hrest]
    | false => rw [scan_line none hl hb, hnone, Option.none_or, hrest]

/-- Lines of a header leave the length announced last. -/
theorem scan_header_lines (closed : Bool) (length : Option Nat) {lines : List (List UInt8)}
    (h : ∀ line ∈ lines, 10 ∉ line ∧ isBlankLine line = false) (rest : List UInt8) :
    scan closed length [] (lineBytes lines ++ rest) = scan closed (announced length lines) [] rest := by
  induction lines generalizing length with
  | nil => rfl
  | cons line lines ih =>
    obtain ⟨hl, hb⟩ := h line (by simp)
    rw [lineBytes_cons, scan_line length hl hb, ih _ fun l hm => h l (by simp [hm])]
    rfl

/-! ### Blocks -/

/-- A frame as a peer may write it. -/
structure Block where
  /-- Lines before the header. -/
  before : List (List UInt8) := []
  /-- The line that announces a length first. -/
  first : List UInt8
  /-- The other lines of the header. -/
  others : List (List UInt8) := []
  /-- The line between the header and the payload. -/
  blank : List UInt8 := [13]
  payload : List UInt8

namespace Block

def bytes (b : Block) : List UInt8 :=
  lineBytes b.before ++ (lineBytes (b.first :: b.others) ++ (lineBytes [b.blank] ++ b.payload))

/-- The header announces the length of the payload, and no other after it. -/
structure WellFormed (b : Block) : Prop where
  before : ∀ line ∈ b.before, 10 ∉ line ∧ announces? line = none
  first : 10 ∉ b.first ∧ (announces? b.first).isSome = true
  others : ∀ line ∈ b.others, 10 ∉ line ∧ isBlankLine line = false
  blank : 10 ∉ b.blank ∧ isBlankLine b.blank = true
  length : announced none (b.first :: b.others) = some b.payload.length
  within : b.payload.length ≤ limit

/-- A block is read as its payload, and nothing of what follows is taken. -/
theorem WellFormed.next {b : Block} (h : b.WellFormed) (closed : Bool) (rest : List UInt8) :
    Frame.next closed (b.bytes ++ rest) = .frame b.payload rest := by
  have hheader : ∀ line ∈ b.first :: b.others, 10 ∉ line ∧ isBlankLine line = false := by
    intro line hline
    obtain rfl | hline := List.mem_cons.1 hline
    · exact ⟨h.first.1, isBlankLine_of_announces? h.first.2⟩
    · exact h.others line hline
  have hlast : lineBytes [b.blank] ++ (b.payload ++ rest) = b.blank ++ 10 :: (b.payload ++ rest) :=
    lineBytes_cons b.blank [] _
  rw [Frame.next, bytes, List.append_assoc, List.append_assoc, List.append_assoc,
    scan_silent_lines closed h.before, scan_header_lines closed none hheader, h.length, hlast,
    scan_blank _ h.blank.1 h.blank.2, Option.elim_some]
  exact payload_append closed h.within rest

/-- The block of a payload behind a header of one line. -/
def ofPayload (p : List UInt8) : Block where
  first := ascii (headerLine p.length)
  payload := p

theorem wellFormed_ofPayload {p : List UInt8} (h : p.length ≤ limit) : (ofPayload p).WellFormed := by
  have hfirst : announces? (ascii (headerLine p.length)) = some p.length := by
    rw [announces?, lineText_ascii fun c hc => (headerLine_ascii _ c hc).1,
      contentLength?_headerLine (lt_of_le_limit h)]
  refine ⟨by simp [ofPayload], ⟨feed_not_mem_headerLine _, ?_⟩, by simp [ofPayload],
    ⟨by simp [ofPayload], isBlankText_return⟩, ?_, h⟩
  · rw [ofPayload, hfirst]
    rfl
  · simp only [announced, ofPayload, List.foldl_cons, List.foldl_nil, hfirst, Option.some_or]

end Block

/-! ### Streams of blocks -/

/-- A stream of frames as peers may write them, with lines after the last of them. -/
structure Transcript where
  blocks : List Block
  trailer : List (List UInt8) := []

namespace Transcript

def bytes (t : Transcript) : List UInt8 := t.blocks.flatMap Block.bytes ++ lineBytes t.trailer

def payloads (t : Transcript) : List (List UInt8) := t.blocks.map Block.payload

structure WellFormed (t : Transcript) : Prop where
  blocks : ∀ b ∈ t.blocks, b.WellFormed
  trailer : ∀ line ∈ t.trailer, 10 ∉ line ∧ announces? line = none

/-- Such a stream is read as its payloads, and then is over. -/
theorem WellFormed.readAll {t : Transcript} (h : t.WellFormed) :
    Frame.readAll true t.bytes = (t.payloads, .ended) := by
  obtain ⟨blocks, trailer⟩ := t
  rw [bytes, payloads]
  induction blocks with
  | nil =>
    have hscan := scan_silent_lines true h.trailer []
    rw [List.append_nil] at hscan
    exact readAll_ended (hscan.trans rfl)
  | cons b blocks ih =>
    have hnext := (h.blocks b (by simp)).next true (blocks.flatMap Block.bytes ++ lineBytes trailer)
    have hrest := ih ⟨fun c hc => h.blocks c (by simp [hc]), h.trailer⟩
    simp only [List.flatMap_cons, List.append_assoc, List.map_cons]
    rw [readAll_frame hnext, hrest]

/-- The stream of payloads behind headers of one line. -/
def ofPayloads (ps : List (List UInt8)) : Transcript where
  blocks := ps.map Block.ofPayload

theorem payloads_ofPayloads (ps : List (List UInt8)) : (ofPayloads ps).payloads = ps := by
  rw [payloads, ofPayloads, List.map_map]
  exact List.map_id ps

theorem wellFormed_ofPayloads {ps : List (List UInt8)} (h : ∀ p ∈ ps, p.length ≤ limit) :
    (ofPayloads ps).WellFormed := by
  refine ⟨fun b hb => ?_, by simp [ofPayloads]⟩
  obtain ⟨p, hp, rfl⟩ := List.mem_map.1 hb
  exact Block.wellFormed_ofPayload (h p hp)

end Transcript

end LuaLens.Frame
