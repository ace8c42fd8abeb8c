import LuaLens.Text.Basic

/-!
Frames of a byte stream. A frame is a header of lines with a `Content-Length`, a blank line, and as
many bytes of payload as the header says. Lines that are no such header are passed over.
-/

namespace LuaLens.Frame

open Text

/-- The longest payload that is accepted. -/
def limit : Nat := 67108864

/-- Why a stream stops making sense. -/
inductive Fault
  | tooLong (length : Nat)
  | cutShort (length : Nat)
  | insideHeader
deriving DecidableEq, Repr

def Fault.message : Fault → String
  | .tooLong n =>
    "Malformed frame: Content-Length " ++ toString n ++ " exceeds maximum " ++ toString limit
  | .cutShort n =>
    "Malformed frame: stream closed before " ++ toString n ++ " payload bytes arrived"
  | .insideHeader => "Malformed frame: stream closed inside frame header"

/-! ### Headers -/

/-- The characters of a line; bytes that are no text make it a line of its own kind. -/
def lineText (line : List UInt8) : List Char :=
  match String.fromUTF8? ⟨line.toArray⟩ with
  | some s => s.toList
  | none => [Char.ofNat 0xFFFD]

/-- A decimal number below `2 ^ 64`. -/
def decimal? (digits : List Char) : Option Nat :=
  if digits.isEmpty || !digits.all Char.isDigit then none
  else
    let n := digits.foldl (fun n c => n * 10 + (c.toNat - 48)) 0
    if n < 18446744073709551616 then some n else none

/-- The length that a header line announces. -/
def contentLength? (line : List Char) : Option Nat :=
  match splitOnce ':' line with
  | none => none
  | some (name, value) =>
    if (trim name).map Char.toLower == "content-length".toList then decimal? (trim value) else none

/-! ### Reading -/

/-- What the beginning of a stream holds. -/
inductive Found
  | frame (payload rest : List UInt8)
  /-- More bytes are needed. -/
  | waiting
  /-- The stream is over. -/
  | ended
  | broken (fault : Fault)
deriving DecidableEq, Repr

/-- The payload after a header. -/
def payload (closed : Bool) (length : Nat) (bytes : List UInt8) : Found :=
  if limit < length then .broken (.tooLong length)
  else if (bytes.take length).length < length then
    if closed then .broken (.cutShort length) else .waiting
  else .frame (bytes.take length) (bytes.drop length)

/-- The end of a stream that has announced the given length. -/
def atEnd : Option Nat → Found
  | none => .ended
  | some _ => .broken .insideHeader

/-- Reads a frame. `length` is the last one announced, and `line` the present line backwards; a
closed stream has no more bytes to come, and its last line needs no line feed. -/
def scan (closed : Bool) (length : Option Nat) (line : List UInt8) : List UInt8 → Found
  | [] =>
    if !closed then .waiting
    else
      let text := lineText line.reverse
      if line.isEmpty then atEnd length
      else if isBlankText text then
        match length with
        | some n => payload closed n []
        | none => .ended
      else atEnd ((contentLength? text).or length)
  | b :: rest =>
    if b == 10 then
      let text := lineText line.reverse
      if isBlankText text then
        match length with
        | some n => payload closed n rest
        | none => scan closed none [] rest
      else scan closed ((contentLength? text).or length) [] rest
    else scan closed length (b :: line) rest

/-- The frame at the beginning of a stream. -/
def next (closed : Bool) (bytes : List UInt8) : Found := scan closed none [] bytes

theorem length_le_of_payload {closed : Bool} {n : Nat} {bytes p rest : List UInt8}
    (h : payload closed n bytes = .frame p rest) : rest.length ≤ bytes.length := by
  unfold payload at h
  split at h
  · cases h
  · split at h
    · split at h <;> cases h
    · cases h
      simp

theorem length_lt_of_scan {closed : Bool} {length : Option Nat} {line bytes p rest : List UInt8}
    (h : scan closed length line bytes = .frame p rest) :
    rest.length < bytes.length + line.length := by
  induction bytes generalizing length line with
  | nil =>
    simp only [scan] at h
    split at h
    · cases h
    · split at h
      · cases length <;> cases h
      · split at h
        · split at h
          · have := length_le_of_payload h
            cases line with
            | nil => contradiction
            | cons b line => simp only [List.length_nil, List.length_cons] at *; omega
          · cases h
        · cases hl : (contentLength? (lineText line.reverse)).or length <;>
            simp [hl, atEnd] at h
  | cons b bytes ih =>
    simp only [scan] at h
    split at h
    · split at h
      · split at h
        · have := length_le_of_payload h
          simp; omega
        · have := ih h
          simp at *; omega
      · have := ih h
        simp at *; omega
    · have := ih h
      simp at *; omega

theorem length_lt_of_next {closed : Bool} {bytes p rest : List UInt8}
    (h : next closed bytes = .frame p rest) : rest.length < bytes.length := by
  simpa using length_lt_of_scan h

theorem payload_closed_ne_waiting (n : Nat) (bytes : List UInt8) :
    payload true n bytes ≠ .waiting := by
  intro h
  rw [payload] at h
  split at h
  · cases h
  · split at h <;> cases h

theorem scan_closed_ne_waiting (length : Option Nat) (line bytes : List UInt8) :
    scan true length line bytes ≠ .waiting := by
  have hend (l : Option Nat) : atEnd l ≠ .waiting := by cases l <;> simp [atEnd]
  induction bytes generalizing length line with
  | nil =>
    simp only [scan, Bool.not_true, Bool.false_eq_true, ↓reduceIte]
    split
    · exact hend _
    · split
      · cases length with
        | none => simp
        | some n => exact payload_closed_ne_waiting n []
      · exact hend _
  | cons b bytes ih =>
    simp only [scan]
    split
    · split
      · cases length with
        | none => exact ih none []
        | some n => exact payload_closed_ne_waiting n bytes
      · exact ih _ []
    · exact ih length _

/-- A closed stream is never waited for. -/
theorem next_closed_ne_waiting (bytes : List UInt8) : next true bytes ≠ .waiting :=
  scan_closed_ne_waiting none [] bytes

/-- How the reading of a stream ends. -/
inductive Ending
  /-- The bytes after the last whole frame. -/
  | waiting (rest : List UInt8)
  | ended
  | broken (fault : Fault)
deriving DecidableEq, Repr

/-- All frames of a stream, and how it goes on. -/
def readAll (closed : Bool) (bytes : List UInt8) : List (List UInt8) × Ending :=
  match h : next closed bytes with
  | .frame p rest =>
    have := length_lt_of_next h
    let (frames, ending) := readAll closed rest
    (p :: frames, ending)
  | .waiting => ([], .waiting bytes)
  | .ended => ([], .ended)
  | .broken fault => ([], .broken fault)
termination_by bytes.length

/-- How many bytes have to come at least before the frame at the beginning of a stream is whole;
`length` and `line` are as for `scan`. -/
def missing (length : Option Nat) (line : List UInt8) : List UInt8 → Nat
  | [] => 1
  | b :: rest =>
    if b == 10 then
      let text := lineText line.reverse
      if isBlankText text then
        match length with
        | some n => n - rest.length
        | none => missing none [] rest
      else missing ((contentLength? text).or length) [] rest
    else missing length (b :: line) rest

/-! ### Writing -/

/-- The parts of the frame of a payload, as they are written one after the other. -/
def parts (payload : List UInt8) : List (List UInt8) :=
  [("Content-Length: " ++ toString payload.length ++ "\r\n\r\n").toUTF8.toList, payload, [13, 10]]

/-- The bytes of a payload as a frame. -/
def write (payload : List UInt8) : List UInt8 := (parts payload).flatten

end LuaLens.Frame
