import LuaLens.Wire.Frame

/-!
What frames are written to. An output takes bytes until it fails, and keeps what it took before.
-/

namespace LuaLens

structure Output where
  written : List UInt8 := []
  /-- How many more bytes are taken; any number when absent. -/
  room : Option Nat := none
  /-- Why no more bytes are taken. -/
  reason : String := "Broken pipe (os error 32)"
deriving Repr

namespace Output

/-- The part of some bytes that is taken. -/
def cut (o : Output) (bytes : List UInt8) : List UInt8 :=
  match o.room with
  | some n => bytes.take n
  | none => bytes

/-- Whether some bytes are taken as a whole. -/
def bears (o : Output) (bytes : List UInt8) : Bool :=
  match o.room with
  | some n => decide (bytes.length ≤ n)
  | none => true

/-- Writes bytes. -/
def put (o : Output) (bytes : List UInt8) : Output :=
  { o with written := o.written ++ o.cut bytes, room := o.room.map (· - bytes.length) }

/-- Writes the parts of a frame one after the other, until one of them is not taken as a whole: then
that is told, and the parts after it are not written. -/
def frame (o : Output) (parts : List (List UInt8)) : Output × Bool :=
  match parts with
  | [] => (o, true)
  | part :: rest => if o.bears part then (o.put part).frame rest else (o.put part, false)

end Output

end LuaLens
