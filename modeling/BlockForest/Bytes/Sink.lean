import BlockForest.Bytes.Word

/-!
# Writing to a buffer

A `Sink` is a buffer with a position at which it is written over and beyond its end extended.
Where the position lies beyond the end, the gap is filled with zeros. A sink may have a limit:
a write fills it up to that position and then fails, so a failed write can have written some
of its bytes.

What is written piece by piece is first gathered in an `Outlet`, which knows how much room the
sink has and nothing else of it. The sink then receives all pieces at once, which comes to the
same as writing one after the other.
-/

set_option autoImplicit false

namespace BlockForest

/-- Bytes that are being written. -/
structure Outlet where
  /-- How many more bytes can be written, if that is limited. -/
  room : Option Nat
  /-- The pieces that were written, the last one first. -/
  pieces : List Bytes

namespace Outlet

/-- All bytes that were written. -/
def bytes (o : Outlet) : Bytes := o.pieces.reverse.flatten

/-- Writes bytes as far as there is room, and says whether there was enough for all. -/
def write (o : Outlet) (data : Bytes) : Bool × Outlet :=
  match o.room with
  | none => (true, { o with pieces := data :: o.pieces })
  | some room =>
    if data.length ≤ room then
      (true, { room := some (room - data.length), pieces := data :: o.pieces })
    else (false, { room := some 0, pieces := data.take room :: o.pieces })

/-- Writes pieces one after the other, up to the first for which there is no room. -/
def writeAll : Outlet → List Bytes → Bool × Outlet
  | o, [] => (true, o)
  | o, data :: rest =>
    match o.write data with
    | (true, o) => writeAll o rest
    | (false, o) => (false, o)

end Outlet

/-- A buffer that is being written. -/
structure Sink where
  bytes : Bytes
  position : Nat
  limit : Option Nat

namespace Sink

/-- An empty sink, with a limit or without. -/
def empty (limit : Option Nat) : Sink := ⟨[], 0, limit⟩

/-- A buffer with bytes written over it from a position on. -/
def overwrite (buffer : Bytes) (position : Nat) (data : Bytes) : Bytes :=
  buffer.take position ++ List.replicate (position - buffer.length) 0 ++ data
    ++ buffer.drop (position + data.length)

/-- Writes bytes that fit. Writing nothing changes nothing. -/
def put (s : Sink) (data : Bytes) : Sink :=
  if data.isEmpty then s
  else
    { s with
      bytes := overwrite s.bytes s.position data
      position := s.position + data.length }

/-- Where bytes for the sink are gathered. -/
def outlet (s : Sink) : Outlet := ⟨s.limit.map fun limit => limit - s.position, []⟩

/-- The sink after the gathered bytes were written to it. -/
def receive (s : Sink) (o : Outlet) : Sink := s.put o.bytes

/-- Writes pieces one after the other as far as the limit allows, and says whether it allowed
them all. -/
def write (s : Sink) (pieces : List Bytes) : Bool × Sink :=
  let (whole, o) := s.outlet.writeAll pieces
  (whole, s.receive o)

/-- The sink at another position. -/
def seek (s : Sink) (position : Nat) : Sink := { s with position := position }

end Sink

end BlockForest
