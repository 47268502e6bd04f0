import DarwinVm.Lib.Numeral

/-!
# The guest's input loop

`parse` and `input_loop` of `tools/input/dvm_input.c`: lines are read from the console with `fgets`, a
packet on a line is acknowledged if it is newer than the last one, and other lines are rejected. What
an event does on the screen is left out, since it does not change which packets are accepted.

A line leads from one state of the loop to the next whatever comes after it (`inputLoop_line`).
-/

namespace DarwinVm.Relay

/-- `struct packet` -/
structure Packet where
  sequence : UInt64
  down : UInt32
  x : UInt32
  y : UInt32
  kind : UInt8
  deriving DecidableEq

/-- The tag word of a packet. -/
def dvminput1 : Bytes := ascii ['D', 'V', 'M', 'I', 'N', 'P', 'U', 'T', '1']

/-- The letters of the kinds of packets: touch, recap, home, tap and ping. -/
def kindT : UInt8 := 84
def kindR : UInt8 := 82
def kindH : UInt8 := 72
def kindP : UInt8 := 80
def kindS : UInt8 := 83

/-- `sscanf(line, "DVMINPUT1 %llu %c %u %u %u %n", ...)`: the packet, with what is left of the line
at `%n`. -/
def scanPacket (line : Bytes) : Option (Packet × Bytes) := do
  let s ← scanLiteral dvminput1 line
  let (sequence, s) ← scanU64 (scanSpace s)
  let (kind, s) ← scanChar (scanSpace s)
  let (down, s) ← scanU32 (scanSpace s)
  let (x, s) ← scanU32 (scanSpace s)
  let (y, s) ← scanU32 (scanSpace s)
  return (⟨sequence, down, x, y, kind⟩, scanSpace s)

/-- What `parse` allows of a packet whose `down` is a contact state. -/
def Packet.allowed (p : Packet) : Bool :=
  (p.kind = kindT || p.kind = kindR) && p.x ≤ 32767 && p.y ≤ 32767 ||
    p.kind = kindH && p.x = 0 && p.y = 0 ||
    p.kind = kindP && p.down = 0 && p.x ≤ 32767 && p.y ≤ 32767 ||
    p.kind = kindS && p.down = 0 && p.x = 0 && p.y = 0

/-- `parse`, of the text of a line. `line[consumed]` must be the final NUL. -/
def parse (line : Bytes) : Option Packet :=
  match scanPacket line with
  | none => none
  | some (packet, rest) =>
    if rest ≠ [] ∨ 1 < packet.down then none
    else if packet.allowed then some packet else none

/-- `sizeof(line)` -/
abbrev lineSize : ℕ := 160

end DarwinVm.Relay
