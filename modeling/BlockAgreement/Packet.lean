import BlockAgreement.Block

/-!
# Packets between peers

A packet belongs to one of the protocols that share a connection, and its payload is a stream: what
has been read from it is gone.
-/

set_option autoImplicit false

namespace BlockAgreement

structure Packet where
  code : UInt64
  unread : Bytes
  deriving DecidableEq, Repr

/-- The announcement of a whole block, which belongs to block synchronisation. -/
structure Announcement where
  block : Block
  totalDifficulty : BitVec 128
  deriving DecidableEq, Repr

instance : Wire (BitVec 128) := ⟨Codec.littleEndian 16⟩

instance : Wire Announcement :=
  ⟨(Wire.codec : Codec (Block × BitVec 128)).map (fun (b, d) => ⟨b, d⟩)
    (fun a => (a.block, a.totalDifficulty))⟩

namespace Packet

def consensusCode : UInt64 := 0x11

def announcementCode : UInt64 := 0x07

def consensus (payload : Bytes) : Packet := ⟨consensusCode, payload⟩

def announce (a : Announcement) : Packet := ⟨announcementCode, Wire.encode a⟩

def read (p : Packet) : Bytes × Packet := (p.unread, { p with unread := [] })

def peek (p : Packet) : Bytes := p.unread

def readAs (α : Type) [Wire α] (p : Packet) : Except DecodeError α × Packet :=
  (Wire.decode p.unread, { p with unread := [] })

end Packet

end BlockAgreement
