import TransportStream.ClockReference
import TransportStream.Packet.Basic

namespace TransportStream.Packet

def null : Packet where
  bytes := [syncByte, 0x1f, 0xff, 0x10] ++ List.replicate maxPayloadSize 0xff
  length_bytes := by rw [List.length_append, List.length_replicate]; rfl

instance : Inhabited Packet := ⟨null⟩

def payloadOnly (pid : Pid) (c : ContinuityCounter) : Packet :=
  (null.setPid pid).setCounter c

/-- Replaces the bytes after the header by `data` and, where that ends, unwritten bytes. Data beyond
the end of the packet is left out. -/
def withPayload (p : Packet) (data : Bytes) : Packet where
  bytes := p.bytes.take headerSize ++
    (data.take maxPayloadSize ++ List.replicate (maxPayloadSize - data.length) 0xff)
  length_bytes := by
    simp only [List.length_append, List.length_take, List.length_replicate, p.length_bytes,
      maxPayloadSize, size, headerSize]
    omega

def withClock (p : Packet) (clock : ClockReference) : Packet where
  bytes := p.bytes.take headerSize ++ (183 :: 0x10 :: clock.toBytes) ++ p.bytes.drop 12
  length_bytes := by simp [p.length_bytes, size, headerSize]

def clockOnly (pid : Pid) (c : ContinuityCounter) (clock : ClockReference) : Packet :=
  ((payloadOnly pid c).setLayout .adaptationOnly).withClock clock

end TransportStream.Packet
