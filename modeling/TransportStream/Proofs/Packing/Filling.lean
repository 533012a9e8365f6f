import TransportStream.Packing
import TransportStream.Proofs.Packet.Content
import TransportStream.Proofs.Packet.Fields

namespace TransportStream.SectionPacker

variable (z : SectionPacker) (pointer : Option Nat) (data : Bytes)

@[simp] theorem byte_zero_fill : (z.fill pointer data).byte 0 = Packet.syncByte := by
  cases pointer <;> rw [fill, Packet.byte_withPayload _ _ (by decide)] <;> simp

@[simp] theorem pid_fill : (z.fill pointer data).pid = z.pid := by
  cases pointer <;> simp [fill]

@[simp] theorem counter_fill : (z.fill pointer data).counter = z.counter := by
  cases pointer <;> simp [fill]

@[simp] theorem layout_fill : (z.fill pointer data).layout = .payloadOnly := by
  cases pointer <;> simp [fill]

@[simp] theorem isScrambled_fill : (z.fill pointer data).isScrambled = false := by
  cases pointer <;> simp [fill, Packet.isScrambled]

@[simp] theorem unitStart_fill : (z.fill pointer data).unitStart = pointer.isSome := by
  cases pointer <;> simp [fill]

@[simp] theorem breakSignalled_fill : (z.fill pointer data).breakSignalled = false :=
  Packet.breakSignalled_of_payloadOnly _ (layout_fill ..)

theorem content_of_layout {p : Packet} (h : p.layout = .payloadOnly) :
    p.content = some (p.bytes.drop Packet.headerSize) := by
  have ho : p.contentOffset = Packet.headerSize := by rw [Packet.contentOffset, h]
  rw [Packet.content, ho, h]
  rfl

theorem content_fill_none (h : data.length ≤ Packet.maxPayloadSize) :
    (z.fill none data).content =
      some (data ++ List.replicate (Packet.maxPayloadSize - data.length) 0xff) := by
  rw [content_of_layout (layout_fill ..), fill, Packet.drop_withPayload, List.take_of_length_le h]

theorem content_fill_some {distance : Nat} (h : data.length ≤ pointedSize) :
    (z.fill (some distance) data).content =
      some (UInt8.ofNat distance :: (data ++ List.replicate (pointedSize - data.length) 0xff)) := by
  have hl : (UInt8.ofNat distance :: data).length ≤ Packet.maxPayloadSize := by
    have hp : pointedSize = 183 := rfl
    have hm : Packet.maxPayloadSize = 184 := rfl
    rw [List.length_cons]
    omega
  rw [content_of_layout (layout_fill ..), fill, Packet.drop_withPayload, List.take_of_length_le hl,
    List.length_cons, List.cons_append, pointedSize, Nat.sub_sub, Nat.add_comm 1]

end TransportStream.SectionPacker
