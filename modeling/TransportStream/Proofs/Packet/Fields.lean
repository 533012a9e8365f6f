import Mathlib.Data.Nat.Bitwise
import TransportStream.Packet.Build

namespace TransportStream

theorem testBit_bits (b : UInt8) (low width i : Nat) :
    (bits b low width).testBit i = (decide (i < width) && b.toNat.testBit (low + i)) := by
  rw [bits, Nat.one_shiftLeft, Nat.testBit_mod_two_pow, Nat.testBit_shiftRight]

theorem testBit_withBits (b : UInt8) (low width v : Nat) {i : Nat} (hi : i < 8) :
    (withBits b low width v).toNat.testBit i =
      if low ≤ i ∧ i < low + width then v.testBit (i - low) else b.toNat.testBit i := by
  have hlow : b.toNat % 2 ^ low < 2 ^ low := Nat.mod_lt _ (Nat.two_pow_pos low)
  have hmid : 2 ^ low * (v % 2 ^ width) + b.toNat % 2 ^ low < 2 ^ (low + width) := by
    have hv : v % 2 ^ width + 1 ≤ 2 ^ width := Nat.mod_lt _ (Nat.two_pow_pos width)
    calc 2 ^ low * (v % 2 ^ width) + b.toNat % 2 ^ low
        < 2 ^ low * (v % 2 ^ width) + 2 ^ low := Nat.add_lt_add_left hlow _
      _ = 2 ^ low * (v % 2 ^ width + 1) := rfl
      _ ≤ 2 ^ low * 2 ^ width := Nat.mul_le_mul_left _ hv
      _ = 2 ^ (low + width) := (Nat.pow_add 2 low width).symm
  have hsum : (b.toNat >>> (low + width)) <<< (low + width) + (v % 1 <<< width) <<< low
      + b.toNat % 1 <<< low = 2 ^ (low + width) * (b.toNat >>> (low + width)) +
        (2 ^ low * (v % 2 ^ width) + b.toNat % 2 ^ low) := by
    simp only [Nat.shiftLeft_eq, Nat.one_mul, Nat.mul_comm, Nat.add_assoc]
  rw [withBits, UInt8.toNat_ofNat', hsum, Nat.testBit_mod_two_pow, decide_eq_true hi,
    Bool.true_and, Nat.testBit_two_pow_mul_add _ hmid, Nat.testBit_two_pow_mul_add _ hlow,
    Nat.testBit_mod_two_pow, Nat.testBit_mod_two_pow, Nat.testBit_shiftRight]
  split_ifs with h₁ h₂ h₃ h₄
  · omega
  · simp [h₂]
  · rw [decide_eq_true (by omega), Bool.true_and]
  · omega
  · omega
  · congr 1
    omega

theorem bits_withBits_self {low width : Nat} (h : low + width ≤ 8) (b : UInt8) (v : Nat) :
    bits (withBits b low width v) low width = v % 1 <<< width := by
  apply Nat.eq_of_testBit_eq
  intro i
  rw [testBit_bits, Nat.one_shiftLeft, Nat.testBit_mod_two_pow]
  by_cases hi : i < width
  · rw [testBit_withBits b low width v (by omega), if_pos (by omega), Nat.add_sub_cancel_left]
  · rw [decide_eq_false hi, Bool.false_and, Bool.false_and]

theorem bits_withBits_of_disjoint {low width low' width' : Nat} (h : low' + width' ≤ 8)
    (hd : low' + width' ≤ low ∨ low + width ≤ low') (b : UInt8)
    (v : Nat) : bits (withBits b low width v) low' width' = bits b low' width' := by
  apply Nat.eq_of_testBit_eq
  intro i
  rw [testBit_bits, testBit_bits]
  by_cases hi : i < width'
  · rw [testBit_withBits b low width v (by omega), if_neg (by omega)]
  · rw [decide_eq_false hi, Bool.false_and, Bool.false_and]

theorem bit_withBits_of_disjoint {low width i : Nat} (hi : i < 8)
    (hd : i < low ∨ low + width ≤ i) (b : UInt8) (v : Nat) :
    bit (withBits b low width v) i = bit b i := by
  rw [bit, bit, bits_withBits_of_disjoint (by omega) (by omega)]

namespace Packet

variable (p : Packet) (pid : Pid) (c : ContinuityCounter) (start : Bool)

@[simp] theorem pid_setPid : (p.setPid pid).pid = pid := by
  have hp := pid.val_lt
  apply Pid.ext
  simp only [Packet.pid, setPid, byte_setByte]
  simp [bits_withBits_self (show 0 + 5 ≤ 8 by decide)]
  omega

@[simp] theorem unitStart_setPid : (p.setPid pid).unitStart = p.unitStart := by
  simp only [unitStart, setPid, byte_setByte]
  simp [bit_withBits_of_disjoint]

@[simp] theorem scrambling_setPid : (p.setPid pid).scrambling = p.scrambling := by
  simp only [scrambling, setPid, byte_setByte]
  simp

@[simp] theorem layout_setPid : (p.setPid pid).layout = p.layout := by
  simp only [layout, setPid, byte_setByte]
  simp

@[simp] theorem counter_setCounter : (p.setCounter c).counter = c := by
  apply ContinuityCounter.ext
  simp only [counter, setCounter, byte_setByte]
  simp only [if_true, bits_withBits_self (show 0 + 4 ≤ 8 by decide)]
  exact Nat.mod_eq_of_lt c.val_lt

@[simp] theorem pid_setCounter : (p.setCounter c).pid = p.pid := by
  simp only [Packet.pid, setCounter, byte_setByte]
  simp

@[simp] theorem unitStart_setCounter : (p.setCounter c).unitStart = p.unitStart := by
  simp only [unitStart, setCounter, byte_setByte]
  simp

@[simp] theorem scrambling_setCounter : (p.setCounter c).scrambling = p.scrambling := by
  simp only [scrambling, setCounter, byte_setByte]
  simp [bits_withBits_of_disjoint]

@[simp] theorem layout_setCounter : (p.setCounter c).layout = p.layout := by
  simp only [layout, setCounter, byte_setByte]
  simp [bits_withBits_of_disjoint]

@[simp] theorem unitStart_setUnitStart : (p.setUnitStart start).unitStart = start := by
  simp only [unitStart, setUnitStart, byte_setByte, bit]
  simp only [if_true, bits_withBits_self (show 6 + 1 ≤ 8 by decide)]
  cases start <;> rfl

@[simp] theorem byte_zero_setUnitStart : (p.setUnitStart start).byte 0 = p.byte 0 := by
  simp [setUnitStart, byte_setByte]

@[simp] theorem pid_setUnitStart : (p.setUnitStart start).pid = p.pid := by
  simp only [Packet.pid, setUnitStart, byte_setByte]
  simp [bits_withBits_of_disjoint]

@[simp] theorem counter_setUnitStart : (p.setUnitStart start).counter = p.counter := by
  simp only [counter, setUnitStart, byte_setByte]
  simp

@[simp] theorem scrambling_setUnitStart :
    (p.setUnitStart start).scrambling = p.scrambling := by
  simp only [scrambling, setUnitStart, byte_setByte]
  simp

@[simp] theorem layout_setUnitStart : (p.setUnitStart start).layout = p.layout := by
  simp only [layout, setUnitStart, byte_setByte]
  simp

@[simp] theorem layout_setLayout (l : PacketLayout) : (p.setLayout l).layout = l := by
  simp only [layout, setLayout, byte_setByte]
  simp only [if_true, bits_withBits_self (show 4 + 2 ≤ 8 by decide)]
  cases l <;> rfl

@[simp] theorem pid_setLayout (l : PacketLayout) : (p.setLayout l).pid = p.pid := by
  simp only [Packet.pid, setLayout, byte_setByte]
  simp

@[simp] theorem counter_setLayout (l : PacketLayout) : (p.setLayout l).counter = p.counter := by
  simp only [counter, setLayout, byte_setByte]
  simp [bits_withBits_of_disjoint]

theorem byte_eq_of_take {p q : Packet} (h : p.bytes.take headerSize = q.bytes.take headerSize)
    {i : Fin size} (hi : i.val < headerSize) : p.byte i = q.byte i := by
  have hb : p.bytes[i.val]? = q.bytes[i.val]? := by
    rw [← List.getElem?_take_of_lt hi, h, List.getElem?_take_of_lt hi]
  rw [getElem?_bytes, getElem?_bytes] at hb
  exact Option.some.inj hb

theorem take_append_of_header (p : Packet) (rest : Bytes) :
    (p.bytes.take headerSize ++ rest).take headerSize = p.bytes.take headerSize := by
  refine List.take_left' ?_
  rw [List.length_take, p.length_bytes]
  rfl

theorem byte_withPayload (data : Bytes) {i : Fin size} (hi : i.val < headerSize) :
    (p.withPayload data).byte i = p.byte i :=
  byte_eq_of_take (take_append_of_header p _) hi

@[simp] theorem pid_withPayload (data : Bytes) : (p.withPayload data).pid = p.pid := by
  apply Pid.ext
  simp only [Packet.pid]
  rw [byte_withPayload p data (by decide), byte_withPayload p data (by decide)]

@[simp] theorem unitStart_withPayload (data : Bytes) :
    (p.withPayload data).unitStart = p.unitStart := by
  simp only [unitStart]
  rw [byte_withPayload p data (by decide)]

@[simp] theorem scrambling_withPayload (data : Bytes) :
    (p.withPayload data).scrambling = p.scrambling := by
  simp only [scrambling]
  rw [byte_withPayload p data (by decide)]

@[simp] theorem layout_withPayload (data : Bytes) :
    (p.withPayload data).layout = p.layout := by
  simp only [layout]
  rw [byte_withPayload p data (by decide)]

@[simp] theorem counter_withPayload (data : Bytes) :
    (p.withPayload data).counter = p.counter := by
  apply ContinuityCounter.ext
  simp only [counter]
  rw [byte_withPayload p data (by decide)]

theorem drop_withPayload (data : Bytes) : (p.withPayload data).bytes.drop headerSize =
    data.take maxPayloadSize ++ List.replicate (maxPayloadSize - data.length) 0xff := by
  have hl : (p.bytes.take headerSize).length = headerSize := by
    rw [List.length_take, p.length_bytes]
    rfl
  rw [withPayload, List.drop_append_of_le_length (by omega), List.drop_of_length_le (by omega),
    List.nil_append]

@[simp] theorem byte_zero_payloadOnly : (payloadOnly pid c).byte 0 = syncByte := by
  simp only [payloadOnly, setPid, setCounter, byte_setByte]
  rfl

@[simp] theorem pid_payloadOnly : (payloadOnly pid c).pid = pid := by simp [payloadOnly]

@[simp] theorem counter_payloadOnly : (payloadOnly pid c).counter = c := by simp [payloadOnly]

@[simp] theorem unitStart_payloadOnly : (payloadOnly pid c).unitStart = false := by
  simp only [payloadOnly, unitStart_setCounter, unitStart_setPid]
  rfl

@[simp] theorem scrambling_payloadOnly : (payloadOnly pid c).scrambling = 0 := by
  simp only [payloadOnly, scrambling_setCounter, scrambling_setPid]
  rfl

@[simp] theorem layout_payloadOnly : (payloadOnly pid c).layout = .payloadOnly := by
  simp only [payloadOnly, layout_setCounter, layout_setPid]
  rfl

end Packet

end TransportStream
