import TransportStream.Bytes
import TransportStream.ContinuityCounter
import TransportStream.Pid

namespace TransportStream

abbrev Packet.size : Nat := 188

structure Packet where
  bytes : Bytes
  length_bytes : bytes.length = Packet.size
deriving DecidableEq

inductive PacketLayout
  | reserved
  | payloadOnly
  | adaptationOnly
  | adaptationAndPayload
deriving DecidableEq, Repr

namespace PacketLayout

def ofCode : Nat → PacketLayout
  | 0 => reserved
  | 1 => payloadOnly
  | 2 => adaptationOnly
  | _ => adaptationAndPayload

def toCode : PacketLayout → Nat
  | reserved => 0
  | payloadOnly => 1
  | adaptationOnly => 2
  | adaptationAndPayload => 3

def hasPayload : PacketLayout → Bool
  | reserved | adaptationOnly => false
  | payloadOnly | adaptationAndPayload => true

def describe : PacketLayout → String
  | reserved => "Reserved"
  | payloadOnly => "PayloadOnly"
  | adaptationOnly => "AdaptationFieldOnly"
  | adaptationAndPayload => "AdaptationFieldAndPayload"

theorem ofCode_toCode (l : PacketLayout) : ofCode l.toCode = l := by cases l <;> rfl

end PacketLayout

namespace Packet

def syncByte : UInt8 := 0x47

def headerSize : Nat := 4

def maxPayloadSize : Nat := size - headerSize

def ofBytes? (data : Bytes) : Except Fault (Option Packet) :=
  if h : data.length = size then
    if data.head? = some syncByte then .ok (some ⟨data, h⟩) else .ok none
  else .error .precondition

def ofBytes (data : Bytes) : Except Fault Packet := do
  match ← ofBytes? data with
  | some p => return p
  | none => .error .precondition

def byte (p : Packet) (i : Fin size) : UInt8 :=
  p.bytes.get ⟨i.val, by rw [p.length_bytes]; exact i.isLt⟩

def setByte (p : Packet) (i : Fin size) (b : UInt8) : Packet :=
  ⟨p.bytes.set i b, by rw [List.length_set, p.length_bytes]⟩

def overwrite (p : Packet) (i : Nat) (part : Bytes) : Except Fault Packet :=
  match h : TransportStream.overwrite p.bytes i part with
  | .ok bytes => .ok ⟨bytes, (length_of_overwrite h).trans p.length_bytes⟩
  | .error e => .error e

def overwritePayload (p : Packet) (i : Nat) (part : Bytes) : Except Fault Packet :=
  p.overwrite (headerSize + i) part

variable (p : Packet)

def unitStart : Bool := bit (p.byte 1) 6

def pid : Pid where
  val := bits (p.byte 1) 0 5 * 256 + (p.byte 2).toNat
  val_lt := by
    have h₁ := bits_lt (p.byte 1) 0 5; have h₂ := (p.byte 2).toNat_lt
    omega

def scrambling : Nat := bits (p.byte 3) 6 2

def isScrambled : Bool := p.scrambling != 0

def layout : PacketLayout := .ofCode (bits (p.byte 3) 4 2)

def counter : ContinuityCounter := ⟨bits (p.byte 3) 0 4, bits_lt _ _ _⟩

def adaptationLength : Nat := (p.byte 4).toNat

def setPid (pid : Pid) : Packet :=
  (p.setByte 1 (withBits (p.byte 1) 0 5 (pid.val / 256))).setByte 2 (UInt8.ofNat pid.val)

def setCounter (c : ContinuityCounter) : Packet :=
  p.setByte 3 (withBits (p.byte 3) 0 4 c.val)

def setUnitStart (start : Bool) : Packet :=
  p.setByte 1 (withBits (p.byte 1) 6 1 start.toNat)

def setLayout (l : PacketLayout) : Packet :=
  p.setByte 3 (withBits (p.byte 3) 4 2 l.toCode)

def describe : String :=
  s!"TsPacket \x7b pid: {p.pid.describe}, pusi: {p.unitStart}, cc: {p.counter.val}, " ++
    s!"adaptation_control: {p.layout.describe} \x7d"

theorem getElem?_bytes (i : Fin size) : p.bytes[i.val]? = some (p.byte i) := by
  have h : i.val < p.bytes.length := by rw [p.length_bytes]; exact i.isLt
  simp [byte, List.getElem?_eq_getElem h]

theorem byte_setByte (i j : Fin size) (b : UInt8) :
    (p.setByte i b).byte j = if j = i then b else p.byte j := by
  by_cases h : j = i
  · simp [byte, setByte, h]
  · have h' : i.val ≠ j.val := fun e ↦ h (Fin.ext e.symm)
    simp [byte, setByte, List.getElem_set_ne h', h]

theorem ofBytes?_eq_some_iff {data : Bytes} {p : Packet} :
    ofBytes? data = .ok (some p) ↔ p.bytes = data ∧ data.head? = some syncByte := by
  obtain ⟨bytes, hb⟩ := p
  unfold ofBytes?
  by_cases h : data.length = size
  · by_cases hs : data.head? = some syncByte
    · simp [h, hs, eq_comm]
    · simp [h, hs]
  · simp only [h, dite_false]
    exact ⟨nofun, fun ⟨e, _⟩ ↦ by subst e; exact absurd hb h⟩

end Packet

end TransportStream
