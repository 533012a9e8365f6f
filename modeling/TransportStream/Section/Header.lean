import TransportStream.Bytes

namespace TransportStream

inductive Applicability
  | current
  | next
deriving DecidableEq, Repr

namespace Applicability

def ofBool (current : Bool) : Applicability :=
  if current then .current else .next

def isCurrent (a : Applicability) : Bool :=
  a == .current

def describe : Applicability → String
  | current => "Current"
  | next => "Next"

end Applicability

structure CommonHeader where
  tableId : UInt8
  isLong : Bool
  isPrivate : Bool
  /-- The number of bytes after the header. -/
  length : Nat
deriving DecidableEq, Repr

namespace CommonHeader

def size : Nat := 3

def read (data : Bytes) : CommonHeader where
  tableId := data.getD 0 0
  isLong := bit (data.getD 1 0) 7
  isPrivate := bit (data.getD 1 0) 6
  length := bits (data.getD 1 0) 0 4 * 256 + (data.getD 2 0).toNat

def ofBytes (data : Bytes) : Except Fault CommonHeader :=
  if data.length = size then .ok (read data) else .error .precondition

def totalSize (h : CommonHeader) : Nat :=
  size + h.length

def toBytes (h : CommonHeader) : Bytes :=
  [h.tableId,
    UInt8.ofNat (h.isLong.toNat * 0x80 + h.isPrivate.toNat * 0x40 + 0x30
      + h.length / 256 % 16),
    UInt8.ofNat h.length]

theorem ofBytes_eq_ok_iff {data : Bytes} {h : CommonHeader} :
    ofBytes data = .ok h ↔ data.length = size ∧ read data = h := by
  by_cases hs : data.length = size <;> simp [ofBytes, hs]

end CommonHeader

structure TableHeader where
  extension : UInt16
  version : Nat
  applicability : Applicability
  number : UInt8
  last : UInt8
deriving DecidableEq, Repr

namespace TableHeader

def size : Nat := 5

def read (data : Bytes) : TableHeader where
  extension := UInt16.ofNat ((data.getD 0 0).toNat * 256 + (data.getD 1 0).toNat)
  version := bits (data.getD 2 0) 1 5
  applicability := .ofBool (bit (data.getD 2 0) 0)
  number := data.getD 3 0
  last := data.getD 4 0

def ofBytes (data : Bytes) : Except Fault TableHeader :=
  if size ≤ data.length then .ok (read data) else .error .precondition

def toBytes (h : TableHeader) : Bytes :=
  [UInt8.ofNat (h.extension.toNat / 256), UInt8.ofNat h.extension.toNat,
    UInt8.ofNat (0xc0 + h.version % 32 * 2 + h.applicability.isCurrent.toNat), h.number, h.last]

theorem ofBytes_eq_ok_iff {data : Bytes} {h : TableHeader} :
    ofBytes data = .ok h ↔ size ≤ data.length ∧ read data = h := by
  by_cases hs : size ≤ data.length <;> simp [ofBytes, hs]

theorem version_read_lt (data : Bytes) : (read data).version < 32 :=
  bits_lt _ 1 5

end TableHeader

end TransportStream
