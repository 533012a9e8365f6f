import TransportStream.Section.Basic

namespace TransportStream.Section

structure LongHeader where
  tableId : UInt8
  isPrivate : Bool
  extension : UInt16
  version : Nat
  applicability : Applicability
  number : UInt8
  last : UInt8
deriving DecidableEq, Repr

namespace LongHeader

variable (h : LongHeader) (payload : Bytes)

def content : Bytes :=
  CommonHeader.toBytes ⟨h.tableId, true, h.isPrivate,
      TableHeader.size + payload.length + checksumSize⟩
    ++ TableHeader.toBytes ⟨h.extension, h.version, h.applicability, h.number, h.last⟩ ++ payload

def encode : Bytes :=
  h.content payload ++ Bytes.ofNat checksumSize (Checksum.ofBytes (h.content payload)).toNat

end LongHeader

def encodeShort (tableId : UInt8) (isPrivate : Bool) (payload : Bytes) : Bytes :=
  CommonHeader.toBytes ⟨tableId, false, isPrivate, payload.length⟩ ++ payload

/-- The long section of a header and a payload. The version must have 5 bits, the number must not be
above the last one, and the payload must leave room for the rest of the section. -/
def makeLong (h : LongHeader) (payload : Bytes) (pid : Pid) : Except Fault Section := do
  require (h.version < 32) (.wideVersion h.version)
  require (h.number ≤ h.last)
  require (minLongSize + payload.length ≤ maxSize)
    (.oversizedSection (minLongSize + payload.length))
  return .ofBytes .check (h.encode payload) pid

def makeShort (tableId : UInt8) (isPrivate : Bool) (payload : Bytes) (pid : Pid) :
    Except Fault Section := do
  require (CommonHeader.size + payload.length ≤ maxSize)
    (.oversizedSection (CommonHeader.size + payload.length))
  return .ofBytes .check (encodeShort tableId isPrivate payload) pid

end TransportStream.Section
