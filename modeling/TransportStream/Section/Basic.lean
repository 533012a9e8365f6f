import TransportStream.Pid
import TransportStream.Section.Checksum
import TransportStream.Section.Defect
import TransportStream.Section.Header

namespace TransportStream

inductive ChecksumRule
  | check
  | ignore
deriving DecidableEq, Repr

def ChecksumRule.describe : ChecksumRule → String
  | check => "Check"
  | ignore => "Ignore"

namespace Section

def longHeaderSize : Nat := CommonHeader.size + TableHeader.size

def checksumSize : Nat := 4

def minLongSize : Nat := longHeaderSize + checksumSize

def storedChecksum (data : Bytes) : BitVec 32 :=
  BitVec.ofNat 32 (Bytes.toNat (data.drop (data.length - checksumSize)))

def computedChecksum (data : Bytes) : BitVec 32 :=
  Checksum.ofBytes (data.take (data.length - checksumSize))

def checksumDefect (rule : ChecksumRule) (data : Bytes) : Option Defect :=
  if rule = .check ∧ storedChecksum data ≠ computedChecksum data then
    some (.wrongChecksum (storedChecksum data) (computedChecksum data))
  else none

/-- The first thing that is wrong with the data as a section: its size, then its numbers, then its
checksum. -/
def diagnose (rule : ChecksumRule) (data : Bytes) : Option Defect :=
  let header := CommonHeader.read data
  let second := TableHeader.read (data.drop CommonHeader.size)
  if data.length < CommonHeader.size then some (.tooShort data.length CommonHeader.size)
  else if maxSize < header.totalSize then some (.tooLong header.totalSize)
  else if header.totalSize ≠ data.length then
    some (.lengthMismatch header.totalSize data.length)
  else if !header.isLong then none
  else if data.length < minLongSize then some (.tooShort data.length minLongSize)
  else if second.last < second.number then some (.numberAboveLast second.number second.last)
  else checksumDefect rule data

end Section

structure Section where
  bytes : Bytes
  pid : Pid
  defect : Option Section.Defect
  diagnosed : ∃ rule, defect = Section.diagnose rule bytes
deriving DecidableEq

/-- What a table is known by in its substream: short sections go by their table id alone, and come
before the long ones. -/
structure TableKey where
  tableId : UInt8
  extension : Option UInt16
deriving DecidableEq, Ord, Repr

def TableKey.describe (k : TableKey) : String :=
  s!"Etid \x7b table_id: {k.tableId}, table_id_extension: {Text.option toString k.extension} \x7d"

namespace Section

def ofBytes (rule : ChecksumRule) (data : Bytes) (pid : Pid) : Section where
  bytes := data
  pid := pid
  defect := diagnose rule data
  diagnosed := ⟨rule, rfl⟩

variable (s : Section)

def isValid : Bool := s.defect.isNone

def size : Nat := s.bytes.length

def header : CommonHeader := CommonHeader.read s.bytes

def tableId : UInt8 := s.header.tableId

def isLong : Bool := s.header.isLong

def isShort : Bool := !s.isLong

def isPrivate : Bool := s.header.isPrivate

def tableHeader? : Option TableHeader :=
  if s.isLong ∧ longHeaderSize ≤ s.size then
    some (TableHeader.read (s.bytes.drop CommonHeader.size))
  else none

def extension : Option UInt16 := s.tableHeader?.map (·.extension)

def version : Nat := s.tableHeader?.elim 0 (·.version)

def applicability : Applicability := s.tableHeader?.elim .current (·.applicability)

def isCurrent : Bool := s.applicability == .current

def isNext : Bool := s.applicability == .next

def number : UInt8 := s.tableHeader?.elim 0 (·.number)

def last : UInt8 := s.tableHeader?.elim 0 (·.last)

def key : TableKey := ⟨s.tableId, s.extension⟩

def payload : Bytes :=
  if !s.isLong then s.bytes.drop CommonHeader.size
  else if s.size < minLongSize then []
  else (s.bytes.take (s.size - checksumSize)).drop longHeaderSize

def checksum? : Option (BitVec 32) :=
  if s.isLong ∧ minLongSize ≤ s.size then some (storedChecksum s.bytes) else none

def sameContent (t : Section) : Bool := s.bytes == t.bytes

def describeTableHeader : String :=
  s!"table_id_extension: {Text.option toString s.extension}, version: {s.version}, " ++
    s!"current_next: {s.applicability.describe}, section_number: {s.number}, " ++
    s!"last_section_number: {s.last}, "

def describeValidity : String :=
  match s.defect with
  | none => "Ok(())"
  | some d => s!"Err({d.describe})"

def describe : String :=
  s!"Section \x7b source_pid: {s.pid.describe}, table_id: {s.tableId}, size: {s.size}, " ++
    (if s.isLong then s.describeTableHeader else "") ++
    s!"validity: {s.describeValidity} \x7d"

end Section

end TransportStream
