import TransportStream.Text

namespace TransportStream.Section

def maxSize : Nat := 4096

inductive Defect
  | tooShort (actual minimum : Nat)
  | lengthMismatch (declared actual : Nat)
  | tooLong (declared : Nat)
  | numberAboveLast (number last : UInt8)
  | wrongChecksum (stored computed : BitVec 32)
deriving DecidableEq, Repr

namespace Defect

def message : Defect → String
  | tooShort actual minimum => s!"section too short ({actual} bytes, at least {minimum} required)"
  | lengthMismatch declared actual =>
    s!"invalid section length (header declares {declared} bytes, got {actual})"
  | tooLong declared => s!"invalid section length ({declared} bytes, maximum is {maxSize})"
  | numberAboveLast number last =>
    s!"invalid section number {number} (last section number is {last})"
  | wrongChecksum stored computed =>
    s!"invalid CRC32 (stored {Text.markedHex 8 stored.toNat}, " ++
      s!"computed {Text.markedHex 8 computed.toNat})"

def describe : Defect → String
  | tooShort actual minimum => s!"TooShort \x7b actual: {actual}, minimum: {minimum} \x7d"
  | lengthMismatch declared actual =>
    s!"LengthMismatch \x7b declared: {declared}, actual: {actual} \x7d"
  | tooLong declared => s!"TooLong \x7b declared: {declared} \x7d"
  | numberAboveLast number last =>
    s!"InvalidSectionNumber \x7b section_number: {number}, last_section_number: {last} \x7d"
  | wrongChecksum stored computed =>
    s!"InvalidCrc \x7b stored: {stored.toNat}, computed: {computed.toNat} \x7d"

end Defect

end TransportStream.Section
