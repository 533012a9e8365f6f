import TransportStream.Bytes

namespace TransportStream.Checksum

def polynomial : BitVec 32 := 0x04C11DB7

def shift (r : BitVec 32) : BitVec 32 :=
  if r.msb then (r <<< 1) ^^^ polynomial else r <<< 1

def shifts : Nat → BitVec 32 → BitVec 32
  | 0, r => r
  | n + 1, r => shifts n (shift r)

def absorb (r : BitVec 32) (b : UInt8) : BitVec 32 :=
  shifts 8 (r ^^^ (b.toBitVec.setWidth 32 <<< 24))

def ofBytes (data : Bytes) : BitVec 32 :=
  data.foldl absorb (BitVec.allOnes 32)

theorem ofBytes_append (data more : Bytes) :
    ofBytes (data ++ more) = more.foldl absorb (ofBytes data) := by
  simp [ofBytes]

end TransportStream.Checksum
