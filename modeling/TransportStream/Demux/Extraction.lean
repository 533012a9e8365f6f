import TransportStream.Section.Basic
import TransportStream.Traced

namespace TransportStream

/-- What splitting takes off data: a section by its length, which may be invalid all the same, or
all that is left of the data, with what is wrong with the header in front. -/
inductive Staged
  | sect (s : Section)
  | malformed (data : Bytes) (defect : Section.Defect)
deriving DecidableEq

structure Extraction (α : Type) where
  pieces : List α := []
  pending : Bytes := []
  stuffing : Bytes := []
deriving DecidableEq

namespace Extraction

def stuffingMark : UInt8 := 0xff

/-- Splits data of a substream into sections, which follow each other without gaps. A section that
declares more bytes than a section may have takes the rest of the data. -/
def ofBytes (rule : ChecksumRule) (pid : Pid) (data : Bytes) : Traced (Extraction Staged) :=
  if _hd : data = [] then return {}
  else do
    if (← itemAt data 0) = stuffingMark then return { stuffing := data }
    else if data.length < CommonHeader.size then return { pending := data }
    else
      let header ← CommonHeader.ofBytes (← slice data 0 CommonHeader.size)
      if Section.maxSize < header.totalSize then do
        Traced.note (.sectionTooLong pid header.length)
        return { pieces := [.malformed data (.tooLong header.totalSize)] }
      else if data.length < header.totalSize then return { pending := data }
      else
        let piece ← slice data 0 header.totalSize
        let rest ← ofBytes rule pid (data.drop header.totalSize)
        return { rest with pieces := .sect (.ofBytes rule piece pid) :: rest.pieces }
termination_by data.length
decreasing_by
  have := List.length_pos_iff.2 _hd
  simp only [CommonHeader.totalSize, CommonHeader.size, List.length_drop]
  omega

end Extraction

end TransportStream
