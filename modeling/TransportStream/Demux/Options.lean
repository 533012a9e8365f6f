import TransportStream.Section.Basic

namespace TransportStream

structure DemuxOptions where
  checksums : ChecksumRule := .check
  current : Bool := true
  next : Bool := false
  watchVersions : Bool := false
deriving DecidableEq, Repr

namespace DemuxOptions

instance : Inhabited DemuxOptions := ⟨{}⟩

/-- Whether a valid section is let through. Short sections always are. -/
def selects (o : DemuxOptions) (s : Section) : Bool :=
  s.isShort || if s.isNext then o.next else o.current

def describe (o : DemuxOptions) : String :=
  s!"DemuxOptions \x7b crc_validation: {o.checksums.describe}, current: {o.current}, " ++
    s!"next: {o.next}, track_invalid_version: {o.watchVersions} \x7d"

end DemuxOptions

end TransportStream
