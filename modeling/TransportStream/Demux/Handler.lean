import TransportStream.Demux.Filter
import TransportStream.Notice

namespace TransportStream

structure Response (σ : Type) where
  state : σ
  requests : List FilterChange := []
  /-- Whether the call ended in a panic. Its requests up to then stand. -/
  panicked : Bool := false

abbrev Handler (σ α : Type) := σ → DemuxView → α → Response σ

structure InvalidData where
  pid : Pid
  data : Bytes
  defect : Section.Defect
deriving DecidableEq

inductive Delivery (σ : Type)
  | tables (handle : Handler σ Table)
  | sections (handle : Handler σ Section)

inductive Call
  | table (t : Table)
  | sect (s : Section)
  | invalid (d : InvalidData)
deriving DecidableEq

def Call.kind : Call → HandlerKind
  | table _ => .table
  | sect _ => .sect
  | invalid _ => .invalid

end TransportStream
