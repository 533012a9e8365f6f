import TransportStream.Demux.Handler
import TransportStream.Demux.Options
import TransportStream.Demux.Reassembly
import TransportStream.Demux.TableAssembly
import TransportStream.FiniteMap

namespace TransportStream

structure Substream where
  reassembly : Reassembly
  tables : FiniteMap TableKey TableAssembly := .empty

structure Demux (σ : Type) where
  options : DemuxOptions := {}
  view : DemuxView := {}
  /-- The substreams in the filter that have had a packet. -/
  substreams : FiniteMap Pid Substream := .empty
  /-- What the packet under way has brought and still waits for the handlers. -/
  staged : List Staged := []
  delivery : Option (Delivery σ) := none
  invalidHandler : Option (Handler σ InvalidData) := none
  handlerState : σ
  packetCount : Nat := 0

namespace Demux

variable {σ : Type} (d : Demux σ)

def status : Status := d.view.status

def filter : PidSet := d.view.filter

def withStatus (status : Status) : Demux σ :=
  { d with view := { d.view with status } }

def withFilter (filter : PidSet) : Demux σ :=
  { d with view := { d.view with filter } }

def hasPid (pid : Pid) : Bool := d.filter.contains pid

def addPid (pid : Pid) : Demux σ := d.withFilter (d.filter.insert pid)

def addPids (pids : List Pid) : Demux σ := pids.foldl addPid d

def removePid (pid : Pid) : Demux σ :=
  { d.withFilter (d.filter.erase pid) with substreams := d.substreams.erase pid }

def setFilter (filter : PidSet) : Demux σ :=
  { d.withFilter filter with substreams := d.substreams.filterKeys filter.contains }

def reset : Demux σ := { d with substreams := .empty }

def resetPid (pid : Pid) : Demux σ := { d with substreams := d.substreams.erase pid }

def resetStatus : Demux σ := d.withStatus {}

def setOptions (options : DemuxOptions) : Demux σ := { d with options }

def setDelivery (delivery : Option (Delivery σ)) : Demux σ := { d with delivery }

def setInvalidHandler (handle : Option (Handler σ InvalidData)) : Demux σ :=
  { d with invalidHandler := handle }

def describe : String :=
  let delivery :=
    match d.delivery with
    | none => "None"
    | some (.tables _) => "Some(Delivery::Tables)"
    | some (.sections _) => "Some(Delivery::Sections)"
  s!"SectionDemux \x7b options: {d.options.describe}, status: {d.status.describe}, " ++
    s!"pids: {d.filter.size}, delivery: {delivery}, packet_count: {d.packetCount} \x7d"

end Demux

end TransportStream
