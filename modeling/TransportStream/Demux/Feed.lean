import TransportStream.Demux.Basic

namespace TransportStream.Demux

variable {σ : Type} (d : Demux σ)

def count (problems : List Problem) : Except Fault (Demux σ) :=
  return d.withStatus (← d.status.countAll problems)

/-- Calls a handler and takes note of what it asks for. A panic goes no further. -/
def call {α : Type} (pid : Pid) (handle : Handler σ α) (item : α) (record : Call) :
    Traced (Demux σ × List Call) := do
  let response := handle d.handlerState d.view item
  if response.panicked then Traced.note (.handlerPanicked record.kind pid)
  return ({ d with
    handlerState := response.state
    view := { d.view with requests := d.view.requests ++ response.requests } }, [record])

def handleInvalid (data : InvalidData) : Traced (Demux σ × List Call) := do
  Traced.note (.sectionDropped data.pid data.defect)
  let d ← d.count [.ofDefect data.defect]
  match d.invalidHandler with
  | none => return (d, [])
  | some handle => d.call data.pid handle data (.invalid data)

def handleShort (pid : Pid) (handle : Handler σ Table) (s : Section) :
    Traced (Demux σ × List Call) := do
  match ← Table.ofSection s with
  | .ok table => d.call pid handle table (.table table)
  | .error rejection =>
    Traced.note (.shortSectionRejected pid rejection)
    return (d, [])

def handleLong (pid : Pid) (handle : Handler σ Table) (s : Section) :
    Traced (Demux σ × List Call) :=
  match d.substreams.get? pid with
  | none => return (d, [])
  | some sub => do
    let assembly := (sub.tables.get? s.key).getD {}
    let (assembly, problems, complete) ← assembly.receive pid d.options.watchVersions s
    let sub := { sub with tables := sub.tables.insert s.key assembly }
    let d := { (← d.count problems) with substreams := d.substreams.insert pid sub }
    match complete with
    | none => return (d, [])
    | some table => d.call pid handle table (.table table)

def deliver (pid : Pid) (s : Section) : Traced (Demux σ × List Call) :=
  match d.delivery with
  | none => return (d, [])
  | some (.sections handle) => d.call pid handle s (.sect s)
  | some (.tables handle) =>
    if s.isShort then d.handleShort pid handle s else d.handleLong pid handle s

def handleValid (pid : Pid) (s : Section) : Traced (Demux σ × List Call) := do
  if d.options.selects s then d.deliver pid s
  else if s.isNext then return (← d.count [.notYetCurrent], [])
  else return (d, [])

def handleItem (pid : Pid) : Staged → Traced (Demux σ × List Call)
  | .malformed data defect => d.handleInvalid { pid, data, defect }
  | .sect s =>
    match s.defect with
    | none => d.handleValid pid s
    | some defect => d.handleInvalid { pid, data := s.bytes, defect }

def handleItems (d : Demux σ) (pid : Pid) : List Staged → Traced (Demux σ × List Call)
  | [] => return (d, [])
  | item :: rest => do
    let (d, calls) ← d.handleItem pid item
    let (d, more) ← d.handleItems pid rest
    return (d, calls ++ more)

def dispatch (pid : Pid) : Traced (Demux σ × List Call) := do
  let (drained, calls) ← { d with staged := [] }.handleItems pid d.staged
  return ({ drained with staged := [] }, calls)

/-- Puts the requests of the handlers into effect. A substream that was taken out of the filter is
forgotten, even if it was put back. -/
def settle : Demux σ :=
  { d with
    view := d.view.settle
    substreams := d.substreams.filterKeys fun pid ↦
      !d.view.requests.any (FilterChange.removes pid) }

def stage (p : Packet) : Traced (Demux σ) := do
  let sub := (d.substreams.get? p.pid).getD { reassembly := { pid := p.pid } }
  let (reassembly, found) ← sub.reassembly.feed d.options.checksums p
  let d := { d with
    substreams := d.substreams.insert p.pid { sub with reassembly }
    staged := d.staged ++ found.pieces }
  d.count found.problems

def process (p : Packet) : Traced (Demux σ × List Call) := do
  let (d, calls) ← (← d.stage p).dispatch p.pid
  return (d.settle, calls)

def feed (p : Packet) : Traced (Demux σ × List Call) := do
  let d := { d with packetCount := ← fit wordLimit (d.packetCount + 1) }
  if d.hasPid p.pid then d.process p else return (d, [])

def feedAll (d : Demux σ) : List Packet → Traced (Demux σ × List Call)
  | [] => return (d, [])
  | p :: rest => do
    let (d, calls) ← d.feed p
    let (d, more) ← d.feedAll rest
    return (d, calls ++ more)

def pushBlock (block : Bytes) : Traced (Demux σ × List Call) := do
  match ← Packet.ofBytes? block with
  | some p => d.feed p
  | none =>
    Traced.note (.noSyncByte (← itemAt block 0))
    return (← d.count [.invalidPacket], [])

/-- Takes data made of packets; what follows the last whole one is ignored. -/
def push (d : Demux σ) (data : Bytes) : Traced (Demux σ × List Call) :=
  if _h : Packet.size ≤ data.length then do
    let (d, calls) ← d.pushBlock (data.take Packet.size)
    let (d, more) ← d.push (data.drop Packet.size)
    return (d, calls ++ more)
  else do
    if data ≠ [] then Traced.note (.partialPacket data.length)
    return (d, [])
termination_by data.length
decreasing_by simp only [List.length_drop, Packet.size] at *; omega

end TransportStream.Demux
