import TransportStream.Demux.Feed
import TransportStream.Ring.Session

namespace TransportStream

inductive Feeder
  | reading (left : Bytes)
  | offering (position : Nat) (data : Bytes)
  | filling (position : Nat) (data : Bytes)
  | closing
  | done
deriving DecidableEq

/-- Goes on with data at a position: offers whole blocks, and reads on when there is none. -/
def Feeder.next (position : Nat) (data : Bytes) : Feeder :=
  if Packet.size ≤ data.length then .offering position data else .reading data

inductive Turn
  /-- The feeder; should it read, it gets at most so many bytes. -/
  | feeder (most : Nat)
  | printer
deriving DecidableEq

/-- A listing under way. The state of the handlers is the lines printed so far. -/
structure TableListing where
  file : Bytes
  feeder : Feeder := .reading []
  session : RingSession := { ring := .standard }
  demux : Demux (List String)
  bitrate : Nat := 0
  finished : Bool := false

namespace TableListing

def programs : Bytes → List (Nat × Pid)
  | b₀ :: b₁ :: b₂ :: b₃ :: rest =>
    (b₀.toNat * 256 + b₁.toNat, ⟨bits b₂ 0 5 * 256 + b₃.toNat, by
      have h₂ := bits_lt b₂ 0 5; have h₃ := b₃.toNat_lt
      omega⟩) :: programs rest
  | _ => []

/-- The lines about programs whose map is not in the filter yet, and the requests for it to be. -/
def announce (v : DemuxView) : List (Nat × Pid) → List String × List FilterChange
  | [] => ([], [])
  | (program, pid) :: rest =>
    if program ≠ 0 ∧ !v.hasPid pid then
      let (lines, changes) := announce (v.request (.add pid)) rest
      (s!"  program {program} has its PMT on {pid.describe}" :: lines, .add pid :: changes)
    else announce v rest

def headline (t : Table) : String :=
  s!"{Text.option Pid.describe t.pid?} table_id={Text.markedHex 2 t.tableId.toNat} " ++
    s!"ext={Text.option toString t.extension} version={t.version} sections={t.present} " ++
    s!"size={t.totalSize}"

def printTable : Handler (List String) Table := fun lines v t ↦
  if t.tableId = 0 then
    let (more, changes) := announce v (t.sections.flatMap fun s ↦ programs s.payload)
    { state := lines ++ headline t :: more, requests := changes }
  else { state := lines ++ [headline t] }

def printInvalid : Handler (List String) InvalidData := fun lines _ d ↦
  { state := lines ++
      [s!"{d.pid.describe}: invalid section of {d.data.length} bytes: {d.defect.message}"] }

def demultiplexer : Demux (List String) :=
  { handlerState := [], delivery := some (.tables printTable), invalidHandler := some printInvalid
    : Demux (List String) }.addPid .pat

def start (file : Bytes) : TableListing where
  file := file
  demux := demultiplexer

def bufferSize : Nat := Packet.size * 1024

/-- Takes blocks from the data for `room` packets; those without sync byte are skipped. -/
def takeBlocks (room position : Nat) (data : Bytes) : Traced (List Packet × Nat × Bytes) :=
  if _h : 0 < room ∧ Packet.size ≤ data.length then do
    match ← Packet.ofBytes? (← slice data 0 Packet.size) with
    | some p =>
      let (packets, rest) ←
        takeBlocks (room - 1) (position + Packet.size) (data.drop Packet.size)
      return (p :: packets, rest)
    | none =>
      Traced.note (.blockSkipped position)
      takeBlocks room (position + Packet.size) (data.drop Packet.size)
  else return ([], position, data)
termination_by data.length
decreasing_by all_goals simp only [List.length_drop, Packet.size] at *; omega

variable (l : TableListing)

def readFile (left : Bytes) (most : Nat) : TableListing :=
  let n := min (max most 1) (bufferSize - left.length)
  if l.file = [] then { l with feeder := .closing }
  else { l with
    file := l.file.drop n
    feeder := .next 0 (left ++ l.file.take n) }

def fillWindow (w : PacketWindow) (position : Nat) (data : Bytes) : Traced TableListing := do
  if w.packets = [] then
    let (session, _) ← l.session.publish 0
    return { l with session, feeder := .closing }
  else
    let (packets, position, rest) ← takeBlocks w.packets.length position data
    let (session, _) ← (← l.session.write 0 packets).publish packets.length
    return { l with session, feeder := .next position rest }

def moveFeeder (most : Nat) : Traced TableListing :=
  match l.feeder with
  | .reading left => return l.readFile left most
  | .offering position data => do
    return { l with session := ← l.session.acquire 1, feeder := .filling position data }
  | .filling position data =>
    match l.session.writer with
    | .writing w => l.fillWindow w position data
    | .idle | .waiting .. => return { l with session := l.session.wakeWriter }
  | .closing => return { l with session := l.session.finish, feeder := .done }
  | .done => return l

def batchSize : Nat := 256

def takeBatch (batch : Batch) : Traced TableListing := do
  if batch.packets = [] then return { l with finished := true }
  else
    let (demux, _) ← l.demux.feedAll batch.packets
    return { l with demux, bitrate := batch.bitrate }

def movePrinter : Traced TableListing := do
  if l.finished then return l
  else
    let (session, batch) ←
      match l.session.reader with
      | .idle => l.session.tryRead batchSize
      | .waiting .. => l.session.wakeReader
    let l := { l with session }
    match batch with
    | none => return l
    | some batch => l.takeBatch batch

def move : Turn → Traced TableListing
  | .feeder most => l.moveFeeder most
  | .printer => l.movePrinter

def follow (l : TableListing) (schedule : List Turn) : Traced TableListing :=
  schedule.foldlM move l

def output : List String :=
  l.demux.handlerState ++
    [s!"{l.demux.packetCount} packets, bitrate {l.bitrate} b/s", l.demux.status.summary]

def alternate : Nat → TableListing → Traced TableListing
  | 0, l => return l
  | rounds + 1, l => do
    if l.finished then return l
    else alternate rounds (← (← l.moveFeeder bufferSize).movePrinter)

/-- The lines that are printed about a file. Both sides move in turn, often enough to come to the
end. -/
def lines (file : Bytes) : Traced (List String) := do
  return (← alternate (4 * file.length + 16) (start file)).output

end TableListing

end TransportStream
