import TransportStream.Bitrate
import TransportStream.Packet.Build

namespace TransportStream

structure PacketWindow where
  packets : List Packet
  generation : Nat
deriving DecidableEq

structure PacketRing where
  slots : List Packet
  readIndex : Nat := 0
  writeIndex : Nat := 0
  count : Nat := 0
  ended : Bool := false
  stopped : Bool := false
  declaredBitrate : Nat := 0
  estimator : BitrateEstimator := .standard
  /-- Whether the writer has a window, or waits for one. -/
  windowTaken : Bool := false
  generation : Nat := 0

structure Signals where
  reader : Bool := false
  writer : Bool := false
deriving DecidableEq, Repr

structure Batch where
  packets : List Packet
  bitrate : Nat
deriving DecidableEq

namespace PacketRing

def maxCapacity : Nat := maxMemory / Packet.size

def allocate (capacity : Nat) : Except Fault (List Packet) := do
  require (0 < capacity) .noCapacity
  require (capacity ≤ maxCapacity) .overflow
  return List.replicate capacity .null

def create (capacity : Nat) : Except Fault PacketRing :=
  return { slots := ← allocate capacity }

def standardCapacity : Nat := 1000

def standard : PacketRing where
  slots := List.replicate standardCapacity .null

variable (r : PacketRing)

def capacity : Nat := r.slots.length

def contents : List Packet :=
  (r.slots.drop r.readIndex ++ r.slots.take r.readIndex).take r.count

/-- The number of free slots from the write index on, up to the end of the slots. -/
def freeRun : Nat :=
  if r.count = r.capacity then 0
  else if r.writeIndex < r.readIndex then r.readIndex - r.writeIndex
  else r.capacity - r.writeIndex

/-- The bitrate that the writer declares, or else the estimate. -/
def bitrate : Nat :=
  if r.declaredBitrate ≠ 0 then r.declaredBitrate else r.estimator.bitrate

/-- Empties the ring and gives it so many slots; a window from before is never published. -/
def reset (capacity : Nat) : Except Fault (PacketRing × Signals) := do
  let slots ← allocate capacity
  let generation ← fit wordLimit (r.generation + 1)
  return ({ slots, estimator := r.estimator.reset, windowTaken := r.windowTaken, generation },
    { writer := true })

def claim : Except Fault PacketRing := do
  require (r.windowTaken = false) .windowTaken
  return { r with windowTaken := true }

/-- The number of free slots that a writer waits for: what it asks for, at least one, and no more
than there are before the end of the slots. -/
def wanted (minimum : Nat) : Nat :=
  min (max minimum 1) (r.capacity - r.writeIndex)

def canOpen (minimum : Nat) : Bool :=
  r.stopped || decide (r.wanted minimum ≤ r.freeRun)

def window : PacketWindow where
  packets := List.replicate (if r.stopped then 0 else r.freeRun) .null
  generation := r.generation

/-- Publishes the first `n` packets of a window, as far as there are so many, and gives up the right
to write. A window from before a reset, or of a stopped ring, is thrown away. -/
def publish (w : PacketWindow) (n : Nat) : Traced (PacketRing × Nat × Signals) := do
  let freed := { r with windowTaken := false }
  if w.generation = r.generation ∧ !r.stopped then do
    let published := w.packets.take (min n r.freeRun)
    let slots ← overwrite r.slots r.writeIndex published
    let estimator ←
      if r.declaredBitrate = 0 then r.estimator.feedAll published else pure r.estimator
    return ({ freed with
        slots
        estimator
        writeIndex := (r.writeIndex + published.length) % r.capacity
        count := r.count + published.length },
      published.length, { reader := !published.isEmpty })
  else
    if 0 < n then Traced.note (.windowDiscarded n)
    return (freed, 0, {})

def declareBitrate (bitrate : Nat) : PacketRing :=
  { r with declaredBitrate := bitrate }

def finish : PacketRing × Signals :=
  ({ r with ended := true }, { reader := true })

def take : Except Fault (PacketRing × Option (Packet × Nat) × Signals) := do
  if r.count = 0 then return (r, none, {})
  else
    let p ← itemAt r.slots r.readIndex
    let r := { r with readIndex := (r.readIndex + 1) % r.capacity, count := r.count - 1 }
    return (r, some (p, r.bitrate), { writer := true })

def canRead (room : Nat) : Bool :=
  room == 0 || r.count != 0 || r.ended || r.stopped

/-- Copies `n` packets from the slot `start` on, in runs that end with the slots; gives the runs and
the slot after them. The first argument bounds the number of runs. -/
def copyRuns : Nat → Nat → Nat → Except Fault (List (List Packet) × Nat)
  | _, 0, start => .ok ([], start)
  | 0, _ + 1, _ => .error .outOfRange
  | bound + 1, n + 1, start => do
    let size := min (n + 1) (r.capacity - start)
    let run ← slice r.slots start (start + size)
    let (more, stop) ← copyRuns bound (n + 1 - size) ((start + size) % r.capacity)
    return (run :: more, stop)

/-- Takes as many packets as there are, up to `room`; none from a stopped ring. -/
def takeMany (room : Nat) : Except Fault (PacketRing × Batch × Signals) := do
  if room = 0 ∨ r.stopped then return (r, ⟨[], r.bitrate⟩, {})
  else
    let n := min r.count room
    let (runs, stop) ← r.copyRuns n n r.readIndex
    return ({ r with readIndex := stop, count := r.count - n }, ⟨runs.flatten, r.bitrate⟩,
      { writer := decide (0 < n) })

def placeRuns (buffer : List Packet) (i : Nat) : List (List Packet) → Except Fault (List Packet)
  | [] => return buffer
  | run :: rest => do placeRuns (← overwrite buffer i run) (i + run.length) rest

def takeInto (buffer : List Packet) :
    Except Fault (PacketRing × List Packet × (Nat × Nat) × Signals) := do
  if buffer.isEmpty ∨ r.stopped then return (r, buffer, (0, r.bitrate), {})
  else
    let n := min r.count buffer.length
    let (runs, stop) ← r.copyRuns n n r.readIndex
    let buffer ← placeRuns buffer 0 runs
    let r := { r with readIndex := stop, count := r.count - n }
    return (r, buffer, (n, r.bitrate), { writer := decide (0 < n) })

def stop : PacketRing × Signals :=
  ({ r with stopped := true }, { reader := true, writer := true })

end PacketRing

end TransportStream
