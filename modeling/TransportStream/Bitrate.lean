import TransportStream.FiniteMap
import TransportStream.Packet.Content

namespace TransportStream

structure ClockMark where
  ticks : Nat
  index : Nat
deriving DecidableEq, Repr

structure ClockInterval where
  packets : Nat
  ticks : Nat
deriving DecidableEq, Repr

structure BitrateEstimator where
  window : Nat
  /-- The number of intervals from which on there is an estimate. -/
  needed : Nat
  packetCount : Nat := 0
  marks : FiniteMap Pid ClockMark := .empty
  intervals : List ClockInterval := []
  totalPackets : Nat := 0
  totalTicks : Nat := 0

namespace BitrateEstimator

def maxTicks : Nat := ClockReference.frequency

def maxWindow : Nat := maxMemory / 16

def create (window needed : Nat) : Except Fault BitrateEstimator := do
  require (0 < window)
  require (needed ≤ window)
  require (window ≤ maxWindow) .overflow
  return { window, needed := max needed 1 }

def standard : BitrateEstimator where
  window := 256
  needed := 16

instance : Inhabited BitrateEstimator := ⟨standard⟩

variable (e : BitrateEstimator)

def evict : Except Fault BitrateEstimator :=
  match e.intervals with
  | [] => return e
  | oldest :: rest =>
    if e.intervals.length = e.window then return { e with
      intervals := rest
      totalPackets := ← minus e.totalPackets oldest.packets
      totalTicks := ← minus e.totalTicks oldest.ticks }
    else return e

def addInterval (i : ClockInterval) : Traced BitrateEstimator := do
  let e ← e.evict
  Traced.note (.intervalMeasured i.packets i.ticks)
  return { e with
    intervals := e.intervals ++ [i]
    totalPackets := ← fit wordLimit (e.totalPackets + i.packets)
    totalTicks := ← fit wordLimit (e.totalTicks + i.ticks) }

/-- The ticks from one reading of the clock to a later one, past zero if need be. -/
def elapsed (earlier later : Nat) : Except Fault Nat :=
  if earlier ≤ later then .ok (later - earlier) else minus (later + ClockReference.wrap) earlier

def observe (pid : Pid) (mark : ClockMark) : Traced BitrateEstimator := do
  let marked := { e with marks := e.marks.insert pid mark }
  match e.marks.get? pid with
  | none => return marked
  | some previous =>
    let ticks ← elapsed previous.ticks mark.ticks
    if ticks = 0 ∨ maxTicks < ticks then do
      Traced.note (.intervalIgnored pid ticks)
      return marked
    else marked.addInterval ⟨← minus mark.index previous.index, ticks⟩

def forget (pid : Pid) : BitrateEstimator :=
  { e with marks := e.marks.erase pid }

/-- Takes the next packet of the stream. A break that it announces parts its reading from the one
before. -/
def feed (p : Packet) : Traced BitrateEstimator := do
  let counted := { e with packetCount := ← fit wordLimit (e.packetCount + 1) }
  match ← p.adaptationField with
  | none => return counted
  | some field =>
    let ready := if field.discontinuity then counted.forget p.pid else counted
    match ← field.clock with
    | .error _ => return ready
    | .ok clock => ready.observe p.pid ⟨clock.ticks, e.packetCount⟩

def feedAll (e : BitrateEstimator) : List Packet → Traced BitrateEstimator
  | [] => return e
  | p :: rest => do (← e.feed p).feedAll rest

def isValid : Bool := e.needed ≤ e.intervals.length

/-- The estimate in bits per second, as a 64-bit number, and zero without one. -/
def bitrate : Nat :=
  if !e.isValid ∨ e.totalTicks = 0 then 0
  else e.totalPackets * Packet.size * 8 * ClockReference.frequency / e.totalTicks % wordLimit

def reset : BitrateEstimator where
  window := e.window
  needed := e.needed

end BitrateEstimator

end TransportStream
