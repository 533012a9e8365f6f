import TransportStream.Traced

namespace TransportStream

/-- The bitrate of a stream, and the average since it last changed much. Zero is unknown. -/
structure TrackedBitrate where
  stream : StreamRole
  value : Nat := 0
  average : Nat := 0
  count : Nat := 0
deriving DecidableEq, Repr

namespace TrackedBitrate

variable (t : TrackedBitrate)

def departs (bitrate percent : Nat) : Bool :=
  t.average * percent < (max bitrate t.average - min bitrate t.average) * 100

def restart (bitrate : Nat) : TrackedBitrate :=
  { t with value := bitrate, average := bitrate, count := 1 }

def absorb (bitrate : Nat) : Except Fault TrackedBitrate := do
  let count ← fit wordLimit (t.count + 1)
  let total ← fit doubleWordLimit (t.average * t.count + bitrate)
  return { t with value := bitrate, average := total / count, count }

/-- Takes a new value; says whether the counts made so far have lost their meaning. -/
def set (bitrate percent : Nat) : Traced (TrackedBitrate × Bool) := do
  if bitrate = 0 then return ({ stream := t.stream }, false)
  else if t.count = 0 ∨ t.average = 0 then return (t.restart bitrate, true)
  else if t.departs bitrate percent then do
    Traced.note (.bitrateChanged t.stream t.average bitrate)
    return (t.restart bitrate, true)
  else return (← t.absorb bitrate, false)

end TrackedBitrate

structure Pacer where
  mainPackets : Nat := 0
  subPackets : Nat := 0
  mainBitrate : TrackedBitrate := { stream := .main }
  subBitrate : TrackedBitrate := { stream := .sub }
  /-- The backlog above which insertion is accelerated. -/
  alert : Nat := 16
  resetPercent : Nat := 10
  factor : Nat := 1
  /-- The packets of the main stream when acceleration began. -/
  mainAnchor : Nat := 0
  subAnchor : Nat := 0
  maxBacklog : Nat := 0
deriving DecidableEq, Repr

namespace Pacer

instance : Inhabited Pacer := ⟨{}⟩

variable (c : Pacer)

def reset : Pacer := { c with
  mainPackets := 0, subPackets := 0, factor := 1, mainAnchor := 0, subAnchor := 0, maxBacklog := 0 }

def countMain (n : Nat) : Except Fault Pacer :=
  return { c with mainPackets := ← fit wordLimit (c.mainPackets + n) }

def countSub (n : Nat) : Except Fault Pacer :=
  return { c with subPackets := ← fit wordLimit (c.subPackets + n) }

def setMainBitrate (bitrate : Nat) : Traced Pacer := do
  let (tracked, restarted) ← c.mainBitrate.set bitrate c.resetPercent
  let c := { c with mainBitrate := tracked }
  return if restarted then c.reset else c

def setSubBitrate (bitrate : Nat) : Traced Pacer := do
  let (tracked, restarted) ← c.subBitrate.set bitrate c.resetPercent
  let c := { c with subBitrate := tracked }
  return if restarted then c.reset else c

def relax (waiting : Nat) : Traced Pacer :=
  if waiting ≤ c.alert ∧ 1 < c.factor then do
    Traced.note (.accelerationEnded waiting c.factor)
    return { c with factor := 1 }
  else return c

/-- Begins acceleration, or raises it for a backlog larger than any before. -/
def accelerate (waiting : Nat) : Traced Pacer :=
  if c.factor = 1 then do
    Traced.note (.accelerationStarted waiting c.mainPackets c.subPackets)
    return { c with
      factor := 2, mainAnchor := c.mainPackets, subAnchor := c.subPackets, maxBacklog := waiting }
  else if c.maxBacklog < waiting then do
    let factor ← fit wordLimit (c.factor + 1)
    Traced.note (.accelerationRaised waiting factor)
    return { c with factor, maxBacklog := waiting }
  else return c

def isDue : Except Fault Bool := do
  let share ← fit doubleWordLimit (c.mainPackets * c.subBitrate.value)
  let used ← fit doubleWordLimit (c.subPackets * c.mainBitrate.value)
  return decide (used ≤ share)

/-- Whether the sub stream is not ahead of its multiplied share since acceleration began. -/
def isDueAccelerated : Except Fault Bool := do
  let main ← minus c.mainPackets c.mainAnchor
  let sub ← minus c.subPackets c.subAnchor
  let share ← fit doubleWordLimit (main * c.subBitrate.value)
  let multiplied ← fit doubleWordLimit (share * c.factor)
  let used ← fit doubleWordLimit (sub * c.mainBitrate.value)
  return decide (used ≤ multiplied)

/-- Decides whether the current slot takes one of the packets that wait. While a bitrate is unknown
every slot does. -/
def decideSlot (waiting : Nat) : Traced (Pacer × Bool) := do
  let c ← c.relax waiting
  if c.mainBitrate.value = 0 ∨ c.subBitrate.value = 0 then return (c, true)
  else if ← c.isDue then return (c, true)
  else if waiting ≤ c.alert then return (c, false)
  else
    let c ← c.accelerate waiting
    return (c, ← c.isDueAccelerated)

/-- One slot: decides, counts the packet if it is inserted, then counts the slot. -/
def passSlot (waiting : Nat) : Traced (Pacer × Bool) := do
  let (c, inserted) ← c.decideSlot waiting
  let c ← c.countSub inserted.toNat
  return (← c.countMain 1, inserted)

def passSlots (c : Pacer) : List Nat → Traced (Pacer × List Bool)
  | [] => return (c, [])
  | waiting :: rest => do
    let (c, inserted) ← c.passSlot waiting
    let (c, more) ← c.passSlots rest
    return (c, inserted :: more)

end Pacer

end TransportStream
