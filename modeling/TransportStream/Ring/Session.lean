import TransportStream.Ring.Basic

namespace TransportStream

inductive RingWriter
  | idle
  /-- It waits for a window of at least so many slots; `told` when it is to look again. -/
  | waiting (minimum : Nat) (told : Bool)
  | writing (w : PacketWindow)
deriving DecidableEq

inductive RingReader
  | idle
  | waiting (room : Nat) (told : Bool)
deriving DecidableEq

structure RingSession where
  ring : PacketRing
  writer : RingWriter := .idle
  reader : RingReader := .idle

def RingWriter.tell : RingWriter → RingWriter
  | waiting minimum _ => waiting minimum true
  | idle => idle
  | writing w => writing w

def RingReader.tell : RingReader → RingReader
  | waiting room _ => waiting room true
  | idle => idle

namespace RingSession

variable (s : RingSession)

def signal (signals : Signals) : RingSession :=
  { s with
    writer := if signals.writer then s.writer.tell else s.writer
    reader := if signals.reader then s.reader.tell else s.reader }

def after (ring : PacketRing) (signals : Signals) : RingSession :=
  { s with ring }.signal signals

def tryOpen (minimum : Nat) : RingSession :=
  if s.ring.canOpen minimum then { s with writer := .writing s.ring.window }
  else { s with writer := .waiting minimum false }

def acquire (minimum : Nat) : Except Fault RingSession := do
  return { s with ring := ← s.ring.claim }.tryOpen minimum

def wakeWriter : RingSession :=
  match s.writer with
  | .waiting minimum true => s.tryOpen minimum
  | .idle | .waiting _ false | .writing _ => s

def write (i : Nat) (packets : List Packet) : Except Fault RingSession :=
  match s.writer with
  | .writing w => do
    return { s with writer := .writing { w with packets := ← overwrite w.packets i packets } }
  | .idle | .waiting .. => return s

def publish (n : Nat) : Traced (RingSession × Option Nat) :=
  match s.writer with
  | .writing w => do
    let (ring, published, signals) ← s.ring.publish w n
    return ({ s with writer := .idle }.after ring signals, some published)
  | .idle | .waiting .. => return (s, none)

def declareBitrate (bitrate : Nat) : RingSession :=
  { s with ring := s.ring.declareBitrate bitrate }

def finish : RingSession :=
  s.after s.ring.finish.1 s.ring.finish.2

def take : Except Fault (RingSession × Option (Packet × Nat)) := do
  let (ring, item, signals) ← s.ring.take
  return (s.after ring signals, item)

def tryRead (room : Nat) : Except Fault (RingSession × Option Batch) :=
  if s.ring.canRead room then do
    let (ring, batch, signals) ← s.ring.takeMany room
    return ({ s with reader := .idle }.after ring signals, some batch)
  else return ({ s with reader := .waiting room false }, none)

def wakeReader : Except Fault (RingSession × Option Batch) :=
  match s.reader with
  | .waiting room true => s.tryRead room
  | .idle | .waiting _ false => return (s, none)

def stop : RingSession :=
  s.after s.ring.stop.1 s.ring.stop.2

def reset (capacity : Nat) : Except Fault RingSession := do
  let (ring, signals) ← s.ring.reset capacity
  return s.after ring signals

end RingSession

end TransportStream
