import TransportStream.Demux.Extraction
import TransportStream.Demux.Status
import TransportStream.Packet.Content

namespace TransportStream

inductive Arrival
  | first
  | afterBreak
  | inSequence
  | duplicate
  | outOfSequence (last : ContinuityCounter)
deriving DecidableEq

inductive Intake
  | idle
  | accumulating
deriving DecidableEq, Repr

structure Reassembly where
  pid : Pid
  last : Option ContinuityCounter := none
  duplicateSeen : Bool := false
  intake : Intake := .idle
  buffer : Bytes := []
deriving DecidableEq

structure Findings (α : Type) where
  problems : List Problem := []
  pieces : List α := []
deriving DecidableEq

namespace Reassembly

variable (r : Reassembly) (rule : ChecksumRule)

def abandon : Reassembly := { r with intake := .idle, buffer := [] }

/-- How a packet stands to the one before it. Packets with a payload count up, and one repetition of
a packet is allowed; packets without one repeat the counter. -/
def arrival (p : Packet) (breakSignalled : Bool) : Arrival :=
  match r.last with
  | none => .first
  | some last =>
    if breakSignalled then .afterBreak
    else if p.layout.hasPayload then
      if p.counter.follows last then .inSequence
      else if p.counter = last ∧ !r.duplicateSeen then .duplicate
      else .outOfSequence last
    else if p.counter = last then .inSequence
    else .outOfSequence last

def accept (p : Packet) (arrival : Arrival) : Reassembly :=
  let noted := { r with last := some p.counter, duplicateSeen := decide (arrival = .duplicate) }
  match arrival with
  | .afterBreak | .outOfSequence _ => noted.abandon
  | .first | .inSequence | .duplicate => noted

def report (p : Packet) : Arrival → Traced Unit
  | .first | .inSequence => return ()
  | .afterBreak => Traced.note (.discontinuitySignalled r.pid)
  | .duplicate => Traced.note (.duplicateIgnored r.pid)
  | .outOfSequence last => Traced.note (.outOfSequence r.pid p.counter last)

def keep (pending : Bytes) : Reassembly :=
  { r with intake := if pending = [] then .idle else .accumulating, buffer := pending }

/-- Ends the section under way with the bytes before the pointer. If they are not all of it, it is
lost. -/
def finish (tail : Bytes) : Traced (Findings Staged) :=
  match r.intake with
  | .idle => return {}
  | .accumulating => do
    let split ← Extraction.ofBytes rule r.pid (r.buffer ++ tail)
    if split.pending = [] then return { pieces := split.pieces }
    else
      Traced.note (.sectionIncomplete r.pid split.pending.length)
      return { problems := [.truncated], pieces := split.pieces }

def takeStart (payload : Bytes) : Traced (Reassembly × Findings Staged) := do
  let pointer := (← itemAt payload 0).toNat
  let data ← slice payload 1 payload.length
  if data.length < pointer then
    Traced.note (.pointerBeyondPayload r.pid)
    return (r.abandon, {})
  else
    let finished ← r.finish rule (← slice data 0 pointer)
    let split ← Extraction.ofBytes rule r.pid (← slice data pointer data.length)
    return (r.keep split.pending, { finished with pieces := finished.pieces ++ split.pieces })

def takeMore (payload : Bytes) : Traced (Reassembly × Findings Staged) :=
  match r.intake with
  | .idle => return (r, {})
  | .accumulating => do
    let split ← Extraction.ofBytes rule r.pid (r.buffer ++ payload)
    return (r.keep split.pending, { pieces := split.pieces })

def takeContent (p : Packet) : Traced (Reassembly × Findings Staged) := do
  if p.isScrambled then return (r.abandon, { problems := [.scrambled] })
  else
    match ← p.payload with
    | none => return (r, {})
    | some payload => if p.unitStart then r.takeStart rule payload else r.takeMore rule payload

def feed (p : Packet) : Traced (Reassembly × Findings Staged) := do
  let field ← p.adaptationField
  let arrival := r.arrival p (field.elim false (·.discontinuity))
  r.report p arrival
  let accepted := r.accept p arrival
  match arrival with
  | .duplicate => return (accepted, {})
  | .first | .afterBreak | .inSequence => accepted.takeContent rule p
  | .outOfSequence _ =>
    let (next, found) ← accepted.takeContent rule p
    return (next, { found with problems := .discontinuity :: found.problems })

end Reassembly

end TransportStream
