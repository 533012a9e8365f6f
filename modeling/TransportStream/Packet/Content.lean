import TransportStream.AdaptationField
import TransportStream.Packet.Basic
import TransportStream.Traced

namespace TransportStream.Packet

def adaptationOffset : Nat := headerSize + 1

variable (p : Packet)

def declaredAdaptation : Except Fault AdaptationField := do
  AdaptationField.ofBytes
    (← slice p.bytes adaptationOffset (adaptationOffset + p.adaptationLength))

/-- The adaptation field. Alone it must fill the packet; before a payload it must leave room for
one, and an empty one is as good as none. -/
def adaptationField : Traced (Option AdaptationField) :=
  match p.layout with
  | .reserved | .payloadOnly => return none
  | .adaptationOnly =>
    if p.adaptationLength ≠ size - adaptationOffset then do
      Traced.note (.adaptationAlone p.adaptationLength)
      return none
    else return some (← p.declaredAdaptation)
  | .adaptationAndPayload =>
    if size - adaptationOffset ≤ p.adaptationLength then do
      Traced.note (.adaptationCrowded p.adaptationLength)
      return none
    else if p.adaptationLength = 0 then return none
    else return some (← p.declaredAdaptation)

def contentOffset : Nat :=
  match p.layout with
  | .reserved | .payloadOnly => headerSize
  | .adaptationOnly | .adaptationAndPayload => adaptationOffset + p.adaptationLength

def payload : Traced (Option Bytes) :=
  if !p.layout.hasPayload then return none
  else if p.contentOffset = p.bytes.length then do
    Traced.note .payloadEmpty
    return none
  else if p.bytes.length < p.contentOffset then do
    Traced.note (.payloadBeyondPacket p.adaptationLength)
    return none
  else return some (← slice p.bytes p.contentOffset p.bytes.length)

end TransportStream.Packet
