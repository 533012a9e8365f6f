import TransportStream.ClockReference

namespace TransportStream

structure AdaptationField where
  bytes : Bytes
  nonempty : bytes ≠ []
deriving DecidableEq

namespace AdaptationField

inductive Missing
  | notPresent
  | cutShort
deriving DecidableEq, Repr

def Missing.describe : Missing → String
  | notPresent => "FieldNotPresent"
  | cutShort => "NotEnoughData"

def ofBytes (data : Bytes) : Except Fault AdaptationField :=
  if h : data ≠ [] then .ok ⟨data, h⟩ else .error .precondition

variable (f : AdaptationField)

def flags : UInt8 :=
  f.bytes.head f.nonempty

def discontinuity : Bool :=
  bit f.flags 7

def hasClock : Bool :=
  bit f.flags 4

def clock : Except Fault (Except Missing ClockReference) :=
  if !f.hasClock then .ok (.error .notPresent)
  else if f.bytes.length < 7 then .ok (.error .cutShort)
  else do return .ok (← ClockReference.ofBytes (← slice f.bytes 1 7))

def describe : Except Fault String := do
  let clock :=
    match ← f.clock with
    | .ok c => s!"Ok({c.describe})"
    | .error missing => s!"Err({missing.describe})"
  return s!"AdaptationField \x7b discontinuity_indicator: {f.discontinuity}, pcr: {clock} \x7d"

end AdaptationField

end TransportStream
