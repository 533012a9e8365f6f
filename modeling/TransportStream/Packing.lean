import TransportStream.Packet.Build
import TransportStream.Section.Basic

namespace TransportStream

inductive Stuffing
  /-- Right after the section before it. -/
  | never
  /-- Only in a new packet. -/
  | always
deriving DecidableEq, Repr

structure SectionPacker where
  pid : Pid
  stuffing : Stuffing
  counter : ContinuityCounter := .zero
deriving DecidableEq

namespace SectionPacker

def pointedSize : Nat := Packet.maxPayloadSize - 1

structure Portion where
  pointer : Option Nat
  size : Nat
deriving DecidableEq, Repr

/-- The next portion of so much data, given the distance of the next start. A start within reach
gets a pointer; otherwise the packet ends before it. -/
def portion (remaining : Nat) : Option Nat → Portion
  | none => ⟨none, min Packet.maxPayloadSize remaining⟩
  | some distance =>
    if distance < pointedSize then ⟨some distance, min pointedSize remaining⟩
    else ⟨none, min Packet.maxPayloadSize distance⟩

theorem portion_size_pos {remaining : Nat} (h : 0 < remaining) (start : Option Nat) :
    0 < (portion remaining start).size := by
  have hp : pointedSize = 183 := rfl
  have hm : Packet.maxPayloadSize = 184 := rfl
  rcases start with _ | distance
  · simp only [portion]
    omega
  · by_cases hd : distance < pointedSize
    · simp only [portion, hd, if_true]
      omega
    · simp only [portion, hd, if_false]
      omega

def startsAfter (n : Nat) (starts : List Nat) : List Nat :=
  (starts.dropWhile (· < n)).map (· - n)

def fill (z : SectionPacker) (pointer : Option Nat) (data : Bytes) : Packet :=
  match pointer with
  | none => (Packet.payloadOnly z.pid z.counter).withPayload data
  | some n =>
    ((Packet.payloadOnly z.pid z.counter).setUnitStart true).withPayload (UInt8.ofNat n :: data)

/-- Packs data in which sections start at the given distances, in ascending order. -/
def packData (z : SectionPacker) (data : Bytes) (starts : List Nat) :
    List Packet × SectionPacker :=
  if _h : data = [] then ([], z)
  else
    let next := portion data.length starts.head?
    let (packets, done) := packData { z with counter := z.counter.next } (data.drop next.size)
      (startsAfter next.size starts)
    (z.fill next.pointer (data.take next.size) :: packets, done)
termination_by data.length
decreasing_by
  have := portion_size_pos (List.length_pos_iff.2 _h) starts.head?
  have := List.length_pos_iff.2 _h
  simp only [List.length_drop]
  omega

def positions : Nat → List Section → List Nat
  | _, [] => []
  | n, s :: rest => n :: positions (n + s.size) rest

def packApart (z : SectionPacker) : List Section → List Packet × SectionPacker
  | [] => ([], z)
  | s :: rest =>
    let (packets, z) := z.packData s.bytes [0]
    let (more, z) := z.packApart rest
    (packets ++ more, z)

def pack (z : SectionPacker) (sections : List Section) : List Packet × SectionPacker :=
  match z.stuffing with
  | .never => z.packData (sections.flatMap (·.bytes)) (positions 0 sections)
  | .always => z.packApart sections

end SectionPacker

end TransportStream
