import TransportStream.Fault
import TransportStream.Section.Defect

namespace TransportStream

inductive Problem
  | invalidPacket
  | discontinuity
  | scrambled
  | truncated
  | invalidLength
  | invalidNumber
  | wrongChecksum
  | invalidVersion
  | notYetCurrent
deriving DecidableEq, Repr

def Problem.ofDefect : Section.Defect → Problem
  | .wrongChecksum .. => wrongChecksum
  | .numberAboveLast .. => invalidNumber
  | .tooShort .. | .tooLong _ | .lengthMismatch .. => invalidLength

structure Status where
  invalidPackets : Nat := 0
  discontinuities : Nat := 0
  scrambled : Nat := 0
  truncated : Nat := 0
  invalidLengths : Nat := 0
  invalidNumbers : Nat := 0
  wrongChecksums : Nat := 0
  invalidVersions : Nat := 0
  notYetCurrent : Nat := 0
deriving DecidableEq, Repr

namespace Status

instance : Inhabited Status := ⟨{}⟩

variable (s : Status)

def get : Problem → Nat
  | .invalidPacket => s.invalidPackets
  | .discontinuity => s.discontinuities
  | .scrambled => s.scrambled
  | .truncated => s.truncated
  | .invalidLength => s.invalidLengths
  | .invalidNumber => s.invalidNumbers
  | .wrongChecksum => s.wrongChecksums
  | .invalidVersion => s.invalidVersions
  | .notYetCurrent => s.notYetCurrent

def set (n : Nat) : Problem → Status
  | .invalidPacket => { s with invalidPackets := n }
  | .discontinuity => { s with discontinuities := n }
  | .scrambled => { s with scrambled := n }
  | .truncated => { s with truncated := n }
  | .invalidLength => { s with invalidLengths := n }
  | .invalidNumber => { s with invalidNumbers := n }
  | .wrongChecksum => { s with wrongChecksums := n }
  | .invalidVersion => { s with invalidVersions := n }
  | .notYetCurrent => { s with notYetCurrent := n }

def count (p : Problem) : Except Fault Status :=
  return s.set (← fit wordLimit (s.get p + 1)) p

def countAll (s : Status) (ps : List Problem) : Except Fault Status :=
  ps.foldlM count s

def hasErrors : Bool :=
  [Problem.invalidPacket, .discontinuity, .scrambled, .truncated, .invalidLength, .invalidNumber,
    .wrongChecksum, .invalidVersion].any (s.get · != 0)

def summary : String :=
  s!"invalid TS packets: {s.invalidPackets}, discontinuities: {s.discontinuities}, " ++
  s!"scrambled packets: {s.scrambled}, truncated sections: {s.truncated}, " ++
  s!"invalid section lengths: {s.invalidLengths}, invalid section numbers: {s.invalidNumbers}, " ++
  s!"CRC errors: {s.wrongChecksums}, invalid versions: {s.invalidVersions}, " ++
  s!"next sections ignored: {s.notYetCurrent}"

def describe : String :=
  s!"DemuxStatus \x7b invalid_ts: {s.invalidPackets}, discontinuities: {s.discontinuities}, " ++
  s!"scrambled: {s.scrambled}, truncated_sections: {s.truncated}, " ++
  s!"invalid_section_length: {s.invalidLengths}, invalid_section_number: {s.invalidNumbers}, " ++
  s!"wrong_crc: {s.wrongChecksums}, invalid_version: {s.invalidVersions}, " ++
  s!"is_next: {s.notYetCurrent} \x7d"

theorem get_set (n : Nat) (p q : Problem) :
    (s.set n p).get q = if q = p then n else s.get q := by
  cases p <;> cases q <;> rfl

theorem count_eq_ok_iff {s t : Status} {p : Problem} :
    s.count p = .ok t ↔ s.get p + 1 < wordLimit ∧ s.set (s.get p + 1) p = t := by
  rw [count, bind_eq_ok_iff]
  constructor
  · rintro ⟨n, hn, h⟩
    obtain ⟨hlt, rfl⟩ := fit_eq_ok_iff.1 hn
    exact ⟨hlt, Except.ok.inj h⟩
  · rintro ⟨hlt, h⟩
    exact ⟨_, fit_eq_ok_iff.2 ⟨hlt, rfl⟩, congrArg Except.ok h⟩

end Status

end TransportStream
