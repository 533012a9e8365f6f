import TransportStream.Proofs.Bitrate.Stream
import TransportStream.Proofs.Demux.Capacity
import TransportStream.Proofs.Listing.Blocks
import TransportStream.Proofs.Ring.Waiting
import TransportStream.Proofs.Ring.Windows

namespace TransportStream

namespace RingSession

variable {s t : RingSession} {w : PacketWindow}

def Awaits (s : RingSession) : Prop :=
  (∃ told, s.writer = .waiting 1 told) ∨
    ∃ w, w.packets ≠ [] ∧ s.Open w.packets.length false false w

theorem awaits_tryOpen (hv : s.ring.Valid) (hs : s.ring.stopped = false) :
    (s.tryOpen 1).Awaits := by
  have hwriter : (s.tryOpen 1).writer = .waiting 1 false ∨
      s.ring.canOpen 1 = true ∧ (s.tryOpen 1).writer = .writing s.ring.window := by
    unfold tryOpen
    split
    · next hc => exact .inr ⟨hc, rfl⟩
    · exact .inl rfl
  rcases hwriter with hw | ⟨hc, hw⟩
  · exact .inl ⟨false, hw⟩
  · have hopen := open_tryOpen hv hw
    rw [hs] at hopen
    refine .inr ⟨_, ?_, hopen⟩
    have hlt := hv.writeIndex_lt
    rw [PacketRing.canOpen, hs, Bool.false_or] at hc
    have hle : min (max 1 1) (s.ring.capacity - s.ring.writeIndex) ≤ s.ring.freeRun :=
      of_decide_eq_true hc
    apply List.ne_nil_of_length_pos
    rw [PacketRing.window, hs, List.length_replicate]
    show 0 < s.ring.freeRun
    omega

structure AfterLook (s t : RingSession) (room : Nat) : Prop where
  windowTaken : t.ring.windowTaken = s.ring.windowTaken
  stopped : t.ring.stopped = s.ring.stopped
  ended : t.ring.ended = s.ring.ended
  declaredBitrate : t.ring.declaredBitrate = s.ring.declaredBitrate
  estimator : t.ring.estimator = s.ring.estimator
  writer : t.writer = s.writer ∨ t.writer = s.writer.tell
  reader : t.reader = .idle ∨ t.reader = .waiting room false

theorem afterLook_of_tryRead {room : Nat} {batch : Option Batch} (hv : s.ring.Valid)
    (h : s.tryRead room = .ok (t, batch)) : s.AfterLook t room := by
  rw [tryRead_eq hv, Except.ok.injEq] at h
  split at h <;> cases h
  · refine ⟨rfl, rfl, rfl, rfl, rfl, ?_, .inl rfl⟩
    show (if _ then s.writer.tell else s.writer) = _ ∨ (if _ then s.writer.tell else s.writer) = _
    split
    · exact .inr rfl
    · exact .inl rfl
  · exact ⟨rfl, rfl, rfl, rfl, rfl, .inl rfl, .inr rfl⟩

theorem Awaits.tryRead {room : Nat} {batch : Option Batch} (ha : s.Awaits) (hv : s.ring.Valid)
    (h : s.tryRead room = .ok (t, batch)) : t.Awaits := by
  rcases ha with ⟨told, hw⟩ | ⟨w, hne, hopen⟩
  · left
    rcases (afterLook_of_tryRead hv h).writer with ht | ht
    · exact ⟨told, ht.trans hw⟩
    · exact ⟨true, by rw [ht, hw]; rfl⟩
  · exact .inr ⟨w, hne, hopen.tryRead h⟩

theorem Settled.writer_ne (h : s.Settled) (hv : s.ring.Valid) {room minimum : Nat}
    (hr : s.reader = .waiting room false) : s.writer ≠ .waiting minimum false := by
  intro hw
  have hread := h.reader room hr
  have hopen := h.writer minimum hw
  simp only [PacketRing.canRead, Bool.or_eq_false_iff, bne_eq_false_iff_eq] at hread
  -- the ring is empty, and so is free up to the end of its slots
  simp only [PacketRing.canOpen, PacketRing.wanted, Bool.or_eq_false_iff,
    decide_eq_false_iff_not, hv.freeRun_of_empty hread.1.1.2] at hopen
  exact hopen.2 (Nat.min_le_right _ _)

end RingSession

/-- Whether the session is as the feeder has left it. -/
def Feeder.Fits (s : RingSession) : Feeder → Prop
  | .reading left => left.length < Packet.size ∧ s.writer = .idle ∧ s.ring.windowTaken = false
  | .offering _ data =>
    Packet.size ≤ data.length ∧ s.writer = .idle ∧ s.ring.windowTaken = false
  | .filling _ data => Packet.size ≤ data.length ∧ s.Awaits
  | .closing | .done => s.writer = .idle

namespace Feeder

variable {s t : RingSession} {f : Feeder}

theorem fits_next (position : Nat) (data : Bytes) (hw : s.writer = .idle)
    (ht : s.ring.windowTaken = false) : (next position data).Fits s := by
  unfold next
  split
  · next hle => exact ⟨hle, hw, ht⟩
  · next hle => exact ⟨Nat.not_le.1 hle, hw, ht⟩

theorem next_ne_done (position : Nat) (data : Bytes) : next position data ≠ .done := by
  unfold next
  split <;> nofun

theorem Fits.tryRead {room : Nat} {batch : Option Batch} (hf : f.Fits s) (hv : s.ring.Valid)
    (h : s.tryRead room = .ok (t, batch)) : f.Fits t := by
  have hlook := RingSession.afterLook_of_tryRead hv h
  have hidle (hw : s.writer = .idle) : t.writer = .idle := by
    rcases hlook.writer with ht | ht <;> rw [ht, hw]
    rfl
  cases f with
  | reading left => exact ⟨hf.1, hidle hf.2.1, hlook.windowTaken.trans hf.2.2⟩
  | offering position data => exact ⟨hf.1, hidle hf.2.1, hlook.windowTaken.trans hf.2.2⟩
  | filling position data => exact ⟨hf.1, hf.2.tryRead hv h⟩
  | closing => exact hidle hf
  | done => exact hidle hf

end Feeder

def Feeder.work : Feeder → Nat
  | .reading left => 3 * left.length + 3
  | .offering _ data => 3 * data.length + 3
  | .filling _ data => 3 * data.length + 1
  | .closing => 2
  | .done => 0

def RingWriter.work : RingWriter → Nat
  | .waiting _ true => 1
  | .idle | .waiting _ false | .writing _ => 0

def RingReader.work : RingReader → Nat
  | .idle | .waiting _ true => 1
  | .waiting _ false => 0

theorem Feeder.work_next (position : Nat) (data : Bytes) :
    (next position data).work = 3 * data.length + 3 := by
  unfold next
  split <;> rfl

theorem RingWriter.work_tell_le (w : RingWriter) : w.tell.work ≤ 1 := by
  cases w <;> simp [tell, work]

theorem RingReader.eq_waiting_of_tell {r : RingReader} {room : Nat} {told : Bool}
    (h : r.tell = .waiting room told) : ∃ told', r = .waiting room told' := by
  cases r with
  | idle => cases h
  | waiting room' told' =>
    cases h
    exact ⟨told', rfl⟩

theorem RingReader.work_tell_le (r : RingReader) : r.tell.work ≤ 1 := by
  cases r <;> simp [tell, work]

namespace TableListing

open BitrateEstimator RingHistory

variable {l : TableListing} {file : Bytes} {h : RingHistory}

def ahead (l : TableListing) : Bytes :=
  match l.feeder with
  | .reading left => left ++ l.file
  | .offering _ data | .filling _ data => data ++ l.file
  | .closing | .done => []

structure Sound (file : Bytes) (l : TableListing) (h : RingHistory) : Prop where
  reachable : h.Reachable
  session : h.session = l.session
  flowing : l.session.ring.stopped = false
  undeclared : l.session.ring.declaredBitrate = 0
  estimator : (standard.feedAll h.published).value = .ok l.session.ring.estimator
  packets : h.published ++ packetsOf l.ahead = packetsOf file
  feeder : l.feeder.Fits l.session
  ended : l.session.ring.ended = true ↔ l.feeder = .done
  reader : ∀ room told, l.session.reader = .waiting room told → room = batchSize
  demux : ∃ calls, (demultiplexer.feedAll h.received).value = .ok (l.demux, calls)
  bitrate : h.received = h.published → l.bitrate = l.session.ring.bitrate
  finished : l.finished = true → h.received = h.published ∧ l.feeder = .done

theorem Sound.valid (hs : Sound file l h) : l.session.ring.Valid :=
  hs.session ▸ hs.reachable.sound.valid

theorem sound_start (file : Bytes) :
    Sound file (start file) { session := { ring := .standard } } where
  reachable := @Reachable.start PacketRing.standardCapacity _ rfl
  session := rfl
  flowing := rfl
  undeclared := rfl
  estimator := rfl
  packets := rfl
  feeder := ⟨by decide, rfl, rfl⟩
  ended := ⟨nofun, nofun⟩
  reader := nofun
  demux := ⟨[], rfl⟩
  bitrate _ := rfl
  finished := nofun

/-- A bound of the moves that are left. -/
def work (l : TableListing) : Nat :=
  4 * l.file.length + l.feeder.work + l.session.writer.work + 3 * l.session.ring.count +
    l.session.reader.work + if l.finished then 0 else 1

/-- Whether the side whose turn it is has nothing to do, or waits for the other side. -/
def Idles (l : TableListing) : Turn → Prop
  | .feeder _ => l.feeder = .done ∨
    (∃ position data, l.feeder = .filling position data) ∧ l.session.writer = .waiting 1 false
  | .printer => l.finished = true ∨ l.session.reader = .waiting batchSize false

/-- Whether the estimator or the demultiplexer does not take the first packets of a file. -/
def Refused (file : Bytes) : Prop :=
  ∃ packets, packets <+: packetsOf file ∧
    ((∀ e, (standard.feedAll packets).value ≠ .ok e) ∨
      ∀ r, (demultiplexer.feedAll packets).value ≠ .ok r)

/-- Whether moves keep to the course of a listing and lead to what is wanted, unless packets are
refused. -/
def Leads (file : Bytes) (moved : Traced TableListing) (wanted : TableListing → Prop) : Prop :=
  (∃ l' h', moved.value = .ok l' ∧ Sound file l' h' ∧ wanted l') ∨
    (∃ fault, moved.value = .error fault) ∧ Refused file

theorem Leads.bind {moved : Traced TableListing} {f : TableListing → Traced TableListing}
    {first wanted : TableListing → Prop} (hm : Leads file moved first)
    (hf : ∀ l' h', Sound file l' h' → first l' → Leads file (f l') wanted) :
    Leads file (moved >>= f) wanted := by
  unfold Leads
  rw [Traced.value_bind]
  rcases hm with ⟨l', h', hvalue, hs, hfirst⟩ | ⟨⟨fault, hvalue⟩, refused⟩
  · rw [hvalue]
    exact hf l' h' hs hfirst
  · rw [hvalue]
    exact .inr ⟨⟨fault, rfl⟩, refused⟩

theorem Leads.mono {moved : Traced TableListing} {good wanted : TableListing → Prop}
    (hm : Leads file moved good) (hg : ∀ l', good l' → wanted l') : Leads file moved wanted := by
  rcases hm with ⟨l', h', hvalue, hs, hgood⟩ | refused
  · exact .inl ⟨l', h', hvalue, hs, hg l' hgood⟩
  · exact .inr refused

theorem Leads.pure {wanted : TableListing → Prop} (hs : Sound file l h) (hw : wanted l) :
    Leads file (Pure.pure l) wanted :=
  .inl ⟨l, h, rfl, hs, hw⟩

def Advances (file : Bytes) (l : TableListing) (turn : Turn) : Prop :=
  Leads file (l.move turn) fun l' ↦ l' = l ∧ l.Idles turn ∨ l'.work < l.work

end TableListing

end TransportStream
