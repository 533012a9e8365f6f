import TransportStream.Proofs.Ring.History

namespace TransportStream

namespace RingWriter

theorem tell_ne (w : RingWriter) (minimum : Nat) : w.tell ≠ .waiting minimum false := by
  cases w <;> simp [tell]

end RingWriter

namespace RingReader

theorem tell_ne (r : RingReader) (room : Nat) : r.tell ≠ .waiting room false := by
  cases r <;> simp [tell]

end RingReader

namespace RingSession

variable {s : RingSession}

/-- The sides that sleep have reason to. -/
structure Settled (s : RingSession) : Prop where
  writer : ∀ minimum, s.writer = .waiting minimum false → s.ring.canOpen minimum = false
  reader : ∀ room, s.reader = .waiting room false → s.ring.canRead room = false

theorem Settled.congr {t : RingSession} (h : s.Settled) (hw : t.writer = s.writer)
    (hr : t.reader = s.reader) (ho : ∀ minimum, t.ring.canOpen minimum = s.ring.canOpen minimum)
    (hc : ∀ room, t.ring.canRead room = s.ring.canRead room) : t.Settled where
  writer minimum hm := by rw [ho]; exact h.writer minimum (hw ▸ hm)
  reader room hm := by rw [hc]; exact h.reader room (hr ▸ hm)

theorem Settled.after (h : s.Settled) {ring : PacketRing} {signals : Signals}
    (ho : signals.writer = false → ∀ minimum, s.writer = .waiting minimum false →
      s.ring.canOpen minimum = false → ring.canOpen minimum = false)
    (hc : signals.reader = false → ∀ room, s.reader = .waiting room false →
      s.ring.canRead room = false → ring.canRead room = false) :
    (s.after ring signals).Settled where
  writer minimum hm := by
    cases hs : signals.writer with
    | true =>
      simp only [RingSession.after, signal, hs] at hm
      exact absurd hm (RingWriter.tell_ne _ _)
    | false =>
      simp only [RingSession.after, signal, hs] at hm
      exact ho hs minimum hm (h.writer minimum hm)
  reader room hm := by
    cases hs : signals.reader with
    | true =>
      simp only [RingSession.after, signal, hs] at hm
      exact absurd hm (RingReader.tell_ne _ _)
    | false =>
      simp only [RingSession.after, signal, hs] at hm
      exact hc hs room hm (h.reader room hm)

theorem Settled.withWriter (h : s.Settled) {w : RingWriter}
    (hw : ∀ minimum, w = .waiting minimum false → s.ring.canOpen minimum = false) :
    Settled { s with writer := w } :=
  ⟨hw, h.reader⟩

theorem Settled.withReader (h : s.Settled) {r : RingReader}
    (hr : ∀ room, r = .waiting room false → s.ring.canRead room = false) :
    Settled { s with reader := r } :=
  ⟨h.writer, hr⟩

theorem Settled.tryOpen (h : s.Settled) (minimum : Nat) : (s.tryOpen minimum).Settled := by
  unfold RingSession.tryOpen
  split
  · exact h.withWriter (by simp)
  · next hc =>
    apply h.withWriter
    intro m hm
    cases hm
    simpa using hc

theorem Settled.tryRead (h : s.Settled) (hv : s.ring.Valid) {room : Nat} {t : RingSession}
    {batch : Option Batch} (ht : s.tryRead room = .ok (t, batch)) : t.Settled := by
  rw [tryRead_eq hv, Except.ok.injEq] at ht
  split at ht <;> cases ht
  · refine (h.withReader (r := .idle) (by simp)).after ?_ (by simp)
    intro hs minimum _ ho
    have hz : s.ring.batchCount room = 0 := by simpa using hs
    show (s.ring.advance (s.ring.batchCount room)).canOpen minimum = false
    rw [hz, PacketRing.advance_zero hv]
    exact ho
  · next hc =>
    apply h.withReader
    intro m hm
    cases hm
    simpa using hc

theorem Settled.take (h : s.Settled) (hv : s.ring.Valid) (hr : s.reader = .idle)
    {t : RingSession} {item : Option (Packet × Nat)} (ht : s.take = .ok (t, item)) :
    t.Settled := by
  rw [take_eq hv, Except.ok.injEq] at ht
  split at ht <;> cases ht
  · exact h
  · exact h.after (by simp) (by simp [hr])

theorem Settled.publish (h : s.Settled) {w : PacketWindow} {n k : Nat} {t : RingSession}
    (hw : s.writer = .writing w) (hp : (s.publish n).value = .ok (t, some k)) : t.Settled := by
  obtain ⟨ring, signals, hring, rfl⟩ := publish_eq_ok hw hp
  refine (h.withWriter (w := .idle) (by simp)).after (by simp) ?_
  intro hs room _ hc
  rcases PacketRing.publish_cases hring with ⟨-, -, rfl, -⟩ | ⟨-, slots, e, -, -, rfl, rfl⟩
  · exact hc
  · -- without a signal nothing was published, so that the count is what it was
    have hnil : s.ring.prefixOf w n = [] := by simpa using hs
    rw [hnil]
    exact hc

theorem Settled.reset (h : s.Settled) {capacity : Nat} {t : RingSession}
    (ht : s.reset capacity = .ok t) : t.Settled := by
  obtain ⟨-, rfl⟩ := reset_eq_ok ht
  refine h.after (by simp) ?_
  intro _ room _ hc
  simp only [PacketRing.canRead, Bool.or_eq_false_iff] at hc
  simp [PacketRing.canRead, hc.1.1.1]

end RingSession

namespace RingHistory

open RingSession

theorem Step.settled {h h' : RingHistory} (hstep : Step h h') (hv : h.session.ring.Valid)
    (hs : h.session.Settled) : h'.session.Settled := by
  cases hstep with
  | acquire ha =>
    have hc : Settled { h.session with ring := { h.session.ring with windowTaken := true } } :=
      hs.congr rfl rfl (fun _ ↦ rfl) (fun _ ↦ rfl)
    exact acquire_eq_ok ha ▸ hc.tryOpen _
  | wakeWriter =>
    show h.session.wakeWriter.Settled
    unfold RingSession.wakeWriter
    split
    · exact hs.tryOpen _
    all_goals exact hs
  | write hw =>
    rcases write_eq_ok hw with rfl | ⟨w, rfl⟩
    · exact hs
    · exact hs.withWriter (by simp)
  | publish hw hp => exact hs.publish hw hp
  | abandon _ _ ho =>
    refine ⟨by simp, fun room hm ↦ ?_⟩
    exact hs.reader room hm
  | take hr ht => exact hs.take hv hr ht
  | wait _ ht => exact hs.tryRead hv ht
  | waitAgain hr ht =>
    exact hs.tryRead hv (by simpa only [RingSession.wakeReader, hr] using ht)
  | read hret => exact hs.tryRead hv hret.tryRead
  | declareBitrate => exact hs.congr rfl rfl (fun _ ↦ rfl) (fun _ ↦ rfl)
  | finish =>
    exact hs.after (fun _ _ _ ho ↦ ho) (by simp [PacketRing.finish])
  | stop => exact hs.after (by simp [PacketRing.stop]) (by simp [PacketRing.stop])
  | reset hr => exact hs.reset hr

theorem Reachable.settled {h : RingHistory} (hr : h.Reachable) : h.session.Settled := by
  induction hr with
  | start hc => exact ⟨by simp, by simp⟩
  | step hr hstep ih => exact hstep.settled hr.sound.valid ih

/-- A side that sleeps would have to wait if it looked again, and the two sides never sleep at the
same time. -/
theorem waits_of_not_told {h : RingHistory} (hr : h.Reachable) :
    (∀ room, h.session.reader = .waiting room false →
      h.session.ring.count = 0 ∧ h.session.ring.ended = false ∧ h.session.ring.stopped = false) ∧
    (∀ minimum, h.session.writer = .waiting minimum false →
      h.session.ring.stopped = false ∧
      h.session.ring.freeRun <
        min (max minimum 1) (h.session.ring.capacity - h.session.ring.writeIndex)) ∧
    ¬ ∃ room minimum, h.session.reader = .waiting room false ∧
      h.session.writer = .waiting minimum false := by
  have hv := hr.sound.valid
  have hreader : ∀ room, h.session.reader = .waiting room false →
      h.session.ring.count = 0 ∧ h.session.ring.ended = false ∧
      h.session.ring.stopped = false := by
    intro room hm
    have hc := hr.settled.reader room hm
    simp only [PacketRing.canRead, Bool.or_eq_false_iff, bne_eq_false_iff_eq] at hc
    exact ⟨hc.1.1.2, hc.1.2, hc.2⟩
  have hwriter : ∀ minimum, h.session.writer = .waiting minimum false →
      h.session.ring.stopped = false ∧ h.session.ring.freeRun <
        min (max minimum 1) (h.session.ring.capacity - h.session.ring.writeIndex) := by
    intro minimum hm
    have ho := hr.settled.writer minimum hm
    simp only [PacketRing.canOpen, Bool.or_eq_false_iff, decide_eq_false_iff_not,
      Nat.not_le] at ho
    exact ho
  refine ⟨hreader, hwriter, ?_⟩
  rintro ⟨room, minimum, hm, hm'⟩
  -- the ring is empty, and so is free up to the end of its slots
  have hfree := hv.freeRun_of_empty (hreader room hm).1
  have hlt := (hwriter minimum hm').2
  omega

theorem waits_of_not_told_full : ∃ h : RingHistory, h.Reachable ∧
    h.session.writer = .waiting 1 false ∧ h.session.ring.stopped = false ∧
    h.session.ring.freeRun <
      min (max 1 1) (h.session.ring.capacity - h.session.ring.writeIndex) := by
  have h₀ := @Reachable.start 1 _ rfl
  have h₁ := h₀.step (@Step.declareBitrate _ 1)
  have h₂ := h₁.step (@Step.acquire _ 1 _ rfl)
  have h₃ := h₂.step (@Step.publish _ _ 1 1 _ rfl rfl)
  have h₄ := h₃.step (@Step.acquire _ 1 _ rfl)
  exact ⟨_, h₄, rfl, (waits_of_not_told h₄).2.1 1 rfl⟩

end RingHistory

end TransportStream
