import TransportStream.Proofs.Ring.Contents

namespace TransportStream

/-- A session, and what has passed through its ring since the last reset. -/
structure RingHistory where
  session : RingSession
  published : List Packet := []
  received : List Packet := []

namespace RingSession

@[simp] theorem ring_after (s : RingSession) (ring : PacketRing) (signals : Signals) :
    (s.after ring signals).ring = ring := rfl

theorem ring_tryOpen (s : RingSession) (minimum : Nat) : (s.tryOpen minimum).ring = s.ring := by
  unfold tryOpen
  split <;> rfl

theorem ring_wakeWriter (s : RingSession) : s.wakeWriter.ring = s.ring := by
  unfold wakeWriter
  split
  · exact ring_tryOpen s _
  all_goals rfl

theorem acquire_eq_ok {s t : RingSession} {minimum : Nat} (h : s.acquire minimum = .ok t) :
    t = { s with ring := { s.ring with windowTaken := true } }.tryOpen minimum := by
  obtain ⟨ring, hc, ht⟩ := bind_eq_ok_iff.1 h
  obtain ⟨_, -, hr⟩ := bind_eq_ok_iff.1 hc
  cases hr
  exact (Except.ok.inj ht).symm

theorem not_taken_of_acquire {s t : RingSession} {minimum : Nat} (h : s.acquire minimum = .ok t) :
    s.ring.windowTaken = false := by
  obtain ⟨ring, hc, -⟩ := bind_eq_ok_iff.1 h
  obtain ⟨_, hfree, -⟩ := bind_eq_ok_iff.1 hc
  exact require_eq_ok_iff.1 hfree

theorem write_eq_ok {s t : RingSession} {i : Nat} {packets : List Packet}
    (h : s.write i packets = .ok t) :
    t = s ∨ ∃ w, t = { s with writer := .writing w } := by
  unfold write at h
  split at h
  · obtain ⟨_, -, ht⟩ := bind_eq_ok_iff.1 h
    exact .inr ⟨_, (Except.ok.inj ht).symm⟩
  all_goals exact .inl (Except.ok.inj h).symm

theorem publish_eq_ok {s t : RingSession} {w : PacketWindow} {n k : Nat}
    (hw : s.writer = .writing w) (h : (s.publish n).value = .ok (t, some k)) :
    ∃ ring signals, (s.ring.publish w n).value = .ok (ring, k, signals) ∧
      t = { s with writer := .idle }.after ring signals := by
  simp only [publish, hw] at h
  obtain ⟨⟨ring, k', signals⟩, hp, ht⟩ := Traced.value_bind_eq_ok_iff.1 h
  simp only [Traced.value_pure, Except.ok.injEq, Prod.mk.injEq, Option.some.injEq] at ht
  obtain ⟨rfl, rfl⟩ := ht
  exact ⟨ring, signals, hp, rfl⟩

theorem reset_eq_ok {s t : RingSession} {capacity : Nat} (h : s.reset capacity = .ok t) :
    0 < capacity ∧ t = s.after
      { slots := List.replicate capacity .null, estimator := s.ring.estimator.reset,
        windowTaken := s.ring.windowTaken, generation := s.ring.generation + 1 }
      { writer := true } := by
  obtain ⟨⟨ring, signals⟩, hr, ht⟩ := bind_eq_ok_iff.1 h
  obtain ⟨slots, hs, hr⟩ := bind_eq_ok_iff.1 hr
  obtain ⟨generation, hg, hr⟩ := bind_eq_ok_iff.1 hr
  obtain ⟨_, hc, hs⟩ := bind_eq_ok_iff.1 hs
  obtain ⟨_, -, hs⟩ := bind_eq_ok_iff.1 hs
  obtain ⟨-, rfl⟩ := fit_eq_ok_iff.1 hg
  cases hs
  cases hr
  exact ⟨require_eq_ok_iff.1 hc, (Except.ok.inj ht).symm⟩

variable {s : RingSession}

theorem take_eq (h : s.ring.Valid) : s.take = .ok
    (if s.ring.count = 0 then (s, none)
      else (s.after (s.ring.advance 1) { writer := true },
        s.ring.contents.head?.map fun p ↦ (p, s.ring.bitrate))) := by
  rw [take, PacketRing.take_eq h]
  split <;> rfl

theorem tryRead_eq (h : s.ring.Valid) (room : Nat) : s.tryRead room = .ok
    (if s.ring.canRead room then
      ({ s with reader := .idle }.after (s.ring.advance (s.ring.batchCount room))
          { writer := decide (0 < s.ring.batchCount room) },
        some ⟨s.ring.contents.take (s.ring.batchCount room), s.ring.bitrate⟩)
      else ({ s with reader := .waiting room false }, none)) := by
  unfold tryRead
  split
  · rw [PacketRing.takeMany_eq h]
    rfl
  · rfl

/-- A call that waits for packets with so much room returns, at once or after it was woken. -/
def Returns (s : RingSession) (room : Nat) (t : RingSession) (batch : Batch) : Prop :=
  s.reader = .idle ∧ s.tryRead room = .ok (t, some batch) ∨
    s.reader = .waiting room true ∧ s.wakeReader = .ok (t, some batch)

theorem Returns.tryRead {room : Nat} {t : RingSession} {batch : Batch}
    (h : s.Returns room t batch) : s.tryRead room = .ok (t, some batch) := by
  rcases h with ⟨-, h⟩ | ⟨hr, h⟩
  · exact h
  · simpa only [wakeReader, hr] using h

end RingSession

namespace RingHistory

/-- One atomic operation. A window that is dropped publishes none of its packets. An operation that
faults leaves everything as it is, and so is no step, but for a writer whose packets the estimator
does not take: it has written into free slots, and ends without a window and without giving up the
right to write. -/
inductive Step : RingHistory → RingHistory → Prop
  | acquire {h : RingHistory} {minimum : Nat} {s : RingSession} :
      h.session.acquire minimum = .ok s → Step h { h with session := s }
  | wakeWriter {h : RingHistory} : Step h { h with session := h.session.wakeWriter }
  | write {h : RingHistory} {i : Nat} {packets : List Packet} {s : RingSession} :
      h.session.write i packets = .ok s → Step h { h with session := s }
  | publish {h : RingHistory} {w : PacketWindow} {n k : Nat} {s : RingSession} :
      h.session.writer = .writing w → (h.session.publish n).value = .ok (s, some k) →
      Step h { h with session := s, published := h.published ++ w.packets.take k }
  | abandon {h : RingHistory} {w : PacketWindow} {n : Nat} {fault : Fault} {slots : List Packet}
      {estimator : BitrateEstimator} :
      h.session.writer = .writing w → (h.session.publish n).value = .error fault →
      overwrite h.session.ring.slots h.session.ring.writeIndex (h.session.ring.prefixOf w n) =
        .ok slots →
      Step h { h with session := { h.session with
        writer := .idle, ring := { h.session.ring with slots, estimator } } }
  | take {h : RingHistory} {s : RingSession} {item : Option (Packet × Nat)} :
      h.session.reader = .idle → h.session.take = .ok (s, item) →
      Step h { h with session := s, received := h.received ++ (item.map (·.1)).toList }
  | wait {h : RingHistory} {room : Nat} {s : RingSession} :
      h.session.reader = .idle → h.session.tryRead room = .ok (s, none) →
      Step h { h with session := s }
  | waitAgain {h : RingHistory} {room : Nat} {s : RingSession} :
      h.session.reader = .waiting room true → h.session.wakeReader = .ok (s, none) →
      Step h { h with session := s }
  | read {h : RingHistory} {room : Nat} {s : RingSession} {batch : Batch} :
      h.session.Returns room s batch →
      Step h { h with session := s, received := h.received ++ batch.packets }
  | declareBitrate {h : RingHistory} {bitrate : Nat} :
      Step h { h with session := h.session.declareBitrate bitrate }
  | finish {h : RingHistory} : Step h { h with session := h.session.finish }
  | stop {h : RingHistory} : Step h { h with session := h.session.stop }
  | reset {h : RingHistory} {capacity : Nat} {s : RingSession} :
      h.session.reset capacity = .ok s → Step h { session := s }

inductive Reachable : RingHistory → Prop
  | start {capacity : Nat} {ring : PacketRing} :
      PacketRing.create capacity = .ok ring → Reachable { session := { ring } }
  | step {h h' : RingHistory} : Reachable h → Step h h' → Reachable h'

structure Sound (h : RingHistory) : Prop where
  valid : h.session.ring.Valid
  received_append : h.received ++ h.session.ring.contents = h.published

theorem valid_of_empty {ring : PacketRing} (hs : 0 < ring.slots.length) (hr : ring.readIndex = 0)
    (hw : ring.writeIndex = 0) (hc : ring.count = 0) : ring.Valid where
  readIndex_lt := by rw [hr]; exact hs
  count_le := by rw [hc]; exact Nat.zero_le _
  writeIndex_eq := by rw [hr, hw, hc]; exact (Nat.zero_mod _).symm

theorem sound_of_empty {h : RingHistory} (hv : h.session.ring.Valid)
    (hc : h.session.ring.count = 0) (hp : h.published = []) (hr : h.received = []) : h.Sound where
  valid := hv
  received_append := by
    rw [hp, hr, List.nil_append]
    exact List.eq_nil_of_length_eq_zero ((PacketRing.length_contents hv).trans hc)

theorem sound_start {capacity : Nat} {ring : PacketRing}
    (h : PacketRing.create capacity = .ok ring) : Sound { session := { ring } } := by
  obtain ⟨slots, hs, hr⟩ := bind_eq_ok_iff.1 h
  obtain ⟨_, hc, hs⟩ := bind_eq_ok_iff.1 hs
  obtain ⟨_, -, hs⟩ := bind_eq_ok_iff.1 hs
  have hpos : 0 < capacity := require_eq_ok_iff.1 hc
  cases hs
  cases hr
  exact sound_of_empty (valid_of_empty (by simpa using hpos) rfl rfl rfl) rfl rfl rfl

theorem Sound.of_ring_eq {h : RingHistory} (hs : h.Sound) {s : RingSession}
    (hv : s.ring.Valid) (hc : s.ring.contents = h.session.ring.contents) :
    Sound { h with session := s } :=
  ⟨hv, by rw [hc]; exact hs.received_append⟩

theorem Sound.read {h : RingHistory} (hs : h.Sound) {n : Nat} (hn : n ≤ h.session.ring.count)
    {s : RingSession} (hr : s.ring = h.session.ring.advance n) :
    Sound { h with
      session := s, received := h.received ++ h.session.ring.contents.take n } where
  valid := by rw [hr]; exact hs.valid.advance hn
  received_append := by
    rw [hr, PacketRing.contents_advance hs.valid hn, List.append_assoc, List.take_append_drop]
    exact hs.received_append

theorem Sound.publish {h : RingHistory} (hs : h.Sound) {w : PacketWindow} {n k : Nat}
    {s : RingSession} (hw : h.session.writer = .writing w)
    (hp : (h.session.publish n).value = .ok (s, some k)) :
    Sound { h with session := s, published := h.published ++ w.packets.take k } := by
  obtain ⟨ring, signals, hring, rfl⟩ := RingSession.publish_eq_ok hw hp
  rcases PacketRing.publish_cases hring with ⟨-, rfl, rfl, -⟩ | ⟨-, slots, e, ho, rfl, rfl, -⟩
  · refine ⟨⟨hs.valid.1, hs.valid.2, hs.valid.3⟩, ?_⟩
    rw [List.take_zero, List.append_nil]
    exact hs.received_append
  · have hle := PacketRing.length_prefixOf_le (r := h.session.ring) w n
    have hk : w.packets.take (h.session.ring.prefixOf w n).length =
        h.session.ring.prefixOf w n := by
      rw [PacketRing.prefixOf, List.length_take, List.take_eq_take_iff]
      omega
    refine ⟨hs.valid.extend hle ho e, ?_⟩
    rw [hk, ← hs.received_append, List.append_assoc]
    exact congrArg _ (PacketRing.contents_extend hs.valid hle ho e)

theorem Sound.abandon {h : RingHistory} (hs : h.Sound) {w : PacketWindow} {n : Nat}
    {slots : List Packet} (e : BitrateEstimator)
    (ho : overwrite h.session.ring.slots h.session.ring.writeIndex
      (h.session.ring.prefixOf w n) = .ok slots) :
    Sound { h with session := { h.session with
      writer := .idle, ring := { h.session.ring with slots, estimator := e } } } := by
  have hl := length_of_overwrite ho
  have hcap : ({ h.session.ring with slots, estimator := e } : PacketRing).capacity =
      h.session.ring.capacity := hl
  have hv : ({ h.session.ring with slots, estimator := e } : PacketRing).Valid :=
    ⟨by rw [hcap]; exact hs.valid.1, by rw [hcap]; exact hs.valid.2,
      by rw [hcap]; exact hs.valid.3⟩
  refine hs.of_ring_eq hv (PacketRing.contents_congr hs.valid hv rfl fun i hi ↦ ?_)
  rw [hcap]
  exact PacketRing.getElem?_overwrite_old hs.valid (PacketRing.length_prefixOf_le w n) ho hi

theorem Sound.step {h h' : RingHistory} (hs : h.Sound) (hstep : Step h h') : h'.Sound := by
  have hv := hs.valid
  cases hstep with
  | acquire ha =>
    have hring := RingSession.acquire_eq_ok ha ▸ RingSession.ring_tryOpen _ _
    refine hs.of_ring_eq ?_ ?_
    · rw [hring]; exact ⟨hv.1, hv.2, hv.3⟩
    · rw [hring]; rfl
  | wakeWriter =>
    exact hs.of_ring_eq (by rw [RingSession.ring_wakeWriter]; exact hv)
      (by rw [RingSession.ring_wakeWriter])
  | write hw =>
    rcases RingSession.write_eq_ok hw with rfl | ⟨w, rfl⟩
    · exact hs
    · exact hs.of_ring_eq hv rfl
  | publish hw hp => exact hs.publish hw hp
  | abandon _ _ ho => exact hs.abandon _ ho
  | take _ ht =>
    rw [RingSession.take_eq hv, Except.ok.injEq] at ht
    split at ht
    · cases ht
      simpa using hs
    · next hc =>
      cases ht
      have hread := hs.read (n := 1) (by omega) (s := h.session.after
        (h.session.ring.advance 1) { writer := true }) rfl
      have hhead : ((h.session.ring.contents.head?.map fun p ↦
          (p, h.session.ring.bitrate)).map (·.1)).toList = h.session.ring.contents.take 1 := by
        cases h.session.ring.contents <;> rfl
      rw [hhead]
      exact hread
  | wait _ ht =>
    rw [RingSession.tryRead_eq hv, Except.ok.injEq] at ht
    split at ht <;> cases ht
    exact hs.of_ring_eq hv rfl
  | waitAgain hr ht =>
    rename_i room s
    have ht : h.session.tryRead room = .ok (s, none) := by
      simpa only [RingSession.wakeReader, hr] using ht
    rw [RingSession.tryRead_eq hv, Except.ok.injEq] at ht
    split at ht <;> cases ht
    exact hs.of_ring_eq hv rfl
  | read hret =>
    have ht := hret.tryRead
    rw [RingSession.tryRead_eq hv, Except.ok.injEq] at ht
    split at ht <;> cases ht
    exact hs.read (PacketRing.batchCount_le _ _) rfl
  | declareBitrate => exact hs.of_ring_eq ⟨hv.1, hv.2, hv.3⟩ rfl
  | finish => exact hs.of_ring_eq ⟨hv.1, hv.2, hv.3⟩ rfl
  | stop => exact hs.of_ring_eq ⟨hv.1, hv.2, hv.3⟩ rfl
  | reset hr =>
    obtain ⟨hc, rfl⟩ := RingSession.reset_eq_ok hr
    exact sound_of_empty (valid_of_empty (by simpa using hc) rfl rfl rfl) rfl rfl rfl

theorem Reachable.sound {h : RingHistory} (hr : h.Reachable) : h.Sound := by
  induction hr with
  | start hc => exact sound_start hc
  | step _ hs ih => exact ih.step hs

/-- Nothing is lost, doubled or reordered between the writer and the reader, whose calls do not
fail; and the reader gets nothing, for all the room it has, only at the end. -/
theorem received_append_contents {h : RingHistory} (hr : h.Reachable) :
    h.session.ring.readIndex < h.session.ring.capacity ∧
    h.session.ring.writeIndex < h.session.ring.capacity ∧
    h.session.ring.count ≤ h.session.ring.capacity ∧
    h.session.ring.writeIndex =
      (h.session.ring.readIndex + h.session.ring.count) % h.session.ring.capacity ∧
    h.session.ring.contents.length = h.session.ring.count ∧
    (∀ i < h.session.ring.count, h.session.ring.contents[i]? =
      h.session.ring.slots[(h.session.ring.readIndex + i) % h.session.ring.capacity]?) ∧
    h.received ++ h.session.ring.contents = h.published ∧
    (∃ s item, h.session.take = .ok (s, item)) ∧
    (∀ room, ∃ s batch, h.session.tryRead room = .ok (s, batch)) ∧
    (∀ room s batch, 0 < room → h.session.Returns room s batch → batch.packets = [] →
      h.session.ring.stopped = true ∨ h.session.ring.ended = true ∧ h.received = h.published) := by
  obtain ⟨hv, hp⟩ := hr.sound
  refine ⟨hv.readIndex_lt, hv.writeIndex_lt, hv.count_le, hv.writeIndex_eq,
    PacketRing.length_contents hv, fun i hi ↦ PacketRing.getElem?_contents hv hi, hp,
    ⟨_, _, RingSession.take_eq hv⟩, fun room ↦ ⟨_, _, RingSession.tryRead_eq hv room⟩, ?_⟩
  intro room s batch hroom hret hnil
  have ht := hret.tryRead
  rw [RingSession.tryRead_eq hv, Except.ok.injEq] at ht
  split at ht <;> cases ht
  next hcan =>
  by_cases hst : h.session.ring.stopped = true
  · exact .inl hst
  · have hlen : min (min h.session.ring.count room) h.session.ring.count = 0 := by
      have := congrArg List.length hnil
      simpa only [PacketRing.batchCount, if_neg hst, List.length_take,
        PacketRing.length_contents hv, List.length_nil] using this
    have hc : h.session.ring.count = 0 := by omega
    have hend : h.session.ring.ended = true := by
      simpa [PacketRing.canRead, hc, hst, Nat.ne_of_gt hroom] using hcan
    have hnone : h.session.ring.contents = [] :=
      List.eq_nil_of_length_eq_zero ((PacketRing.length_contents hv).trans hc)
    exact .inr ⟨hend, by rw [← hp, hnone, List.append_nil]⟩

theorem received_append_contents_pair : ∃ h : RingHistory, h.Reachable ∧
    h.session.ring.readIndex = 1 ∧ h.session.ring.writeIndex = 0 ∧
    h.published = [.payloadOnly .pat .zero, .null] ∧ h.received = [.payloadOnly .pat .zero] ∧
    h.received ++ h.session.ring.contents = h.published := by
  have h₀ := @Reachable.start 2 _ rfl
  have h₁ := h₀.step (@Step.declareBitrate _ 1)
  have h₂ := h₁.step (@Step.acquire _ 1 _ rfl)
  have h₃ := h₂.step (@Step.write _ 0 [.payloadOnly .pat .zero] _ rfl)
  have h₄ := h₃.step (@Step.publish _ _ 5 2 _ rfl rfl)
  have h₅ := h₄.step (@Step.take _ _ _ rfl rfl)
  exact ⟨_, h₅, rfl, rfl, rfl, rfl, (received_append_contents h₅).2.2.2.2.2.2.1⟩

def full : RingHistory where
  session := { ring := { slots := [.null, .null], count := 2, declaredBitrate := 1 } }
  published := [.null, .null]

theorem reachable_full : full.Reachable := by
  have h₀ := @Reachable.start 2 _ rfl
  have h₁ := h₀.step (@Step.declareBitrate _ 1)
  have h₂ := h₁.step (@Step.acquire _ 1 _ rfl)
  have h₃ := h₂.step (@Step.publish _ _ 2 2 _ rfl rfl)
  exact h₃

end RingHistory

end TransportStream
