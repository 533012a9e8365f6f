import TransportStream.Proofs.Ring.Publishing

namespace TransportStream

namespace PacketRing

variable {r : PacketRing}

theorem freeRun_le_advance (h : r.Valid) {n : Nat} (hn : n ≤ r.count) :
    r.freeRun ≤ (r.advance n).freeRun := by
  have hw := h.writeIndex_cases
  have hr := h.readIndex_lt
  have hc := h.count_le
  have hwrap := wrap_eq hr (hn.trans hc)
  show r.freeRun ≤ (if r.count - n = r.capacity then 0
    else if r.writeIndex < (r.readIndex + n) % r.capacity then
      (r.readIndex + n) % r.capacity - r.writeIndex
    else r.capacity - r.writeIndex)
  rw [hwrap]
  unfold freeRun
  -- the read index stays before the write index, or comes to it from behind the end of the slots
  split_ifs at hw ⊢ <;> omega

theorem freeRun_le_extend (h : r.Valid) {slots part : List Packet}
    (hp : part.length ≤ r.freeRun) (ho : overwrite r.slots r.writeIndex part = .ok slots)
    (e : BitrateEstimator) : r.freeRun ≤ part.length + (r.extend slots part e).freeRun := by
  have hw := h.writeIndex_cases
  have hr := h.readIndex_lt
  have hc := h.count_le
  have hle := h.freeRun_le.1
  have hwrap := wrap_eq h.writeIndex_lt (b := part.length) (by omega)
  have hextend : (r.extend slots part e).freeRun = if r.count + part.length = r.capacity then 0
      else if (r.writeIndex + part.length) % r.capacity < r.readIndex then
        r.readIndex - (r.writeIndex + part.length) % r.capacity
      else r.capacity - (r.writeIndex + part.length) % r.capacity := by
    unfold freeRun
    rw [capacity_extend ho]
    rfl
  rw [hextend, hwrap]
  unfold freeRun at hp hle ⊢
  split_ifs at hw hp hle ⊢ <;> omega

theorem extend_nil (h : r.Valid) : r.extend r.slots [] r.estimator =
    { r with windowTaken := false } := by
  rw [extend, List.length_nil, Nat.add_zero, Nat.add_zero, Nat.mod_eq_of_lt h.writeIndex_lt]

end PacketRing

namespace RingSession

variable {s t u : RingSession} {w w₀ : PacketWindow} {broken : Bool}

inductive Opens : RingSession → RingSession → PacketWindow → Prop
  | acquire {s t : RingSession} {minimum : Nat} {w : PacketWindow} :
      s.acquire minimum = .ok t → t.writer = .writing w → Opens s t w
  | wakeWriter {s : RingSession} {minimum : Nat} {w : PacketWindow} :
      s.writer = .waiting minimum true → s.wakeWriter.writer = .writing w →
      Opens s s.wakeWriter w

/-- What happens while a window is open: it is filled, the reader takes packets or waits for them,
and the ring is told about the stream, stopped or reset. The last two break the window. -/
inductive Meanwhile : Bool → RingSession → RingSession → Prop
  | write {s t : RingSession} {i : Nat} {packets : List Packet} :
      s.write i packets = .ok t → Meanwhile false s t
  | take {s t : RingSession} {item : Option (Packet × Nat)} :
      s.take = .ok (t, item) → Meanwhile false s t
  | tryRead {s t : RingSession} {room : Nat} {batch : Option Batch} :
      s.tryRead room = .ok (t, batch) → Meanwhile false s t
  | wakeReader {s t : RingSession} {batch : Option Batch} :
      s.wakeReader = .ok (t, batch) → Meanwhile false s t
  | declareBitrate {s : RingSession} {bitrate : Nat} :
      Meanwhile false s (s.declareBitrate bitrate)
  | finish {s : RingSession} : Meanwhile false s s.finish
  | stop {s : RingSession} : Meanwhile true s s.stop
  | reset {s t : RingSession} {capacity : Nat} : s.reset capacity = .ok t → Meanwhile true s t

/-- Any number of such steps, and whether one of them broke the window. -/
inductive During : Bool → RingSession → RingSession → Prop
  | refl {s : RingSession} : During false s s
  | step {b c : Bool} {s t u : RingSession} :
      During b s t → Meanwhile c t u → During (b || c) s u

structure Open (s : RingSession) (size : Nat) (stopped broken : Bool) (w : PacketWindow) :
    Prop where
  valid : s.ring.Valid
  writer : s.writer = .writing w
  length : w.packets.length = size
  generation_le : w.generation ≤ s.ring.generation
  stale : broken = true ∨ stopped = true → s.ring.IsStale w
  fresh : broken = false → stopped = false → ¬ s.ring.IsStale w ∧ size ≤ s.ring.freeRun

theorem open_tryOpen (hv : s.ring.Valid) {minimum : Nat}
    (hw : (s.tryOpen minimum).writer = .writing w) :
    (s.tryOpen minimum).Open w.packets.length s.ring.stopped false w := by
  unfold tryOpen at hw ⊢
  split at hw
  · next hc =>
    obtain rfl := RingWriter.writing.inj hw
    rw [if_pos hc]
    refine ⟨hv, rfl, rfl, Nat.le_refl _, ?_, ?_⟩
    · rintro (h | h)
      · cases h
      · exact .inr h
    · intro _ hs
      refine ⟨PacketRing.not_isStale_iff.2 ⟨rfl, hs⟩, ?_⟩
      rw [PacketRing.window, List.length_replicate, hs]
      exact Nat.le_refl _
  · cases hw

theorem Opens.open (h : s.Opens t w) (hv : s.ring.Valid) :
    t.Open w.packets.length t.ring.stopped false w := by
  cases h with
  | acquire ha hw =>
    obtain rfl := acquire_eq_ok ha
    have hopen := open_tryOpen (s := { s with ring := { s.ring with windowTaken := true } })
      ⟨hv.1, hv.2, hv.3⟩ hw
    rw [ring_tryOpen]
    exact hopen
  | wakeWriter hwaiting hw =>
    rw [ring_wakeWriter]
    unfold RingSession.wakeWriter at hw ⊢
    rw [hwaiting] at hw ⊢
    exact open_tryOpen hv hw

theorem Open.congr {size : Nat} {stopped : Bool} (h : s.Open size stopped broken w)
    (hv : t.ring.Valid) (hw : t.writer = .writing w)
    (hg : t.ring.generation = s.ring.generation) (hs : t.ring.stopped = s.ring.stopped)
    (hf : s.ring.freeRun ≤ t.ring.freeRun) : t.Open size stopped broken w where
  valid := hv
  writer := hw
  length := h.length
  generation_le := hg ▸ h.generation_le
  stale hb := by
    rw [PacketRing.IsStale, hg, hs]
    exact h.stale hb
  fresh hb hst := by
    obtain ⟨hfresh, hfree⟩ := h.fresh hb hst
    rw [PacketRing.IsStale, hg, hs]
    exact ⟨hfresh, hfree.trans hf⟩

theorem writer_after_of_writing (hw : s.writer = .writing w) (ring : PacketRing)
    (signals : Signals) : (s.after ring signals).writer = .writing w := by
  show (if signals.writer then s.writer.tell else s.writer) = _
  rw [hw]
  split <;> rfl

theorem Open.tryRead {size room : Nat} {stopped : Bool} {batch : Option Batch}
    (h : s.Open size stopped broken w) (ht : s.tryRead room = .ok (t, batch)) :
    t.Open size stopped broken w := by
  rw [tryRead_eq h.valid, Except.ok.injEq] at ht
  split at ht <;> cases ht
  · have hle := s.ring.batchCount_le room
    exact h.congr (h.valid.advance hle)
      (writer_after_of_writing (s := { s with reader := .idle }) h.writer _ _) rfl rfl
      (PacketRing.freeRun_le_advance h.valid hle)
  · exact h.congr h.valid h.writer rfl rfl (Nat.le_refl _)

theorem Open.meanwhile {size : Nat} {stopped c : Bool} (h : s.Open size stopped broken w)
    (hm : Meanwhile c s t) : ∃ w', t.Open size stopped (broken || c) w' := by
  cases hm with
  | write ht =>
    rw [Bool.or_false]
    simp only [RingSession.write, h.writer] at ht
    obtain ⟨packets, ho, ht⟩ := bind_eq_ok_iff.1 ht
    cases ht
    exact ⟨_, h.valid, rfl, (length_of_overwrite ho).trans h.length, h.generation_le, h.stale,
      h.fresh⟩
  | take ht =>
    rw [Bool.or_false]
    rw [take_eq h.valid, Except.ok.injEq] at ht
    split at ht <;> cases ht
    · exact ⟨w, h⟩
    · next hc =>
      have hle : 1 ≤ s.ring.count := Nat.pos_of_ne_zero hc
      exact ⟨w, h.congr (h.valid.advance hle) (writer_after_of_writing h.writer _ _) rfl rfl
        (PacketRing.freeRun_le_advance h.valid hle)⟩
  | tryRead ht =>
    rw [Bool.or_false]
    exact ⟨w, h.tryRead ht⟩
  | wakeReader ht =>
    rw [Bool.or_false]
    unfold RingSession.wakeReader at ht
    split at ht
    · exact ⟨w, h.tryRead ht⟩
    all_goals
      cases ht
      exact ⟨w, h⟩
  | declareBitrate =>
    rw [Bool.or_false]
    exact ⟨w, h.congr ⟨h.valid.1, h.valid.2, h.valid.3⟩ h.writer rfl rfl (Nat.le_refl _)⟩
  | finish =>
    rw [Bool.or_false]
    exact ⟨w, h.congr ⟨h.valid.1, h.valid.2, h.valid.3⟩ (writer_after_of_writing h.writer _ _)
      rfl rfl (Nat.le_refl _)⟩
  | stop =>
    rw [Bool.or_true]
    exact ⟨w, ⟨h.valid.1, h.valid.2, h.valid.3⟩, writer_after_of_writing h.writer _ _, h.length,
      h.generation_le, fun _ ↦ .inr rfl, nofun⟩
  | reset ht =>
    rw [Bool.or_true]
    obtain ⟨hc, rfl⟩ := reset_eq_ok ht
    have hlt := Nat.lt_succ_of_le h.generation_le
    refine ⟨w, RingHistory.valid_of_empty (by simpa using hc) rfl rfl rfl,
      writer_after_of_writing h.writer _ _, h.length, Nat.le_of_lt hlt, fun _ ↦ .inl ?_, nofun⟩
    exact Nat.ne_of_lt hlt

theorem During.open {size : Nat} {stopped : Bool} (hd : During broken s t)
    (h : s.Open size stopped false w₀) : ∃ w, t.Open size stopped broken w := by
  induction hd with
  | refl => exact ⟨w₀, h⟩
  | step _ hm ih =>
    obtain ⟨w, hw⟩ := ih h
    exact hw.meanwhile hm

theorem acquire_of_not_taken (h : s.ring.windowTaken = false) (minimum : Nat) :
    s.acquire minimum =
      .ok ({ s with ring := { s.ring with windowTaken := true } }.tryOpen minimum) := by
  rw [acquire, PacketRing.claim, h]
  rfl

def closed (s : RingSession) : RingSession :=
  { s with writer := .idle, ring := { s.ring with windowTaken := false } }

theorem Open.publish_zero {size : Nat} {stopped : Bool} (h : s.Open size stopped broken w) :
    (s.publish 0).value = .ok (s.closed, some 0) := by
  by_cases hstale : s.ring.IsStale w
  · exact publish_of_isStale h.writer hstale 0
  · obtain ⟨slots, ho, hp⟩ := publish_of_not_isStale h.valid h.writer hstale 0
    have hnil : s.ring.prefixOf w 0 = [] := by
      rw [PacketRing.prefixOf, Nat.zero_min, List.take_zero]
    have hm : s.ring.measure [] = .ok s.ring.estimator := by
      unfold PacketRing.measure
      split <;> rfl
    rw [hnil] at ho hp
    obtain ⟨-, rfl⟩ := overwrite_eq_ok_iff.1 ho
    rw [hp, hm, List.append_nil, List.length_nil, Nat.add_zero, List.take_append_drop]
    show Except.ok ({ s with writer := .idle }.after (s.ring.extend s.ring.slots [] _) {}, _) = _
    rw [PacketRing.extend_nil h.valid]
    rfl

theorem Open.publish {size : Nat} {stopped : Bool} (h : s.Open size stopped false w)
    (hs : stopped = false) {n : Nat} (hm : s.ring.declaredBitrate = 0 →
      ∃ e, (s.ring.estimator.feedAll (w.packets.take n)).value = .ok e) :
    ∃ t, (s.publish n).value = .ok (t, some (min n size)) ∧
      t.ring.contents = s.ring.contents ++ w.packets.take n ∧
      t.ring.count = s.ring.count + min n size ∧ t.ring.readIndex = s.ring.readIndex ∧
      t.ring.writeIndex = (s.ring.writeIndex + min n size) % s.ring.capacity ∧
      t.ring.capacity = s.ring.capacity ∧ t.ring.windowTaken = false := by
  obtain ⟨hstale, hfree⟩ := h.fresh rfl hs
  obtain ⟨slots, ho, hp⟩ := publish_of_not_isStale h.valid h.writer hstale n
  have hpart : s.ring.prefixOf w n = w.packets.take n := by
    rw [PacketRing.prefixOf, List.take_eq_take_iff, h.length]
    omega
  have hle := PacketRing.length_prefixOf_le (r := s.ring) w n
  have hlength : (w.packets.take n).length = min n size := by rw [List.length_take, h.length]
  rw [hpart] at ho hp hle
  obtain ⟨e, he⟩ : ∃ e, s.ring.measure (w.packets.take n) = .ok e := by
    unfold PacketRing.measure
    split
    · next hd => exact hm hd
    · exact ⟨_, rfl⟩
  rw [he] at hp
  refine ⟨_, hp.trans (congrArg (fun k ↦ Except.ok (_, some k)) hlength), ?_, ?_, rfl, ?_, ?_, rfl⟩
  · exact PacketRing.contents_extend h.valid hle ho e
  · exact congrArg (s.ring.count + ·) hlength
  · exact congrArg (fun k ↦ (s.ring.writeIndex + k) % s.ring.capacity) hlength
  · exact PacketRing.capacity_extend ho e

theorem Open.write_publish (h : s.Open w.packets.length false false w) {packets : List Packet}
    (hle : packets.length ≤ w.packets.length) : ∃ w' slots,
    s.write 0 packets = .ok { s with writer := .writing w' } ∧
    w'.packets.take packets.length = packets ∧
    overwrite s.ring.slots s.ring.writeIndex packets = .ok slots ∧
    (RingSession.publish { s with writer := .writing w' } packets.length).value =
      s.ring.measure packets >>= fun e ↦
        .ok ({ s with writer := .idle }.after (s.ring.extend slots packets e)
          { reader := !packets.isEmpty }, some packets.length) := by
  obtain ⟨hstale, hfree⟩ := h.fresh rfl rfl
  let w' : PacketWindow := { w with packets := packets ++ w.packets.drop packets.length }
  have hover : overwrite w.packets 0 packets = .ok (packets ++ w.packets.drop packets.length) :=
    overwrite_eq_ok_iff.2 ⟨by omega, by rw [List.take_zero, Nat.zero_add, List.nil_append]⟩
  have hwrite : s.write 0 packets = .ok { s with writer := .writing w' } := by
    rw [write, h.writer]
    exact bind_eq_ok_iff.2 ⟨_, hover, rfl⟩
  have hpart : s.ring.prefixOf w' packets.length = packets := by
    rw [PacketRing.prefixOf, Nat.min_eq_left (hle.trans hfree)]
    exact List.take_left
  obtain ⟨slots, ho, hp⟩ := publish_of_not_isStale (s := { s with writer := .writing w' })
    (w := w') h.valid rfl hstale packets.length
  rw [hpart] at ho hp
  exact ⟨w', slots, hwrite, List.take_left, ho, hp⟩

end RingSession

namespace RingHistory

open RingSession

/-- A window that was opened on a ring that was not stopped, and stayed open without a stop or a
reset, is published as far as it goes. Any other is thrown away, as is one that is dropped, and the
ring stays as it is. Afterwards a window can be asked for. -/
theorem publish_of_during {h : RingHistory} (hr : h.Reachable) {t s : RingSession}
    {w₀ : PacketWindow} {broken : Bool} (hopens : h.session.Opens t w₀)
    (hduring : During broken t s) : ∃ w, s.writer = .writing w ∧
    w.packets.length = w₀.packets.length ∧
    (∀ n, broken = false → t.ring.stopped = false → (s.ring.declaredBitrate = 0 →
        ∃ e, (s.ring.estimator.feedAll (w.packets.take n)).value = .ok e) →
      ∃ s', (s.publish n).value = .ok (s', some (min n w₀.packets.length)) ∧
        s'.ring.contents = s.ring.contents ++ w.packets.take n ∧
        s'.ring.count = s.ring.count + min n w₀.packets.length ∧
        s'.ring.readIndex = s.ring.readIndex ∧ s'.ring.writeIndex =
          (s.ring.writeIndex + min n w₀.packets.length) % s.ring.capacity ∧
        s'.ring.capacity = s.ring.capacity ∧ ∀ minimum, s'.acquire minimum =
          .ok ({ s' with ring := { s'.ring with windowTaken := true } }.tryOpen minimum)) ∧
    (∀ n, broken = true ∨ t.ring.stopped = true ∨ n = 0 →
      (s.publish n).value = .ok (s.closed, some 0) ∧
        s.closed.ring.contents = s.ring.contents) ∧
    ∀ minimum, s.closed.acquire minimum =
      .ok ({ s.closed with ring := { s.ring with windowTaken := true } }.tryOpen minimum) := by
  obtain ⟨w, hw⟩ := hduring.open (hopens.open hr.sound.valid)
  refine ⟨w, hw.writer, hw.length, ?_, ?_, acquire_of_not_taken rfl⟩
  · rintro n rfl hs hm
    obtain ⟨s', hp, hcontents, hcount, hread, hwrite, hcapacity, htaken⟩ := hw.publish hs hm
    exact ⟨s', hp, hcontents, hcount, hread, hwrite, hcapacity, acquire_of_not_taken htaken⟩
  · rintro n (hb | hs | rfl)
    · exact ⟨publish_of_isStale hw.writer (hw.stale (.inl hb)) n, rfl⟩
    · exact ⟨publish_of_isStale hw.writer (hw.stale (.inr hs)) n, rfl⟩
    · exact ⟨hw.publish_zero, rfl⟩

theorem publish_of_during_pair : ∃ (h : RingHistory) (t s : RingSession) (w₀ : PacketWindow),
    h.Reachable ∧ h.session.Opens t w₀ ∧ During false t s ∧ w₀.packets.length = 1 ∧
    ∃ s', (s.publish 5).value = .ok (s', some 1) ∧
      s'.ring.contents = [.payloadOnly .pat .zero] := by
  have h₀ := @Reachable.start 2 _ rfl
  have h₁ := h₀.step (@Step.declareBitrate _ 1)
  have h₂ := h₁.step (@Step.acquire _ 1 _ rfl)
  have h₃ := h₂.step (@Step.publish _ _ 1 1 _ rfl rfl)
  have opens {h : RingHistory} (_ : h.Reachable) {t : RingSession} {w : PacketWindow}
      (ha : h.session.acquire 1 = .ok t) (hw : t.writer = .writing w) : h.session.Opens t w :=
    .acquire ha hw
  have hopens := opens h₃ rfl rfl
  have start {s t : RingSession} {w : PacketWindow} (_ : s.Opens t w) : During false t t := .refl
  have d₁ := (start hopens).step (@Meanwhile.write _ _ 0 [.payloadOnly .pat .zero] rfl)
  have d₂ := d₁.step (@Meanwhile.take _ _ _ rfl)
  obtain ⟨w, hw, hlength, hpublish, -⟩ := publish_of_during h₃ hopens d₂
  obtain rfl := RingWriter.writing.inj hw
  obtain ⟨s', hp, hcontents, -⟩ := hpublish 5 rfl rfl nofun
  exact ⟨_, _, _, _, h₃, hopens, d₂, rfl, s', hp, hcontents⟩

end RingHistory

end TransportStream
