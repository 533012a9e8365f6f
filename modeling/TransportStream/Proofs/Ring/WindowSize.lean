import TransportStream.Proofs.Ring.Measuring

namespace TransportStream

namespace PacketRing

variable {r : PacketRing} {i minimum : Nat}

/-- Whether a slot is one of the ring and holds no packet that is still to be taken. -/
def IsFree (r : PacketRing) (i : Nat) : Prop :=
  i < r.capacity ∧ ∀ j < r.count, (r.readIndex + j) % r.capacity ≠ i

theorem isFree_of_lt_freeRun (h : r.Valid) (hi : i < r.freeRun) : r.IsFree (r.writeIndex + i) := by
  have hw := h.writeIndex_cases
  have hr := h.readIndex_lt
  have hc := h.count_le
  have hle := h.freeRun_le.1
  refine ⟨by omega, ?_⟩
  intro j hj
  rw [wrap_eq hr (by omega)]
  simp only [freeRun] at hi
  split_ifs at hw hi ⊢ <;> omega

theorem not_isFree_freeRun (h : r.Valid) : ¬ r.IsFree (r.writeIndex + r.freeRun) := by
  have hw := h.writeIndex_cases
  have hr := h.readIndex_lt
  have hc := h.count_le
  rintro ⟨hlt, hfree⟩
  have hempty : r.count = 0 := by
    by_contra hne
    apply hfree 0 (Nat.pos_of_ne_zero hne)
    rw [Nat.add_zero, Nat.mod_eq_of_lt hr]
    simp only [freeRun] at hlt ⊢
    split_ifs at hw hlt ⊢ <;> omega
  rw [h.freeRun_of_empty hempty] at hlt
  omega

theorem one_le_wanted (h : r.Valid) (minimum : Nat) : 1 ≤ r.wanted minimum := by
  have hlt := h.writeIndex_lt
  simp only [wanted]
  omega

theorem wanted_le_of_canOpen (ho : r.canOpen minimum = true) (hs : r.stopped = false) :
    r.wanted minimum ≤ r.freeRun := by
  simpa [canOpen, hs] using ho

theorem length_window (r : PacketRing) :
    r.window.packets.length = if r.stopped then 0 else r.freeRun :=
  List.length_replicate

end PacketRing

namespace RingSession

variable {s : RingSession} {minimum : Nat} {told : Bool} {w : PacketWindow}

theorem writer_after_of_waiting (hw : s.writer = .waiting minimum told) (ring : PacketRing)
    (signals : Signals) : ∃ told', (s.after ring signals).writer = .waiting minimum told' := by
  show ∃ told', (if signals.writer then s.writer.tell else s.writer) = _
  rw [hw]
  split
  · exact ⟨true, rfl⟩
  · exact ⟨told, rfl⟩

theorem tryOpen_cases (s : RingSession) (minimum : Nat) :
    (s.tryOpen minimum).writer = .waiting minimum false ∨
      s.ring.canOpen minimum = true ∧ (s.tryOpen minimum).writer = .writing s.ring.window := by
  by_cases hc : s.ring.canOpen minimum = true
  · exact .inr ⟨hc, by rw [tryOpen, if_pos hc]⟩
  · exact .inl (by rw [tryOpen, if_neg hc])

end RingSession

namespace RingHistory

open RingSession

variable {h h' t : RingHistory} {minimum : Nat} {told : Bool} {w : PacketWindow}

inductive Asked (minimum : Nat) (h : RingHistory) : Prop
  | waiting {told : Bool} : h.session.writer = .waiting minimum told → Asked minimum h
  | writing : h.session.ring.canOpen minimum = true →
      h.session.writer = .writing h.session.ring.window → Asked minimum h

theorem asked_tryOpen {s : RingSession} (hs : h.session = s.tryOpen minimum) :
    Asked minimum h := by
  have hring : h.session.ring = s.ring := by rw [hs, ring_tryOpen]
  rcases tryOpen_cases s minimum with hw | ⟨hc, hw⟩
  · exact .waiting (by rw [hs, hw])
  · exact .writing (by rw [hring, hc]) (by rw [hs, hw, ← hs, hring])

theorem asked_of_acquire {s : RingSession} (ha : h.session.acquire minimum = .ok s) :
    Asked minimum { h with session := s } :=
  asked_tryOpen (acquire_eq_ok ha)

theorem asked_of_tryRead (hv : h.session.ring.Valid) (hw : h.session.writer = .waiting minimum told)
    {room : Nat} {s : RingSession} {batch : Option Batch} {received : List Packet}
    (ht : h.session.tryRead room = .ok (s, batch)) :
    Asked minimum { h with session := s, received := received } := by
  rw [tryRead_eq hv, Except.ok.injEq] at ht
  split at ht <;> cases ht
  · obtain ⟨told', hw'⟩ := writer_after_of_waiting (s := { h.session with reader := .idle }) hw _ _
    exact .waiting hw'
  · exact .waiting hw

theorem Step.asked (hstep : Step h h') (hr : h.Reachable)
    (hw : h.session.writer = .waiting minimum told) : Asked minimum h' := by
  have hv := hr.sound.valid
  have after {ring : PacketRing} {signals : Signals} {h' : RingHistory}
      (hs : h'.session = h.session.after ring signals) : Asked minimum h' := by
    obtain ⟨told', hw'⟩ := writer_after_of_waiting hw ring signals
    exact .waiting (by rw [hs, hw'])
  cases hstep with
  | acquire ha =>
    -- nobody else can ask for a window meanwhile
    have htaken := hr.measured.taken (by rw [hw]; nofun)
    rw [not_taken_of_acquire ha] at htaken
    cases htaken
  | wakeWriter =>
    cases told with
    | true => exact asked_tryOpen (s := h.session) (by
      simp only [RingSession.wakeWriter, hw])
    | false =>
      have hsame : h.session.wakeWriter = h.session := by simp only [RingSession.wakeWriter, hw]
      exact .waiting (by rw [hsame, hw])
  | write ht =>
    simp only [RingSession.write, hw] at ht
    cases ht
    exact .waiting hw
  | publish hw' => cases hw.symm.trans hw'
  | abandon hw' => cases hw.symm.trans hw'
  | take _ ht =>
    rw [take_eq hv, Except.ok.injEq] at ht
    split at ht <;> cases ht
    · exact .waiting hw
    · exact after rfl
  | wait _ ht => exact asked_of_tryRead hv hw ht
  | waitAgain hreader ht =>
    exact asked_of_tryRead hv hw (by simpa only [RingSession.wakeReader, hreader] using ht)
  | read hret => exact asked_of_tryRead hv hw hret.tryRead
  | declareBitrate => exact .waiting hw
  | finish => exact after rfl
  | stop => exact after rfl
  | reset ht =>
    obtain ⟨-, rfl⟩ := reset_eq_ok ht
    exact after rfl

/-- A call that asks for a window of so many slots has none so far, whatever has happened since. -/
inductive Blocked (minimum : Nat) (h : RingHistory) : RingHistory → Prop
  | call {s : RingSession} : h.session.acquire minimum = .ok s →
      (∀ w, s.writer ≠ .writing w) → Blocked minimum h { h with session := s }
  | step {t t' : RingHistory} : Blocked minimum h t → Step t t' →
      (∀ w, t'.session.writer ≠ .writing w) → Blocked minimum h t'

/-- A call that asks for a window of so many slots returns it, at once or after it was blocked. -/
inductive Locks (minimum : Nat) (h : RingHistory) : RingHistory → PacketWindow → Prop
  | atOnce {s : RingSession} {w : PacketWindow} : h.session.acquire minimum = .ok s →
      s.writer = .writing w → Locks minimum h { h with session := s } w
  | later {t t' : RingHistory} {w : PacketWindow} : Blocked minimum h t → Step t t' →
      t'.session.writer = .writing w → Locks minimum h t' w

theorem Asked.waits (ha : Asked minimum h) (hn : ∀ w, h.session.writer ≠ .writing w) :
    ∃ told, h.session.writer = .waiting minimum told := by
  cases ha with
  | waiting hw => exact ⟨_, hw⟩
  | writing _ hw => exact absurd hw (hn _)

theorem Blocked.waits (hb : Blocked minimum h t) (hr : h.Reachable) :
    t.Reachable ∧ ∃ told, t.session.writer = .waiting minimum told := by
  induction hb with
  | call ha hn => exact ⟨hr.step (.acquire ha), (asked_of_acquire ha).waits hn⟩
  | step _ hstep hn ih =>
    obtain ⟨ht, _, hw⟩ := ih
    exact ⟨ht.step hstep, (hstep.asked ht hw).waits hn⟩

theorem Locks.asked (hl : Locks minimum h t w) (hr : h.Reachable) :
    t.Reachable ∧ t.session.writer = .writing w ∧ Asked minimum t := by
  cases hl with
  | atOnce ha hw => exact ⟨hr.step (.acquire ha), hw, asked_of_acquire ha⟩
  | later hb hstep hw =>
    obtain ⟨ht, _, hwaiting⟩ := hb.waits hr
    exact ⟨ht.step hstep, hw, hstep.asked ht hwaiting⟩

theorem Locks.eq_window (hl : Locks minimum h t w) (hr : h.Reachable) :
    t.session.ring.canOpen minimum = true ∧ w = t.session.ring.window := by
  obtain ⟨-, hw, hasked⟩ := hl.asked hr
  cases hasked with
  | waiting hw' => cases hw.symm.trans hw'
  | writing hc hw' => exact ⟨hc, RingWriter.writing.inj (hw.symm.trans hw')⟩

/-- Whenever a call that asks for a window returns, the window is empty exactly if the ring is
stopped. Otherwise it has as many slots as were asked for or as there are up to the end, and goes
over the free slots from the write index on, as far as they reach. -/
theorem Locks.window_size (hl : Locks minimum h t w) (hr : h.Reachable) :
    (w.packets = [] ↔ t.session.ring.stopped = true) ∧
    (t.session.ring.stopped = false →
      min (max minimum 1) (t.session.ring.capacity - t.session.ring.writeIndex) ≤
        w.packets.length ∧
      1 ≤ min (max minimum 1) (t.session.ring.capacity - t.session.ring.writeIndex) ∧
      (∀ i < w.packets.length, t.session.ring.IsFree (t.session.ring.writeIndex + i)) ∧
      ¬ t.session.ring.IsFree (t.session.ring.writeIndex + w.packets.length)) := by
  have hv := (hl.asked hr).1.sound.valid
  obtain ⟨hc, rfl⟩ := hl.eq_window hr
  have hone := PacketRing.one_le_wanted hv minimum
  have hlength := t.session.ring.length_window
  cases hs : t.session.ring.stopped with
  | true =>
    rw [hs, if_pos rfl] at hlength
    exact ⟨iff_of_true (List.eq_nil_of_length_eq_zero hlength) rfl, nofun⟩
  | false =>
    rw [hs, if_neg Bool.false_ne_true] at hlength
    have hle := PacketRing.wanted_le_of_canOpen hc hs
    refine ⟨iff_of_false ?_ Bool.false_ne_true, fun _ ↦ ?_⟩
    · intro hnil
      rw [hnil, List.length_nil] at hlength
      omega
    · rw [hlength]
      exact ⟨hle, hone, fun i hi ↦ PacketRing.isFree_of_lt_freeRun hv hi,
        PacketRing.not_isFree_freeRun hv⟩

theorem window_size_fewer_slots : full.Reachable ∧ full.session.ring.freeRun = 0 ∧
    ∃ (t : RingHistory) (w : PacketWindow), Locks 2 full t w ∧ t.session.ring.capacity = 1 ∧
      t.session.ring.stopped = false ∧ w.packets ≠ [] ∧
      t.session.ring.IsFree t.session.ring.writeIndex ∧
      ¬ t.session.ring.IsFree (t.session.ring.writeIndex + w.packets.length) := by
  let ring : PacketRing := { slots := [.null], windowTaken := true, generation := 1 }
  let last : RingHistory := { session := { ring, writer := .waiting 2 true } }
  have b₀ : Blocked 2 full _ := .call rfl nofun
  have b₁ := b₀.step (@Step.take _ _ _ rfl rfl) nofun
  have b₂ := b₁.step Step.wakeWriter nofun
  have b₃ : Blocked 2 full last := b₂.step (@Step.reset _ 1 _ rfl) nofun
  have hlocks : Locks 2 full { last with session := last.session.wakeWriter } ring.window :=
    .later b₃ Step.wakeWriter rfl
  obtain ⟨hstopped, hsize⟩ := hlocks.window_size reachable_full
  obtain ⟨hle, hone, hfree, hend⟩ := hsize rfl
  exact ⟨reachable_full, rfl, _, _, hlocks, rfl, rfl,
    fun hnil ↦ Bool.false_ne_true (hstopped.1 hnil), hfree 0 (hone.trans hle), hend⟩

end RingHistory

end TransportStream
