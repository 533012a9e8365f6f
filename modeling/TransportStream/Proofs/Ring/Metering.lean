import TransportStream.Proofs.Bitrate.ConstantRate
import TransportStream.Proofs.Ring.Measuring
import TransportStream.Proofs.Ring.Windows

namespace TransportStream

open BitrateEstimator RingSession

def PacketRing.sent (r : PacketRing) (packets : List Packet) : List Sent :=
  packets.map fun p ↦ ⟨p, decide (r.declaredBitrate = 0)⟩

namespace Sent

variable {r : PacketRing} {packets : List Packet}

theorem packet_sent : (r.sent packets).map (·.packet) = packets := by
  rw [PacketRing.sent, List.map_map]
  exact List.map_id' packets

theorem seen_sent : seen (r.sent packets) = if r.declaredBitrate = 0 then packets else [] := by
  unfold seen PacketRing.sent
  rw [List.filter_map, List.map_map]
  split
  · next hd => simp [Function.comp_def, hd]
  · next hd => simp [Function.comp_def, hd]

theorem measure_eq : r.measure packets = (r.estimator.feedAll (seen (r.sent packets))).value := by
  rw [seen_sent, PacketRing.measure]
  split <;> rfl

end Sent

namespace RingHistory

variable {h h' : RingHistory} {record : List Sent} {w : PacketWindow}

/-- What was published since the last reset, as the estimator saw it. -/
inductive Recorded : RingHistory → List Sent → Prop
  | start {capacity : Nat} {ring : PacketRing} :
      PacketRing.create capacity = .ok ring → Recorded { session := { ring } } []
  | publish {h : RingHistory} {record : List Sent} {w : PacketWindow} {n k : Nat}
      {s : RingSession} : Recorded h record → h.session.writer = .writing w →
      (h.session.publish n).value = .ok (s, some k) →
      Recorded { h with session := s, published := h.published ++ w.packets.take k }
        (record ++ h.session.ring.sent (w.packets.take k))
  | reset {h : RingHistory} {record : List Sent} {capacity : Nat} {s : RingSession} :
      Recorded h record → h.session.reset capacity = .ok s → Recorded { session := s } []
  | other {h h' : RingHistory} {record : List Sent} :
      Recorded h record → Step h h' → h'.published = h.published → Recorded h' record

theorem Recorded.reachable (hr : Recorded h record) : h.Reachable := by
  induction hr with
  | start hc => exact .start hc
  | publish _ hw hp ih => exact ih.step (.publish hw hp)
  | reset _ hreset ih => exact ih.step (.reset hreset)
  | other _ hstep _ ih => exact ih.step hstep

structure Metered (h : RingHistory) (record : List Sent) : Prop where
  packets : record.map (·.packet) = h.published
  estimator : h.session.writer = .idle ∧ h.session.ring.windowTaken = true ∨
    (standard.feedAll (Sent.seen record)).value = .ok h.session.ring.estimator

theorem Metered.publish (hm : Metered h record) {part : List Packet}
    (hne : h.session.writer ≠ .idle)
    (hmeasure : h.session.ring.measure part = .ok h'.session.ring.estimator)
    (hp : h'.published = h.published ++ part) :
    Metered h' (record ++ h.session.ring.sent part) where
  packets := by rw [List.map_append, Sent.packet_sent, hm.packets, hp]
  estimator := by
    have hfed := hm.estimator.resolve_left fun hi ↦ hne hi.1
    rw [Sent.measure_eq] at hmeasure
    rw [Sent.seen_append, feedAll_append, Traced.value_bind_of_ok hfed]
    exact .inr hmeasure

theorem Metered.reset (hm : Metered h record)
    (hw : h'.session.writer = .idle ↔ h.session.writer = .idle)
    (ht : h'.session.ring.windowTaken = h.session.ring.windowTaken)
    (he : h'.session.ring.estimator = h.session.ring.estimator.reset) (hp : h'.published = []) :
    Metered h' [] where
  packets := hp.symm
  estimator := by
    rw [hw, ht, he]
    exact hm.estimator.imp_right fun hfed ↦ congrArg Except.ok (reset_of_feedAll hfed).symm

theorem Metered.other (hm : Metered h record) (measured : h.Measured) (heffect : Effect h h')
    (hp : h'.published = h.published) : Metered h' record := by
  have hpackets : record.map (·.packet) = h'.published := hm.packets.trans hp.symm
  cases heffect with
  | none hw ht he _ =>
    refine ⟨hpackets, ?_⟩
    rw [hw, ht, he]
    exact hm.estimator
  | claim hfree _ he _ =>
    refine ⟨hpackets, .inr ?_⟩
    rw [he]
    refine hm.estimator.resolve_left fun hi ↦ ?_
    rw [hfree] at hi
    cases hi.2
  | fail hne hidle ht _ => exact ⟨hpackets, .inl ⟨hidle, ht.trans (measured.taken hne)⟩⟩
  | publish hne _ hmeasure hpart =>
    -- nothing was published
    obtain rfl := List.append_right_eq_self.1 (hpart.symm.trans hp)
    have hpublish := hm.publish hne hmeasure hpart
    rwa [PacketRing.sent, List.map_nil, List.append_nil] at hpublish
  | reset hw ht he hnil =>
    obtain rfl := List.map_eq_nil_iff.1 (hpackets.trans hnil)
    exact hm.reset hw ht he hnil

theorem Recorded.metered (hr : Recorded h record) : Metered h record := by
  induction hr with
  | start hc =>
    obtain ⟨slots, -, hc⟩ := bind_eq_ok_iff.1 hc
    cases hc
    exact ⟨rfl, .inr rfl⟩
  | publish hr hw hp ih =>
    obtain ⟨-, hmeasure⟩ := measure_of_publish hr.reachable.sound.valid hw hp
    exact ih.publish (by rw [hw]; nofun) hmeasure rfl
  | reset _ hreset ih =>
    obtain ⟨-, rfl⟩ := reset_eq_ok hreset
    exact ih.reset (writer_after_eq_idle_iff _ _ _) rfl rfl rfl
  | other hr hstep hp ih =>
    exact ih.other hr.reachable.measured (hstep.effect hr.reachable.sound.valid) hp

inductive Reports (h : RingHistory) : Nat → Prop
  | ask : Reports h h.session.ring.bitrate
  | take {s : RingSession} {p : Packet} {bitrate : Nat} :
      h.session.take = .ok (s, some (p, bitrate)) → Reports h bitrate
  | read {room : Nat} {s : RingSession} {batch : Batch} :
      h.session.Returns room s batch → Reports h batch.bitrate

theorem Reports.eq {bitrate : Nat} (hb : h.Reports bitrate) (hv : h.session.ring.Valid) :
    bitrate = h.session.ring.bitrate := by
  cases hb with
  | ask => rfl
  | take ht =>
    rw [take_eq hv, Except.ok.injEq] at ht
    split at ht
    · cases ht
    · rw [Prod.mk.injEq, Option.map_eq_some_iff] at ht
      obtain ⟨-, q, -, hq⟩ := ht
      exact (congrArg Prod.snd hq).symm
  | read hret =>
    have ht := hret.tryRead
    rw [tryRead_eq hv, Except.ok.injEq] at ht
    split at ht <;> cases ht
    rfl

theorem bitrate_of_undeclared (hd : h.session.ring.declaredBitrate = 0) :
    h.session.ring.bitrate = h.session.ring.estimator.bitrate :=
  if_neg (not_not.2 hd)

/-- A stream of constant rate has its bitrate, as soon as the ring gives one, if no packets are
missing between the readings that are compared. -/
theorem Recorded.bitrate_of_constantRate (hr : Recorded h record)
    (intact : h.session.writer = .idle → h.session.ring.windowTaken = false) {k : Nat}
    {offset : Pid → Nat} (rate : ConstantRate k offset record) (seamless : Seamless k record)
    (undeclared : h.session.ring.declaredBitrate = 0) :
    record.map (·.packet) = h.published ∧
    ∀ bitrate, h.Reports bitrate → bitrate = 0 ∨ bitrate = 188 * 8 * 27000000 / k := by
  have hm := hr.metered
  have hfed := hm.estimator.resolve_left fun hi ↦ by
    rw [intact hi.1] at hi
    cases hi.2
  have hgauges := gauges_of_feedAll rate seamless hfed
  refine ⟨hm.packets, fun bitrate hb ↦ ?_⟩
  rw [hb.eq hr.reachable.sound.valid, bitrate_of_undeclared undeclared]
  exact hgauges.tallied.bitrate_eq hgauges.intervals

structure Ready (s : RingSession) (n : Nat) : Prop where
  idle : s.writer = .idle
  free : s.ring.windowTaken = false
  running : s.ring.stopped = false
  room : n ≤ s.ring.freeRun

theorem Recorded.put (packets : List Packet) {n : Nat} {e : BitrateEstimator}
    (hr : Recorded h record) (ready : Ready h.session (packets.length + n)) (hne : packets ≠ [])
    (measured : h.session.ring.measure packets = .ok e) :
    ∃ h', Recorded h' (record ++ h.session.ring.sent packets) ∧ Ready h'.session n ∧
      h'.session.ring.declaredBitrate = h.session.ring.declaredBitrate ∧
      h'.session.ring.estimator = e := by
  have hv := hr.reachable.sound.valid
  have hroom : packets.length ≤ h.session.ring.freeRun := (Nat.le_add_right _ _).trans ready.room
  let claimed : RingSession := { h.session with
    ring := { h.session.ring with windowTaken := true } }
  have hcan : claimed.ring.canOpen 1 = true := by
    have hpos := List.length_pos_iff.2 hne
    have hwanted : claimed.ring.wanted 1 ≤ 1 := Nat.min_le_left _ _
    have hfree : 1 ≤ claimed.ring.freeRun := Nat.le_trans hpos hroom
    simp only [PacketRing.canOpen, Bool.or_eq_true, decide_eq_true_eq]
    exact .inr (hwanted.trans hfree)
  have hacquire : h.session.acquire 1 =
      .ok { claimed with writer := .writing claimed.ring.window } := by
    rw [acquire_of_not_taken ready.free]
    exact congrArg Except.ok (if_pos hcan)
  have hopen := Opens.open (.acquire hacquire rfl) hv
  have hstopped : claimed.ring.stopped = false := ready.running
  rw [hstopped] at hopen
  have hlength : packets.length ≤ claimed.ring.window.packets.length := by
    rw [PacketRing.window, List.length_replicate, hstopped]
    exact hroom
  obtain ⟨w, slots, hwrite, hpart, hover, hpublish⟩ := hopen.write_publish hlength
  have h₁ := hr.other (.acquire hacquire) rfl
  have h₂ := h₁.other (.write hwrite) rfl
  have h₃ := h₂.publish rfl (hpublish.trans (bind_eq_ok_iff.2 ⟨e, measured, rfl⟩))
  rw [hpart] at h₃
  refine ⟨_, h₃, ⟨rfl, rfl, ready.running, ?_⟩, rfl, rfl⟩
  have hextend := PacketRing.freeRun_le_extend hv hroom hover e
  have hle := ready.room
  show n ≤ (h.session.ring.extend slots packets e).freeRun
  omega

def onTime (i : Nat) : Packet := .clockOnly { val := 256 } .zero (.ofTicks (27000 * i))

theorem fed_of_bitrate {packets : List Packet} {bitrate : Nat}
    (h : (standard.feedAll packets).value.toOption.map (·.bitrate) = some bitrate) :
    ∃ e, (standard.feedAll packets).value = .ok e ∧ e.bitrate = bitrate := by
  cases he : (standard.feedAll packets).value with
  | ok e =>
    rw [he] at h
    exact ⟨e, rfl, Option.some.inj h⟩
  | error fault =>
    rw [he] at h
    cases h

theorem bitrate_of_constantRate_onTime : ∃ (h : RingHistory) (record : List Sent),
    Recorded h record ∧ (h.session.writer = .idle → h.session.ring.windowTaken = false) ∧
    ConstantRate 27000 (fun _ ↦ 0) record ∧ Seamless 27000 record ∧
    h.session.ring.declaredBitrate = 0 ∧ h.Reports 1504000 ∧
    ∀ bitrate, h.Reports bitrate → bitrate = 0 ∨ bitrate = 188 * 8 * 27000000 / 27000 := by
  let packets := (List.range 17).map onTime
  have h₀ := @Recorded.start 64 _ rfl
  obtain ⟨e, he, hbitrate⟩ : ∃ e, (standard.feedAll packets).value = .ok e ∧
      e.bitrate = 1504000 := fed_of_bitrate (by decide +kernel)
  obtain ⟨h, hr, hready, hdeclared, hestimator⟩ :=
    h₀.put packets (n := 47) ⟨rfl, rfl, rfl, by decide⟩ nofun he
  have hd : h.session.ring.declaredBitrate = 0 := hdeclared
  have rate : ConstantRate 27000 (fun _ ↦ 0) (packets.map (⟨·, true⟩)) :=
    constantRate_of_short (by decide) (by decide) (by decide +kernel)
  have seamless : Seamless 27000 (packets.map (⟨·, true⟩)) :=
    seamless_of_measured (by decide +kernel)
  have hreports : h.Reports 1504000 := by
    rw [← hbitrate, ← hestimator, ← bitrate_of_undeclared hd]
    exact .ask
  exact ⟨h, _, hr, fun _ ↦ hready.free, rate, seamless, hd, hreports,
    (hr.bitrate_of_constantRate (fun _ ↦ hready.free) rate seamless hd).2⟩

/-- Sixteen packets on time, one that is published under a declared bitrate, and another one on
time. The estimate leaves out the packet between. -/
theorem bitrate_skips_declared : ∃ (h : RingHistory) (record : List Sent),
    Recorded h record ∧ (h.session.writer = .idle → h.session.ring.windowTaken = false) ∧
    h.published = (List.range 16).map onTime ++ [.null, onTime 17] ∧
    ConstantRate 27000 (fun _ ↦ 0) record ∧ h.session.ring.declaredBitrate = 0 ∧
    h.Reports 1415529 ∧ ¬ (1415529 = 0 ∨ 1415529 = 188 * 8 * 27000000 / 27000) := by
  let packets := (List.range 16).map onTime
  have h₀ := @Recorded.start 64 _ rfl
  obtain ⟨e₁, he₁, -⟩ : ∃ e, (standard.feedAll packets).value = .ok e ∧ e.bitrate = 0 :=
    fed_of_bitrate (by decide +kernel)
  obtain ⟨e₂, he₂, hbitrate⟩ : ∃ e, (standard.feedAll (packets ++ [onTime 17])).value = .ok e ∧
      e.bitrate = 1415529 := fed_of_bitrate (by decide +kernel)
  rw [feedAll_append, Traced.value_bind_of_ok he₁] at he₂
  obtain ⟨h₁, hr₁, hready₁, -, rfl⟩ :=
    h₀.put packets (n := 2) ⟨rfl, rfl, rfl, by decide⟩ nofun he₁
  have hr₂ := hr₁.other (@Step.declareBitrate _ 1) rfl
  obtain ⟨h₃, hr₃, hready₃, -, he₃⟩ := hr₂.put [.null] (n := 1)
    ⟨hready₁.idle, hready₁.free, hready₁.running, hready₁.room⟩ nofun rfl
  have hr₄ := hr₃.other (@Step.declareBitrate _ 0) rfl
  obtain ⟨h, hr, hready, hd, he⟩ := hr₄.put [onTime 17] (n := 0)
    ⟨hready₃.idle, hready₃.free, hready₃.running, hready₃.room⟩ nofun
    ((congrArg (fun e ↦ (e.feedAll [onTime 17]).value) he₃).trans he₂)
  have rate : ConstantRate 27000 (fun _ ↦ 0)
      (packets.map (⟨·, true⟩) ++ [⟨.null, false⟩] ++ [⟨onTime 17, true⟩]) :=
    constantRate_of_short (by decide) (by decide) (by decide +kernel)
  have hreports : h.Reports 1415529 := by
    rw [← hbitrate, ← he, ← bitrate_of_undeclared hd]
    exact .ask
  exact ⟨h, _, hr, fun _ ↦ hready.free, hr.metered.packets.symm, rate, hd, hreports, by decide⟩

end RingHistory

end TransportStream
