import TransportStream.Proofs.Bitrate.Stream
import TransportStream.Proofs.Ring.Publishing

namespace TransportStream

theorem RingWriter.tell_eq_idle_iff (w : RingWriter) : w.tell = .idle ↔ w = .idle := by
  cases w <;> simp [tell]

namespace RingSession

theorem writer_after_eq_idle_iff (s : RingSession) (ring : PacketRing) (signals : Signals) :
    (s.after ring signals).writer = .idle ↔ s.writer = .idle := by
  show (if signals.writer then s.writer.tell else s.writer) = _ ↔ _
  split
  · exact RingWriter.tell_eq_idle_iff _
  · exact Iff.rfl

theorem writer_tryOpen_ne_idle (s : RingSession) (minimum : Nat) :
    (s.tryOpen minimum).writer ≠ .idle := by
  unfold tryOpen
  split <;> simp

end RingSession

namespace RingHistory

open BitrateEstimator RingSession

variable {h h' : RingHistory} {w : PacketWindow}

inductive Effect (h h' : RingHistory) : Prop
  | none : (h'.session.writer = .idle ↔ h.session.writer = .idle) →
      h'.session.ring.windowTaken = h.session.ring.windowTaken →
      h'.session.ring.estimator = h.session.ring.estimator → h'.published = h.published →
      Effect h h'
  | claim : h.session.ring.windowTaken = false → h'.session.ring.windowTaken = true →
      h'.session.ring.estimator = h.session.ring.estimator → h'.published = h.published →
      Effect h h'
  | publish {part : List Packet} : h.session.writer ≠ .idle → h'.session.writer = .idle →
      h.session.ring.measure part = .ok h'.session.ring.estimator →
      h'.published = h.published ++ part → Effect h h'
  | fail : h.session.writer ≠ .idle → h'.session.writer = .idle →
      h'.session.ring.windowTaken = h.session.ring.windowTaken → h'.published = h.published →
      Effect h h'
  | reset : (h'.session.writer = .idle ↔ h.session.writer = .idle) →
      h'.session.ring.windowTaken = h.session.ring.windowTaken →
      h'.session.ring.estimator = h.session.ring.estimator.reset → h'.published = [] →
      Effect h h'

theorem effect_tryRead (hv : h.session.ring.Valid) {room : Nat} {s : RingSession}
    {batch : Option Batch} {received : List Packet}
    (ht : h.session.tryRead room = .ok (s, batch)) :
    Effect h { h with session := s, received := received } := by
  rw [tryRead_eq hv, Except.ok.injEq] at ht
  split at ht <;> cases ht
  · exact .none (writer_after_eq_idle_iff _ _ _) rfl rfl rfl
  · exact .none Iff.rfl rfl rfl rfl

theorem Step.effect (hstep : Step h h') (hv : h.session.ring.Valid) : Effect h h' := by
  cases hstep with
  | acquire ha =>
    have hfree := not_taken_of_acquire ha
    obtain rfl := acquire_eq_ok ha
    refine .claim hfree ?_ ?_ rfl <;> rw [ring_tryOpen]
  | wakeWriter =>
    refine .none ?_ ?_ ?_ rfl
    · show h.session.wakeWriter.writer = .idle ↔ _
      unfold RingSession.wakeWriter
      split
      · next hw =>
        rw [hw]
        exact iff_of_false (writer_tryOpen_ne_idle _ _) nofun
      all_goals exact Iff.rfl
    · rw [ring_wakeWriter]
    · rw [ring_wakeWriter]
  | write hw =>
    unfold RingSession.write at hw
    split at hw
    · next w hwriting =>
      obtain ⟨_, -, hw⟩ := bind_eq_ok_iff.1 hw
      cases hw
      refine .none ?_ rfl rfl rfl
      rw [hwriting]
      exact iff_of_false nofun nofun
    all_goals
      cases hw
      exact .none Iff.rfl rfl rfl rfl
  | publish hw hp =>
    obtain ⟨hidle, hmeasure⟩ := measure_of_publish hv hw hp
    refine .publish ?_ hidle hmeasure rfl
    rw [hw]
    nofun
  | abandon hw _ _ =>
    refine .fail ?_ rfl rfl rfl
    rw [hw]
    nofun
  | take _ ht =>
    rw [take_eq hv, Except.ok.injEq] at ht
    split at ht <;> cases ht
    · exact .none Iff.rfl rfl rfl rfl
    · exact .none (writer_after_eq_idle_iff _ _ _) rfl rfl rfl
  | wait _ ht => exact effect_tryRead hv ht
  | waitAgain hr ht => exact effect_tryRead hv (by simpa only [RingSession.wakeReader, hr] using ht)
  | read hret => exact effect_tryRead hv hret.tryRead
  | declareBitrate => exact .none Iff.rfl rfl rfl rfl
  | finish => exact .none (writer_after_eq_idle_iff _ _ _) rfl rfl rfl
  | stop => exact .none (writer_after_eq_idle_iff _ _ _) rfl rfl rfl
  | reset hr =>
    obtain ⟨-, rfl⟩ := reset_eq_ok hr
    exact .reset (writer_after_eq_idle_iff _ _ _) rfl rfl rfl

/-- A writer that does not idle has the right to write, and the estimator has taken packets that
were published; unless a failed writer has left the right to write for good. -/
structure Measured (h : RingHistory) : Prop where
  taken : h.session.writer ≠ .idle → h.session.ring.windowTaken = true
  estimator : h.session.writer = .idle ∧ h.session.ring.windowTaken = true ∨
    ∃ measured, measured.Sublist h.published ∧
      (standard.feedAll measured).value = .ok h.session.ring.estimator

theorem Measured.step (hm : h.Measured) (hv : h.session.ring.Valid) (hstep : Step h h') :
    h'.Measured := by
  cases hstep.effect hv with
  | none hw ht he hp =>
    refine ⟨fun hne ↦ ht.trans (hm.taken fun hi ↦ hne (hw.2 hi)), ?_⟩
    rw [ht, he, hp, hw]
    exact hm.estimator
  | claim hfree ht he hp =>
    refine ⟨fun _ ↦ ht, .inr ?_⟩
    rw [he, hp]
    refine hm.estimator.resolve_left fun hi ↦ ?_
    rw [hfree] at hi
    cases hi.2
  | @publish part hne hidle hmeasure hp =>
    obtain ⟨measured, hsub, hfed⟩ := hm.estimator.resolve_left fun hi ↦ hne hi.1
    refine ⟨fun hne' ↦ absurd hidle hne', .inr ?_⟩
    rw [hp]
    unfold PacketRing.measure at hmeasure
    split at hmeasure
    · refine ⟨measured ++ part, hsub.append (List.Sublist.refl _), ?_⟩
      rw [feedAll_append, Traced.value_bind_of_ok hfed, hmeasure]
    · exact ⟨measured, hsub.trans (List.sublist_append_left _ _), hfed.trans hmeasure⟩
  | fail hne hidle ht _ =>
    exact ⟨fun hne' ↦ absurd hidle hne', .inl ⟨hidle, ht.trans (hm.taken hne)⟩⟩
  | reset hw ht he hp =>
    refine ⟨fun hne ↦ ht.trans (hm.taken fun hi ↦ hne (hw.2 hi)), ?_⟩
    rw [ht, hw, he, hp]
    refine hm.estimator.imp_right ?_
    rintro ⟨measured, -, hfed⟩
    exact ⟨[], List.Sublist.refl _, congrArg Except.ok (reset_of_feedAll hfed).symm⟩

theorem Reachable.measured (hr : h.Reachable) : h.Measured := by
  induction hr with
  | start hc =>
    obtain ⟨slots, -, hc⟩ := bind_eq_ok_iff.1 hc
    cases hc
    exact ⟨fun hi ↦ absurd rfl hi, .inr ⟨[], List.Sublist.refl _, rfl⟩⟩
  | step hr hstep ih => exact ih.step hr.sound.valid hstep

theorem fitsStream_of_lt {n : Nat} (hn : n < 1 <<< 48) : FitsStream n := by
  show 256 * n < 1 <<< 64
  omega

theorem Measured.publish_iff (hm : h.Measured) (hv : h.session.ring.Valid)
    (hw : h.session.writer = .writing w)
    (room : (h.published ++ w.packets).length < 1 <<< 48) : ∃ measured,
    measured.Sublist h.published ∧
    (standard.feedAll measured).value = .ok h.session.ring.estimator ∧
    ∀ n, (h.session.ring.IsStale w ∨ h.session.ring.declaredBitrate ≠ 0 ∨
        NeverBehind (measured ++ h.session.ring.prefixOf w n) →
        ∃ s k, (h.session.publish n).value = .ok (s, some k)) ∧
      (¬ (h.session.ring.IsStale w ∨ h.session.ring.declaredBitrate ≠ 0 ∨
        NeverBehind (measured ++ h.session.ring.prefixOf w n)) →
        (h.session.publish n).value = .error .overflow) := by
  obtain ⟨measured, hsub, hfed⟩ := hm.estimator.resolve_left fun hi ↦ by
    rw [hw] at hi
    cases hi.1
  refine ⟨measured, hsub, hfed, fun n ↦ ?_⟩
  by_cases hstale : h.session.ring.IsStale w
  · exact ⟨fun _ ↦ ⟨_, _, publish_of_isStale hw hstale n⟩, fun hn ↦ absurd (.inl hstale) hn⟩
  · obtain ⟨slots, -, hvalue⟩ := publish_of_not_isStale hv hw hstale n
    have hfits : FitsStream (measured ++ h.session.ring.prefixOf w n).length := by
      apply fitsStream_of_lt
      have hlength := hsub.length_le
      have htake : (h.session.ring.prefixOf w n).length ≤ w.packets.length :=
        List.length_take_le' _ _
      rw [List.length_append] at room ⊢
      omega
    obtain ⟨htaken, hbehind⟩ := value_feedAll_of_standard hfits hfed
    rw [hvalue, PacketRing.measure]
    by_cases hd : h.session.ring.declaredBitrate = 0
    · rw [if_pos hd]
      constructor
      · intro hok
        obtain ⟨e, he⟩ := htaken ((hok.resolve_left hstale).resolve_left fun hne ↦ hne hd)
        rw [he]
        exact ⟨_, _, rfl⟩
      · intro hn
        rw [hbehind fun hnever ↦ hn (.inr (.inr hnever))]
        rfl
    · rw [if_neg hd]
      exact ⟨fun _ ↦ ⟨_, _, rfl⟩, fun hn ↦ absurd (.inr (.inl hd)) hn⟩

/-- An estimator takes a stream exactly if no clock in it falls behind, as none does whose extension
is below 300; and a window that is not stale fails to be published only when a clock falls behind
those that the estimator of the ring has seen. -/
theorem completes_unless_behind {packets : List Packet} (hp : packets.length < 1 <<< 48)
    (hr : h.Reachable) (hw : h.session.writer = .writing w)
    (room : (h.published ++ w.packets).length < 1 <<< 48) :
    ((NeverBehind packets → ∃ e, (standard.feedAll packets).value = .ok e) ∧
      (¬ NeverBehind packets → (standard.feedAll packets).value = .error .overflow)) ∧
    ((∀ p ∈ packets, ∀ c, p.reading? = some c → c.extension < 300) → NeverBehind packets) ∧
    ∃ measured, measured.Sublist h.published ∧
      (standard.feedAll measured).value = .ok h.session.ring.estimator ∧
      ∀ n, (h.session.ring.IsStale w ∨ h.session.ring.declaredBitrate ≠ 0 ∨
          NeverBehind (measured ++ h.session.ring.prefixOf w n) →
          ∃ s k, (h.session.publish n).value = .ok (s, some k)) ∧
        (¬ (h.session.ring.IsStale w ∨ h.session.ring.declaredBitrate ≠ 0 ∨
          NeverBehind (measured ++ h.session.ring.prefixOf w n)) →
          (h.session.publish n).value = .error .overflow) := by
  obtain ⟨htaken, hbehind⟩ := value_feedAll_standard (fitsStream_of_lt hp)
  exact ⟨⟨fun hnever ↦ (htaken hnever).imp fun _ he ↦ he.1, hbehind⟩, neverBehind_of_extension_lt,
    hr.measured.publish_iff hr.sound.valid hw room⟩

def turning : List Packet :=
  [.clockOnly .pat .zero ⟨8589934591, 299, by decide, by decide⟩,
    .clockOnly .pat .zero ⟨0, 0, by decide, by decide⟩]

theorem completes_unless_behind_turning : turning.length < 1 <<< 48 ∧
    (∃ e, (standard.feedAll turning).value = .ok e) ∧
    ∃ h : RingHistory, h.Reachable ∧ (∃ w, h.session.writer = .writing w ∧ w.packets = turning) ∧
      ∃ s k, (h.session.publish 2).value = .ok (s, some k) := by
  have short : turning.length < 1 <<< 48 := by decide
  have h₀ := @Reachable.start 2 _ rfl
  have h₁ := h₀.step (@Step.acquire _ 1 _ rfl)
  have h₂ := h₁.step (@Step.write _ 0 turning _ rfl)
  have never : ∀ p ∈ turning, ∀ c, p.reading? = some c → c.extension < 300 := by
    have hread : turning.map (·.reading?.map (·.extension)) = [some 299, some 0] := by
      decide +kernel
    intro p hp c hc
    have hmem : some c.extension ∈ turning.map (·.reading?.map (·.extension)) :=
      List.mem_map.2 ⟨p, hp, by rw [hc]; rfl⟩
    simp only [hread, List.mem_cons, List.not_mem_nil, or_false, Option.some.injEq] at hmem
    omega
  obtain ⟨htaken, hnever, measured, hsub, hfed, hpublish⟩ :=
    completes_unless_behind short h₂ rfl (by decide)
  obtain rfl : measured = [] := List.sublist_nil.1 hsub
  exact ⟨short, htaken.1 (hnever never), _, h₂, ⟨_, rfl, rfl⟩,
    (hpublish 2).1 (.inr (.inr (hnever never)))⟩

def overrun : List Packet :=
  [.clockOnly .pat .zero ⟨8589934591, 511, by decide, by decide⟩,
    .clockOnly .pat .zero ⟨0, 0, by decide, by decide⟩]

theorem not_neverBehind_overrun : ¬ NeverBehind overrun := by
  intro h
  apply h 1 (.clockOnly .pat .zero ⟨0, 0, by decide, by decide⟩) rfl
  exact ⟨by decide +kernel, 2576980377811, ⟨0, 0, by decide, by decide⟩, by decide +kernel,
    by decide +kernel, by decide⟩

theorem overrun_overflows : overrun.length < 1 <<< 48 ∧
    (∀ p ∈ overrun, p.bytes.head? = some Packet.syncByte) ∧
    (standard.feedAll overrun).value = .error .overflow ∧
    ∃ h : RingHistory, h.Reachable ∧ (∃ w, h.session.writer = .writing w ∧ w.packets = overrun) ∧
      (h.session.publish 2).value = .error .overflow := by
  have sync : ∀ p ∈ overrun, p.bytes.head? = some Packet.syncByte :=
    List.forall_mem_cons.2 ⟨rfl, List.forall_mem_cons.2 ⟨rfl, List.forall_mem_nil _⟩⟩
  have short : overrun.length < 1 <<< 48 := by decide
  have h₀ := @Reachable.start 2 _ rfl
  have h₁ := h₀.step (@Step.acquire _ 1 _ rfl)
  have h₂ := h₁.step (@Step.write _ 0 overrun _ rfl)
  obtain ⟨measured, hsub, -, hpublish⟩ := h₂.measured.publish_iff h₂.sound.valid rfl short
  obtain rfl : measured = [] := List.sublist_nil.1 hsub
  refine ⟨short, sync, (value_feedAll_standard (fitsStream_of_lt short)).2 not_neverBehind_overrun,
    _, h₂, ⟨_, rfl, rfl⟩, (hpublish 2).2 ?_⟩
  rintro ((hg | hs) | hd | hnever)
  · exact hg rfl
  · cases hs
  · exact hd rfl
  · exact not_neverBehind_overrun hnever

end RingHistory

end TransportStream
