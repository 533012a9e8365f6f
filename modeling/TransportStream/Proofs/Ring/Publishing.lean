import TransportStream.Proofs.Ring.History

namespace TransportStream

namespace PacketRing

variable {r : PacketRing} {w : PacketWindow} {n : Nat}

/-- The estimator after packets have been published. It sees only those whose bitrate is not
declared. -/
def measure (r : PacketRing) (part : List Packet) : Except Fault BitrateEstimator :=
  if r.declaredBitrate = 0 then (r.estimator.feedAll part).value else .ok r.estimator

theorem not_isStale_iff : ¬ r.IsStale w ↔ w.generation = r.generation ∧ r.stopped = false := by
  rw [IsStale, not_or, ne_eq, not_not, Bool.not_eq_true]

theorem publish_of_isStale (h : r.IsStale w) (n : Nat) :
    (r.publish w n).value = .ok ({ r with windowTaken := false }, 0, {}) := by
  have hn : ¬ (w.generation = r.generation ∧ !r.stopped) := by
    rintro ⟨hg, hs⟩
    exact h.elim (· hg) fun hs' ↦ by simp [hs'] at hs
  rw [publish, if_neg hn]
  split <;> rfl

theorem publish_of_not_isStale (hv : r.Valid) (h : ¬ r.IsStale w) (n : Nat) : ∃ slots,
    overwrite r.slots r.writeIndex (r.prefixOf w n) = .ok slots ∧
    (r.publish w n).value = r.measure (r.prefixOf w n) >>= fun e ↦
      .ok (r.extend slots (r.prefixOf w n) e, (r.prefixOf w n).length,
        { reader := !(r.prefixOf w n).isEmpty }) := by
  obtain ⟨hg, hs⟩ := not_isStale_iff.1 h
  obtain ⟨slots, ho⟩ := overwrite_free hv (length_prefixOf_le w n)
  refine ⟨slots, ho, ?_⟩
  unfold prefixOf at ho ⊢
  rw [publish, if_pos ⟨hg, by rw [hs]; rfl⟩, Traced.value_bind, Traced.value_liftM, ho, measure]
  show Traced.value (if r.declaredBitrate = 0 then _ else _) = _
  by_cases hd : r.declaredBitrate = 0
  · rw [if_pos hd, if_pos hd, Traced.value_bind]
    rfl
  · rw [if_neg hd, if_neg hd]
    rfl

end PacketRing

namespace RingSession

variable {s : RingSession} {w : PacketWindow}

theorem value_publish (hw : s.writer = .writing w) (n : Nat) :
    (s.publish n).value = (s.ring.publish w n).value >>= fun (ring, k, signals) ↦
      .ok ({ s with writer := .idle }.after ring signals, some k) := by
  rw [publish, hw, Traced.value_bind]
  rfl

theorem publish_of_isStale (hw : s.writer = .writing w) (h : s.ring.IsStale w) (n : Nat) :
    (s.publish n).value =
      .ok ({ s with writer := .idle, ring := { s.ring with windowTaken := false } }, some 0) := by
  rw [value_publish hw, PacketRing.publish_of_isStale h]
  rfl

theorem publish_of_not_isStale (hv : s.ring.Valid) (hw : s.writer = .writing w)
    (h : ¬ s.ring.IsStale w) (n : Nat) : ∃ slots,
    overwrite s.ring.slots s.ring.writeIndex (s.ring.prefixOf w n) = .ok slots ∧
    (s.publish n).value = s.ring.measure (s.ring.prefixOf w n) >>= fun e ↦
      .ok ({ s with writer := .idle }.after (s.ring.extend slots (s.ring.prefixOf w n) e)
        { reader := !(s.ring.prefixOf w n).isEmpty }, some (s.ring.prefixOf w n).length) := by
  obtain ⟨slots, ho, hp⟩ := PacketRing.publish_of_not_isStale hv h n
  refine ⟨slots, ho, ?_⟩
  rw [value_publish hw, hp]
  cases s.ring.measure (s.ring.prefixOf w n) <;> rfl

theorem measure_of_publish {t : RingSession} {n k : Nat} (hv : s.ring.Valid)
    (hw : s.writer = .writing w) (hp : (s.publish n).value = .ok (t, some k)) :
    t.writer = .idle ∧ s.ring.measure (w.packets.take k) = .ok t.ring.estimator := by
  by_cases hstale : s.ring.IsStale w
  · rw [publish_of_isStale hw hstale, Except.ok.injEq, Prod.mk.injEq, Option.some.injEq] at hp
    obtain ⟨rfl, rfl⟩ := hp
    refine ⟨rfl, ?_⟩
    unfold PacketRing.measure
    split <;> rfl
  · obtain ⟨slots, -, hvalue⟩ := publish_of_not_isStale hv hw hstale n
    rw [hvalue] at hp
    obtain ⟨e, he, hp⟩ := bind_eq_ok_iff.1 hp
    rw [Except.ok.injEq, Prod.mk.injEq, Option.some.injEq] at hp
    obtain ⟨rfl, rfl⟩ := hp
    have hpart : w.packets.take (s.ring.prefixOf w n).length = s.ring.prefixOf w n := by
      rw [PacketRing.prefixOf, List.length_take, List.take_eq_take_iff]
      omega
    rw [hpart]
    exact ⟨rfl, he⟩

end RingSession

end TransportStream
