import TransportStream.Proofs.Pacing.Limits

namespace TransportStream.Pacer

variable {c : Pacer} {waiting more : Nat}

theorem Presses.mono (h : c.Presses waiting) (hle : waiting ≤ more) : c.Presses more :=
  ⟨h.1, h.2.1, Nat.lt_of_lt_of_le h.2.2 hle⟩

theorem Presses.of_above (h : c.Presses more) (above : c.alert < waiting) : c.Presses waiting :=
  ⟨h.1, h.2.1, above⟩

theorem factor_accelerated_mono (c : Pacer) (hle : waiting ≤ more) :
    (c.accelerated waiting).factor ≤ (c.accelerated more).factor := by
  by_cases hone : c.factor = 1
  · exact Nat.le_of_eq (by rw [accelerated_of_one hone, accelerated_of_one hone])
  · have hrecord : c.maxBacklog < waiting → c.maxBacklog < more := fun h ↦
      Nat.lt_of_lt_of_le h hle
    rw [accelerated_of_ne_one hone, accelerated_of_ne_one hone]
    show (if c.maxBacklog < waiting then c.factor + 1 else c.factor) ≤
      if c.maxBacklog < more then c.factor + 1 else c.factor
    split <;> split <;> omega

theorem multipliedShare_accelerated_mono (c : Pacer) (hle : waiting ≤ more) :
    (c.accelerated waiting).multipliedShare ≤ (c.accelerated more).multipliedShare :=
  Nat.mul_le_mul_left _ (factor_accelerated_mono c hle)

theorem Inserts.mono (h : c.Inserts waiting) (hle : waiting ≤ more) : c.Inserts more := by
  rcases h with unknown | due | ⟨above, due⟩
  · exact .inl unknown
  · exact .inr (.inl due)
  · exact .inr (.inr ⟨Nat.lt_of_lt_of_le above hle,
      Nat.le_trans due (multipliedShare_accelerated_mono c hle)⟩)

theorem Fits.anti (h : c.Fits more) (hle : waiting ≤ more) : c.Fits waiting where
  share := h.share
  factor presses hne hrecord :=
    h.factor (presses.mono hle) hne (Nat.lt_of_lt_of_le hrecord hle)
  accelerated presses := by
    obtain ⟨hmain, hsub, hshare, hmultiplied, hused⟩ := h.accelerated (presses.mono hle)
    exact ⟨hmain, hsub, hshare,
      Nat.lt_of_le_of_lt (multipliedShare_accelerated_mono c hle) hmultiplied, hused⟩

theorem factor_next_mono (above : c.alert < waiting) (hle : waiting ≤ more) :
    (c.next waiting).factor ≤ (c.next more).factor := by
  by_cases presses : c.Presses waiting
  · rw [next_of_presses presses, next_of_presses (presses.mono hle)]
    exact factor_accelerated_mono c hle
  · have calm : ¬ c.Presses more := fun h ↦ presses (h.of_above above)
    refine Nat.le_of_eq (congrArg Pacer.factor ?_)
    rw [next_of_not_presses presses, next_of_not_presses calm, relaxed_of_lt above,
      relaxed_of_lt (Nat.lt_of_lt_of_le above hle)]

/-- Two decisions in the same state. Unless the one for the larger backlog overflows, both give an
answer, and a slot taken for the smaller backlog is taken for the larger one; above the alert level
the factor is not smaller afterwards either. -/
theorem decideSlot_mono (hle : waiting ≤ more)
    (room : (c.decideSlot more).value ≠ .error .overflow) :
    ∃ next inserted next' inserted', (c.decideSlot waiting).value = .ok (next, inserted) ∧
      (c.decideSlot more).value = .ok (next', inserted') ∧
      (inserted = true → inserted' = true) ∧
      (c.alert < waiting → next.factor ≤ next'.factor) := by
  have fits : c.Fits more := Classical.byContradiction fun h ↦
    room (decideSlot_eq_overflow_iff.2 h)
  refine ⟨_, _, _, _, decideSlot_eq_ok_iff.2 ⟨fits.anti hle, rfl, rfl⟩,
    decideSlot_eq_ok_iff.2 ⟨fits, rfl, rfl⟩, fun h ↦ ?_, fun above ↦ factor_next_mono above hle⟩
  exact decide_eq_true ((of_decide_eq_true h).mono hle)

theorem decideSlot_mono_record : ∃ c next next' : Pacer, c.factor = 2 ∧
    (c.decideSlot 17).value = .ok (next, true) ∧ (c.decideSlot 25).value = .ok (next', true) ∧
    next.factor ≤ next'.factor ∧ next'.factor = 3 := by
  let c : Pacer :=
    { mainPackets := 30, subPackets := 3, factor := 2, subAnchor := 1, maxBacklog := 17
      mainBitrate := { stream := .main, value := 20 }
      subBitrate := { stream := .sub, value := 1 } }
  have hfewer : (c.decideSlot 17).value = .ok (c.next 17, true) := rfl
  have hmore : (c.decideSlot 25).value = .ok (c.next 25, true) := rfl
  have room : (c.decideSlot 25).value ≠ .error .overflow := fun h ↦ by
    cases hmore.symm.trans h
  obtain ⟨next, inserted, next', inserted', h, h', hyes, hfactor⟩ :=
    decideSlot_mono (show 17 ≤ 25 by decide) room
  obtain ⟨rfl, rfl⟩ := Prod.mk.inj (Except.ok.inj (hfewer.symm.trans h))
  obtain rfl := hyes rfl
  obtain ⟨rfl, -⟩ := Prod.mk.inj (Except.ok.inj (hmore.symm.trans h'))
  exact ⟨c, _, _, rfl, h, h', hfactor (by decide), rfl⟩

end TransportStream.Pacer
