import TransportStream.Proofs.Pacing.Runs

namespace TransportStream.Pacer

variable {c c' : Pacer} {events : List Event} {waiting : Nat}

/-- Whether a decision calls for a factor or for a multiplied share that has no place in its
width. -/
def Exceeds (c : Pacer) (waiting : Nat) : Prop :=
  c.Presses waiting ∧ (wordLimit ≤ (c.accelerated waiting).factor ∨
    doubleWordLimit ≤ (c.accelerated waiting).multipliedShare)

instance : Decidable (c.Exceeds waiting) := inferInstanceAs (Decidable (_ ∧ _))

theorem Sized.accelerated (h : c.Sized) (waiting : Nat) : (c.accelerated waiting).Sized :=
  ⟨h.mainPackets, h.subPackets, h.mainBitrate, h.subBitrate⟩

theorem Sized.anchored_lt (h : c.Sized) :
    (c.mainPackets - c.mainAnchor) * c.subBitrate.value < doubleWordLimit ∧
      (c.subPackets - c.subAnchor) * c.mainBitrate.value < doubleWordLimit :=
  ⟨mul_lt_doubleWordLimit (Nat.lt_of_le_of_lt (Nat.sub_le _ _) h.mainPackets) h.subBitrate,
    mul_lt_doubleWordLimit (Nat.lt_of_le_of_lt (Nat.sub_le _ _) h.subPackets) h.mainBitrate⟩

theorem Sized.fits_iff (h : c.Sized) (sound : c.Sound) :
    c.Fits waiting ↔ ¬ c.Exceeds waiting := by
  constructor
  · rintro fits ⟨presses, hfactor | hshare⟩
    · exact Nat.not_lt.2 hfactor (sound.fitsFactor_iff.1 (fits.factor presses))
    · exact Nat.not_lt.2 hshare (fits.accelerated presses).multiplied
  · intro fits
    have hall : c.Presses waiting → (c.accelerated waiting).factor < wordLimit ∧
        (c.accelerated waiting).multipliedShare < doubleWordLimit := fun presses ↦
      ⟨Nat.not_le.1 fun hle ↦ fits ⟨presses, .inl hle⟩,
        Nat.not_le.1 fun hle ↦ fits ⟨presses, .inr hle⟩⟩
    have hanchors := sound.anchors_le_accelerated waiting
    have hproducts := (h.accelerated waiting).anchored_lt
    exact
      { share := fun _ ↦ h.fitsShare
        factor := fun presses ↦ sound.fitsFactor_iff.2 (hall presses).1
        accelerated := fun presses ↦
          ⟨hanchors.1, hanchors.2, hproducts.1, (hall presses).2, hproducts.2⟩ }

theorem exists_decideSlot_iff :
    (∃ next inserted, (c.decideSlot waiting).value = .ok (next, inserted)) ↔ c.Fits waiting := by
  constructor
  · rintro ⟨_, _, h⟩
    exact (decideSlot_eq_ok_iff.1 h).1
  · intro fits
    exact ⟨_, _, decideSlot_eq_ok_iff.2 ⟨fits, rfl, rfl⟩⟩

theorem decideSlot_eq_overflow_iff :
    (c.decideSlot waiting).value = .error .overflow ↔ ¬ c.Fits waiting := by
  rw [← exists_decideSlot_iff]
  constructor
  · rintro h ⟨_, _, h'⟩
    cases h.symm.trans h'
  · intro h
    cases hvalue : (c.decideSlot waiting).value with
    | error fault => rw [overflowsOnly_decideSlot c waiting fault hvalue]
    | ok r => exact absurd ⟨r.1, r.2, hvalue⟩ h

/-- With 64-bit arguments, a decision overflows exactly where the multiplied share or the raised
factor is too large; every product of two numbers has its place. -/
theorem Run.overflows_iff_exceeds (h : Run events c)
    (small : ∀ e ∈ events, e.operation.argument < wordLimit) (waiting : Nat) :
    c.mainPackets * c.subBitrate.value < doubleWordLimit ∧
    c.subPackets * c.mainBitrate.value < doubleWordLimit ∧
    (c.mainPackets - (c.accelerated waiting).mainAnchor) * c.subBitrate.value <
      doubleWordLimit ∧
    (c.subPackets - (c.accelerated waiting).subAnchor) * c.mainBitrate.value <
      doubleWordLimit ∧
    ((∃ next inserted, (c.decideSlot waiting).value = .ok (next, inserted)) ↔
      ¬ c.Exceeds waiting) ∧
    ((c.decideSlot waiting).value = .error .overflow ↔ c.Exceeds waiting) := by
  have sized := h.sized small
  have hfits : c.Fits waiting ↔ ¬ c.Exceeds waiting := sized.fits_iff h.sound
  obtain ⟨hmain, hsub⟩ := (sized.accelerated waiting).anchored_lt
  refine ⟨sized.fitsShare.share, sized.fitsShare.used, hmain, hsub, ?_, ?_⟩
  · rw [exists_decideSlot_iff, hfits]
  · rw [decideSlot_eq_overflow_iff, hfits, Classical.not_not]

theorem Run.overflows_iff_exceeds_fitting : ∃ events c, Run events c ∧
    (∀ e ∈ events, e.operation.argument < wordLimit) ∧ c.mainPackets = 9223372036854775808 ∧
    ∃ next inserted, (c.decideSlot 17).value = .ok (next, inserted) := by
  have hrun : (Pacer.performAll {} [.setMainBitrate 18446744073709551615,
      .setSubBitrate 18446744073709551615, .countSub 1, .decideSlot 17,
      .countMain 9223372036854775808, .countSub 9223372036854775808] >>= fun r ↦
        .ok (decide (∀ e ∈ r.1, e.operation.argument < wordLimit), r.2.mainPackets,
          decide (r.2.Exceeds 17))) = .ok (true, 9223372036854775808, false) := rfl
  obtain ⟨⟨events, c⟩, performed, h⟩ := bind_eq_ok_iff.1 hrun
  obtain ⟨hsmall, h⟩ := Prod.mk.inj (Except.ok.inj h)
  obtain ⟨hmain, hexceeds⟩ := Prod.mk.inj h
  have run := Run.start.performAll performed
  have small := of_decide_eq_true hsmall
  have law := Run.overflows_iff_exceeds run small 17
  exact ⟨_, c, run, small, hmain, law.2.2.2.2.1.2 (of_decide_eq_false hexceeds)⟩

/-- One packet more, and the share has no place. -/
theorem multipliedShare_overflows : ∃ events c,
    Pacer.performAll {} [.setMainBitrate 18446744073709551615,
      .setSubBitrate 18446744073709551615, .countSub 1, .decideSlot 17,
      .countMain 9223372036854775809, .countSub 9223372036854775809] = .ok (events, c) ∧
    Run events c ∧ (∀ e ∈ events, e.operation.argument < wordLimit) ∧
    (c.decideSlot 17).value = .error .overflow := by
  have hrun : (Pacer.performAll {} [.setMainBitrate 18446744073709551615,
      .setSubBitrate 18446744073709551615, .countSub 1, .decideSlot 17,
      .countMain 9223372036854775809, .countSub 9223372036854775809] >>= fun r ↦
        .ok (decide (∀ e ∈ r.1, e.operation.argument < wordLimit), (r.2.decideSlot 17).value)) =
      .ok (true, .error .overflow) := rfl
  obtain ⟨⟨events, c⟩, performed, h⟩ := bind_eq_ok_iff.1 hrun
  obtain ⟨hsmall, hfault⟩ := Prod.mk.inj (Except.ok.inj h)
  exact ⟨events, c, performed, Run.start.performAll performed, of_decide_eq_true hsmall, hfault⟩

end TransportStream.Pacer
