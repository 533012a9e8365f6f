import TransportStream.Proofs.Pacing.Decisions

namespace TransportStream.Pacer

variable {c c' : Pacer} {waiting main sub : Nat} {waits : List Nat} {inserted : Bool}
  {decisions : List Bool}

/-- The packets that go into the first `n` slots: the share of the slots before the last, and one
more, but at most one for each slot. -/
def quota (main sub n : Nat) : Nat :=
  min n ((n - 1) * sub / main + 1)

theorem quota_zero (main sub : Nat) : quota main sub 0 = 0 := Nat.zero_min _

theorem quota_le (main sub n : Nat) : quota main sub n ≤ n := Nat.min_le_left _ _

theorem share_succ_le (hmain : 0 < main) {n : Nat} (hlt : n * sub / main < n) :
    (n + 1) * sub / main ≤ n * sub / main + 1 := by
  have hrate : sub < main := by
    rw [Nat.div_lt_iff_lt_mul hmain] at hlt
    exact Nat.lt_of_mul_lt_mul_left hlt
  calc
    (n + 1) * sub / main ≤ (n * sub + main) / main :=
      Nat.div_le_div_right (by rw [Nat.succ_mul]; omega)
    _ = n * sub / main + 1 := Nat.add_div_right _ hmain

/-- A slot takes a packet exactly when the packets before it are not ahead. -/
theorem quota_succ (hmain : 0 < main) (sub n : Nat) : quota main sub (n + 1) =
    quota main sub n + (decide (quota main sub n * main ≤ n * sub)).toNat := by
  cases n with
  | zero => simp [quota]
  | succ n =>
    -- either the share lies below the slots, and grows by one at most, or the slots bound the quota
    have hmono : n * sub / main ≤ (n + 1) * sub / main :=
      Nat.div_le_div_right (Nat.mul_le_mul_right _ (Nat.le_succ n))
    have hstep : n * sub / main < n → (n + 1) * sub / main ≤ n * sub / main + 1 :=
      share_succ_le hmain
    by_cases h : quota main sub (n + 1) * main ≤ (n + 1) * sub
    · rw [decide_eq_true h, Bool.toNat_true]
      rw [← Nat.le_div_iff_mul_le hmain] at h
      simp only [quota, Nat.add_sub_cancel] at h ⊢
      omega
    · rw [decide_eq_false h, Bool.toNat_false]
      rw [← Nat.le_div_iff_mul_le hmain] at h
      simp only [quota, Nat.add_sub_cancel] at h ⊢
      omega

def scheduled (main sub n : Nat) : Bool :=
  decide (quota main sub n * main ≤ n * sub)

theorem count_scheduled (hmain : 0 < main) (sub n : Nat) :
    ((List.range n).map (scheduled main sub)).count true = quota main sub n := by
  induction n with
  | zero => exact (quota_zero main sub).symm
  | succ n ih =>
    rw [List.range_succ, List.map_append, List.count_append, ih, quota_succ hmain]
    show _ + [scheduled main sub n].count true = _ + (scheduled main sub n).toNat
    cases scheduled main sub n <;> rfl

def passed (c : Pacer) (waiting : Nat) : Pacer := { c.next waiting with
  mainPackets := c.mainPackets + 1
  subPackets := c.subPackets + (decide (c.Inserts waiting)).toNat }

theorem passSlot_eq_ok_iff : (c.passSlot waiting).value = .ok (c', inserted) ↔
    (c.Fits waiting ∧ c.mainPackets + 1 < wordLimit ∧
      c.subPackets + (decide (c.Inserts waiting)).toNat < wordLimit) ∧
    c.passed waiting = c' ∧ decide (c.Inserts waiting) = inserted := by
  simp only [passSlot, Traced.value_bind, Traced.value_liftM, bind_eq_ok_iff]
  constructor
  · rintro ⟨⟨_, _⟩, hdecide, _, hsub, _, hmain, h⟩
    obtain ⟨fits, rfl, rfl⟩ := decideSlot_eq_ok_iff.1 hdecide
    obtain ⟨roomSub, rfl⟩ := countSub_eq_ok_iff.1 hsub
    obtain ⟨roomMain, rfl⟩ := countMain_eq_ok_iff.1 hmain
    cases h
    simp only [next_mainPackets, next_subPackets] at roomMain roomSub
    exact ⟨⟨fits, roomMain, roomSub⟩, by simp [passed], rfl⟩
  · rintro ⟨⟨fits, roomMain, roomSub⟩, rfl, rfl⟩
    refine ⟨_, decideSlot_eq_ok_iff.2 ⟨fits, rfl, rfl⟩, _,
      countSub_eq_ok_iff.2 ⟨by rwa [next_subPackets], rfl⟩, _,
      countMain_eq_ok_iff.2 ⟨?_, rfl⟩, ?_⟩
    · show (c.next waiting).mainPackets + 1 < wordLimit
      rwa [next_mainPackets]
    · simp [passed, Traced.value_pure]

theorem passSlots_cons_eq_ok_iff :
    (c.passSlots (waiting :: waits)).value = .ok (c', decisions) ↔
      ∃ d inserted more, (c.passSlot waiting).value = .ok (d, inserted) ∧
        (d.passSlots waits).value = .ok (c', more) ∧ inserted :: more = decisions := by
  simp only [passSlots, Traced.value_bind_eq_ok_iff]
  constructor
  · rintro ⟨⟨d, inserted⟩, hslot, ⟨_, more⟩, hslots, h⟩
    cases h
    exact ⟨d, inserted, more, hslot, hslots, rfl⟩
  · rintro ⟨d, inserted, more, hslot, hslots, rfl⟩
    exact ⟨_, hslot, _, hslots, rfl⟩

theorem passSlots_eq_ok_iff {state : Nat → Pacer} {fits : Nat → Prop} {yes : Nat → Bool}
    {start : Nat} (step : ∀ waiting ∈ waits, ∀ n, start ≤ n → ∀ c' inserted,
      ((state n).passSlot waiting).value = .ok (c', inserted) ↔
        fits n ∧ state (n + 1) = c' ∧ yes n = inserted) :
    ((state start).passSlots waits).value = .ok (c', decisions) ↔
      (∀ n, start ≤ n → n < start + waits.length → fits n) ∧
        state (start + waits.length) = c' ∧
        (List.range' start waits.length).map yes = decisions := by
  induction waits generalizing start c' decisions with
  | nil =>
    show Except.ok (state start, []) = _ ↔ _
    rw [Except.ok.injEq, Prod.mk.injEq]
    exact (and_iff_right fun n hle hlt ↦ absurd hle (Nat.not_le.2 hlt)).symm
  | cons waiting rest ih =>
    -- the rest starts from the next of the states
    have first := step waiting (List.mem_cons_self ..) start (Nat.le_refl _)
    have more := fun last later ↦ @ih last later (start + 1) fun w hw n hn ↦
      step w (List.mem_cons_of_mem _ hw) n (Nat.le_of_succ_le hn)
    have hlength : start + 1 + rest.length = start + (waiting :: rest).length := by
      rw [List.length_cons]
      omega
    rw [passSlots_cons_eq_ok_iff]
    constructor
    · rintro ⟨_, _, _, hslot, hslots, rfl⟩
      obtain ⟨hfits, rfl, rfl⟩ := (first _ _).1 hslot
      obtain ⟨hrest, rfl, rfl⟩ := (more _ _).1 hslots
      refine ⟨fun n hle hlt ↦ ?_, by rw [hlength], rfl⟩
      rcases Nat.eq_or_lt_of_le hle with rfl | hn
      · exact hfits
      · exact hrest n hn (hlength ▸ hlt)
    · rintro ⟨hfits, rfl, rfl⟩
      have hrest := fun n hn hlt ↦ hfits n (Nat.le_of_succ_le hn) (hlength ▸ hlt)
      exact ⟨_, _, _, (first _ _).2 ⟨hfits start (Nat.le_refl _) (by simp), rfl, rfl⟩,
        (more _ _).2 ⟨hrest, by rw [hlength], rfl⟩, rfl⟩

/-- A pacer that has counted from zero, over slots without pressure. -/
def onSchedule (c : Pacer) (n : Nat) : Pacer := { c.reset with
  mainPackets := n
  subPackets := quota c.mainBitrate.value c.subBitrate.value n }

theorem passSlot_onSchedule (sized : c.Sized) (known : c.IsKnown) (calm : waiting ≤ c.alert)
    (n : Nat) (c' : Pacer) (inserted : Bool) :
    ((c.onSchedule n).passSlot waiting).value = .ok (c', inserted) ↔
      n + 1 < wordLimit ∧ c.onSchedule (n + 1) = c' ∧
        scheduled c.mainBitrate.value c.subBitrate.value n = inserted := by
  have hcalm : ¬ (c.onSchedule n).Presses waiting := fun h ↦ Nat.not_lt.2 calm h.2.2
  have hinserts : decide ((c.onSchedule n).Inserts waiting) =
      scheduled c.mainBitrate.value c.subBitrate.value n := by
    refine decide_eq_decide.2 ((inserts_iff_of_not_presses hcalm).trans ?_)
    exact or_iff_right (not_not_intro known)
  have hquota := quota_succ (Nat.pos_of_ne_zero known.1) c.subBitrate.value n
  have hrelaxed : (c.onSchedule n).relaxed waiting = c.onSchedule n := by
    rw [relaxed, if_neg fun h ↦ Nat.lt_irrefl 1 h.2]
  have hpassed : (c.onSchedule n).passed waiting = c.onSchedule (n + 1) := by
    rw [passed, next_of_not_presses hcalm, hrelaxed, hinserts]
    exact congrArg (fun k ↦ { c.reset with mainPackets := n + 1, subPackets := k }) hquota.symm
  have hsub : (c.onSchedule n).subPackets + (decide ((c.onSchedule n).Inserts waiting)).toNat =
      quota c.mainBitrate.value c.subBitrate.value (n + 1) := by
    rw [hinserts, hquota]
    rfl
  rw [passSlot_eq_ok_iff, hpassed, hsub, hinserts]
  refine and_congr_left' ⟨fun h ↦ h.2.1, fun room ↦ ⟨?_, room, ?_⟩⟩
  · refine fits_of_not_presses hcalm fun _ ↦
      Sized.fitsShare ⟨?_, ?_, sized.mainBitrate, sized.subBitrate⟩
    · exact Nat.lt_of_succ_lt room
    · exact Nat.lt_of_le_of_lt (quota_le ..) (Nat.lt_of_succ_lt room)
  · exact Nat.lt_of_le_of_lt (quota_le ..) room

/-- The number of insertions after a reset, over slots none of which has a backlog above the alert
level. -/
theorem Sized.inserts_quota (sized : c.Sized) (known : c.IsKnown)
    (calm : ∀ waiting ∈ waits, waiting ≤ c.alert) (room : waits.length < wordLimit) :
    ∃ c' decisions, (c.reset.passSlots waits).value = .ok (c', decisions) ∧
      decisions.length = waits.length ∧
      decisions.count true = min waits.length
        ((waits.length - 1) * c.subBitrate.value / c.mainBitrate.value + 1) ∧
      c'.mainPackets = waits.length ∧ c'.subPackets = decisions.count true := by
  have hpos := Nat.pos_of_ne_zero known.1
  have hstart : c.onSchedule 0 = c.reset := by
    rw [onSchedule, quota_zero]
    rfl
  have hcount := count_scheduled hpos c.subBitrate.value waits.length
  refine ⟨c.onSchedule waits.length,
    (List.range waits.length).map (scheduled c.mainBitrate.value c.subBitrate.value), ?_, ?_,
    hcount, rfl, hcount.symm⟩
  · rw [← hstart, passSlots_eq_ok_iff fun waiting hw n _ ↦ passSlot_onSchedule sized known
      (calm waiting hw) n, Nat.zero_add, List.range_eq_range']
    exact ⟨fun n _ hlt ↦ Nat.lt_of_le_of_lt hlt room, rfl, rfl⟩
  · rw [List.length_map, List.length_range]

theorem Sized.inserts_quota_three_sevenths : ∃ c' decisions,
    ((Pacer.reset { mainBitrate := { stream := .main, value := 7 }
                    subBitrate := { stream := .sub, value := 3 } }).passSlots
      [0, 16, 3, 0, 9, 16, 16, 1, 0, 2]).value = .ok (c', decisions) ∧
    decisions.count true = 4 := by
  obtain ⟨c', decisions, hrun, -, hcount, -⟩ := @Sized.inserts_quota
    { mainBitrate := { stream := .main, value := 7 }, subBitrate := { stream := .sub, value := 3 } }
    [0, 16, 3, 0, 9, 16, 16, 1, 0, 2] ⟨by decide, by decide, by decide, by decide⟩
    ⟨by decide, by decide⟩ (by decide) (by decide)
  exact ⟨c', decisions, hrun, hcount⟩

end TransportStream.Pacer
