import TransportStream.Proofs.Pacing.Schedule

namespace TransportStream.Pacer

variable {c c' s : Pacer} {waiting first n : Nat} {inserted : Bool}

/-- A pacer whose counts started from those of another one, `n` slots before, with acceleration. -/
def rushed (c : Pacer) (first n : Nat) : Pacer := { c with
  mainPackets := c.mainPackets + n
  subPackets := c.subPackets + quota c.mainBitrate.value (2 * c.subBitrate.value) n
  factor := 2
  mainAnchor := c.mainPackets
  subAnchor := c.subPackets
  maxBacklog := first }

/-- Whether the numbers fit in the slot after `n` others: the counts, and the multiplied share where
it is asked for. -/
structure FitsRush (c : Pacer) (n : Nat) : Prop where
  main : c.mainPackets + (n + 1) < wordLimit
  sub : c.subPackets + quota c.mainBitrate.value (2 * c.subBitrate.value) (n + 1) < wordLimit
  multiplied : (c.mainPackets + n) * c.subBitrate.value <
      (c.subPackets + quota c.mainBitrate.value (2 * c.subBitrate.value) n) * c.mainBitrate.value →
    n * c.subBitrate.value * 2 < doubleWordLimit

theorem quota_le_quota_succ (main sub n : Nat) : quota main sub n ≤ quota main sub (n + 1) := by
  have hshare : (n - 1) * sub / main ≤ n * sub / main :=
    Nat.div_le_div_right (Nat.mul_le_mul_right _ (Nat.sub_le n 1))
  rw [quota, quota, Nat.add_sub_cancel]
  omega

theorem multipliedShare_rushed (c : Pacer) (first n : Nat) :
    (c.rushed first n).multipliedShare = n * c.subBitrate.value * 2 := by
  show (c.mainPackets + n - c.mainPackets) * c.subBitrate.value * 2 = _
  rw [Nat.add_sub_cancel_left]

theorem dueAccelerated_rushed_iff : (c.rushed first n).DueAccelerated ↔
    quota c.mainBitrate.value (2 * c.subBitrate.value) n * c.mainBitrate.value ≤
      n * (2 * c.subBitrate.value) := by
  rw [DueAccelerated, multipliedShare_rushed]
  show (c.subPackets + _ - c.subPackets) * c.mainBitrate.value ≤ _ ↔ _
  rw [Nat.add_sub_cancel_left, Nat.mul_assoc, Nat.mul_comm _ 2]

theorem mul_le_of_due {main sub slots taken : Nat}
    (ahead : c.mainPackets * sub < c.subPackets * main)
    (due : (c.subPackets + taken) * main ≤ (c.mainPackets + slots) * sub) :
    taken * main ≤ slots * (2 * sub) := by
  rw [Nat.add_mul, Nat.add_mul] at due
  calc
    taken * main ≤ slots * sub := by omega
    _ ≤ slots * (2 * sub) := Nat.mul_le_mul_left _ (Nat.le_mul_of_pos_left _ (by decide))

theorem presses_iff_of_next (known : c.IsKnown) (above : c.alert < waiting)
    (hnext : s.next waiting = c.rushed first n) :
    s.Presses waiting ↔ ¬ (c.rushed first n).Due := by
  have hknown : s.IsKnown := by
    rw [← isKnown_next_iff (c := s), hnext]
    exact known
  have habove : s.alert < waiting := by
    rw [← next_alert s waiting, hnext]
    exact above
  rw [← hnext, due_next_iff]
  exact ⟨fun h ↦ h.2.1, fun due ↦ ⟨hknown, due, habove⟩⟩

theorem inserts_of_next (known : c.IsKnown)
    (ahead : c.mainPackets * c.subBitrate.value < c.subPackets * c.mainBitrate.value)
    (above : c.alert < waiting) (hnext : s.next waiting = c.rushed first n) :
    decide (s.Inserts waiting) = scheduled c.mainBitrate.value (2 * c.subBitrate.value) n := by
  have hpresses := presses_iff_of_next known above hnext
  refine decide_eq_decide.2 ?_
  by_cases due : (c.rushed first n).Due
  · -- the plain rule says yes again, and the doubled share agrees
    have hdue : s.Due := due_next_iff.1 (hnext ▸ due)
    exact iff_of_true (.inr (.inl hdue)) (mul_le_of_due ahead due)
  · have presses := hpresses.2 due
    rw [inserts_iff_of_presses presses, ← next_of_presses presses, hnext,
      dueAccelerated_rushed_iff]

theorem passed_of_next (known : c.IsKnown)
    (ahead : c.mainPackets * c.subBitrate.value < c.subPackets * c.mainBitrate.value)
    (above : c.alert < waiting) (hnext : s.next waiting = c.rushed first n) :
    s.passed waiting = c.rushed first (n + 1) := by
  have hmain : s.mainPackets + 1 = c.mainPackets + (n + 1) := by
    rw [← next_mainPackets s waiting, hnext]
    rfl
  have hquota := quota_succ (Nat.pos_of_ne_zero known.1) (2 * c.subBitrate.value) n
  have hsub : s.subPackets + (decide (s.Inserts waiting)).toNat =
      c.subPackets + quota c.mainBitrate.value (2 * c.subBitrate.value) (n + 1) := by
    rw [inserts_of_next known ahead above hnext, hquota, ← next_subPackets s waiting, hnext,
      ← Nat.add_assoc]
    rfl
  rw [passed, hnext, hmain, hsub]
  rfl

theorem FitsRush.fits (h : c.FitsRush n) (sized : c.Sized) (known : c.IsKnown)
    (above : c.alert < waiting) (fits : s.FitsFactor waiting)
    (hnext : s.next waiting = c.rushed first n) : s.Fits waiting := by
  have hquota := quota_le_quota_succ c.mainBitrate.value (2 * c.subBitrate.value) n
  have hmain := h.main
  have hsub := h.sub
  have hsized : (c.rushed first n).Sized :=
    ⟨by show c.mainPackets + n < _; omega, by show c.subPackets + _ < _; omega,
      sized.mainBitrate, sized.subBitrate⟩
  refine ⟨fun _ ↦ ?_, fun _ ↦ fits, fun presses ↦ ?_⟩
  · obtain ⟨hshare, hused⟩ := hsized.fitsShare
    rw [← hnext, next_mainPackets, next_subBitrate] at hshare
    rw [← hnext, next_subPackets, next_mainBitrate] at hused
    exact ⟨hshare, hused⟩
  · rw [← next_of_presses presses, hnext]
    refine ⟨Nat.le_add_right _ _, Nat.le_add_right _ _, ?_, ?_, ?_⟩
    · exact mul_lt_doubleWordLimit (Nat.lt_of_le_of_lt (Nat.sub_le _ _) hsized.mainPackets)
        hsized.subBitrate
    · rw [multipliedShare_rushed]
      exact h.multiplied (Nat.not_le.1 ((presses_iff_of_next known above hnext).1 presses))
    · exact mul_lt_doubleWordLimit (Nat.lt_of_le_of_lt (Nat.sub_le _ _) hsized.subPackets)
        hsized.mainBitrate

theorem passSlot_rushed (sized : c.Sized) (known : c.IsKnown)
    (ahead : c.mainPackets * c.subBitrate.value < c.subPackets * c.mainBitrate.value)
    (above : c.alert < waiting) (fits : s.FitsFactor waiting)
    (hnext : s.next waiting = c.rushed first n) (c' : Pacer) (inserted : Bool) :
    (s.passSlot waiting).value = .ok (c', inserted) ↔ c.FitsRush n ∧
      c.rushed first (n + 1) = c' ∧
      scheduled c.mainBitrate.value (2 * c.subBitrate.value) n = inserted := by
  have hpassed := passed_of_next known ahead above hnext
  have hmain : s.mainPackets + 1 = c.mainPackets + (n + 1) := congrArg Pacer.mainPackets hpassed
  have hsub : s.subPackets + (decide (s.Inserts waiting)).toNat =
      c.subPackets + quota c.mainBitrate.value (2 * c.subBitrate.value) (n + 1) :=
    congrArg Pacer.subPackets hpassed
  rw [passSlot_eq_ok_iff, hpassed, hsub, hmain, inserts_of_next known ahead above hnext]
  refine and_congr_left' ⟨fun ⟨hfits, room, room'⟩ ↦ ⟨room, room', fun late ↦ ?_⟩,
    fun h ↦ ⟨h.fits sized known above fits hnext, h.main, h.sub⟩⟩
  have presses := (presses_iff_of_next known above hnext).2 (Nat.not_le.2 late)
  have hmultiplied := (hfits.accelerated presses).multiplied
  rwa [← next_of_presses presses, hnext, multipliedShare_rushed] at hmultiplied

theorem next_of_start (known : c.IsKnown) (plain : c.factor = 1) (ahead : ¬ c.Due)
    (above : c.alert < first) : c.next first = c.rushed first 0 := by
  rw [next_of_presses ⟨known, ahead, above⟩, accelerated_of_one plain, rushed, quota_zero]
  rfl

theorem next_rushed (above : c.alert < waiting) (hle : waiting ≤ first) :
    (c.rushed first n).next waiting = c.rushed first n := by
  have htwo : (c.rushed first n).factor ≠ 1 := by
    show 2 ≠ 1
    decide
  have hmax : ¬ (c.rushed first n).maxBacklog < waiting := Nat.not_lt.2 hle
  unfold next
  split
  · rw [accelerated_of_ne_one htwo, if_neg hmax]
    exact congrArg (fun m ↦ { c.rushed first n with maxBacklog := m }) (Nat.max_eq_left hle)
  · exact relaxed_of_lt above

theorem passSlots_rushed (sized : c.Sized) (known : c.IsKnown) (plain : c.factor = 1)
    (ahead : c.mainPackets * c.subBitrate.value < c.subPackets * c.mainBitrate.value)
    (above : c.alert < first) {later : List Nat}
    (within : ∀ waiting ∈ later, c.alert < waiting ∧ waiting ≤ first) {decisions : List Bool} :
    (c.passSlots (first :: later)).value = .ok (c', decisions) ↔
      (∀ n ≤ later.length, c.FitsRush n) ∧ c.rushed first (later.length + 1) = c' ∧
        (List.range (later.length + 1)).map
          (scheduled c.mainBitrate.value (2 * c.subBitrate.value)) = decisions := by
  have hstart := passSlot_rushed sized known ahead above (fun h ↦ absurd plain h)
    (next_of_start known plain (Nat.not_le.2 ahead) above)
  have hlater : ∀ more, ((c.rushed first 1).passSlots later).value = .ok (c', more) ↔
      (∀ n, 1 ≤ n → n < 1 + later.length → c.FitsRush n) ∧
        c.rushed first (1 + later.length) = c' ∧ (List.range' 1 later.length).map
          (scheduled c.mainBitrate.value (2 * c.subBitrate.value)) = more := fun _ ↦
    passSlots_eq_ok_iff fun waiting hw n _ ↦ passSlot_rushed sized known ahead (within waiting hw).1
      (fun _ h ↦ absurd h (Nat.not_lt.2 (within waiting hw).2))
      (next_rushed (within waiting hw).1 (within waiting hw).2)
  rw [passSlots_cons_eq_ok_iff, List.range_eq_range', List.range'_succ, List.map_cons,
    Nat.add_comm later.length]
  constructor
  · rintro ⟨_, _, _, hslot, hslots, rfl⟩
    obtain ⟨hfits, rfl, rfl⟩ := (hstart _ _).1 hslot
    obtain ⟨hrest, hlast, rfl⟩ := (hlater _).1 hslots
    refine ⟨fun n hle ↦ ?_, hlast, rfl⟩
    cases n with
    | zero => exact hfits
    | succ n => exact hrest _ (Nat.succ_pos n) (by omega)
  · rintro ⟨hfits, hlast, rfl⟩
    have hrest := (hlater _).2 ⟨fun n _ hlt ↦ hfits n (by omega), hlast, rfl⟩
    exact ⟨_, _, _, (hstart _ _).2 ⟨hfits 0 (Nat.zero_le _), rfl, rfl⟩, hrest, rfl⟩

/-- The number of insertions from the slot that starts acceleration on, while no later backlog
exceeds the first: they keep to twice the rate. The run comes to its end exactly when the numbers of
its slots fit. -/
theorem Sized.inserts_double_quota (sized : c.Sized) (known : c.IsKnown) (plain : c.factor = 1)
    (ahead : c.mainPackets * c.subBitrate.value < c.subPackets * c.mainBitrate.value)
    (above : c.alert < first) {later : List Nat}
    (within : ∀ waiting ∈ later, c.alert < waiting ∧ waiting ≤ first) :
    ((∃ c' decisions, (c.passSlots (first :: later)).value = .ok (c', decisions)) ↔
      ∀ n ≤ later.length, c.FitsRush n) ∧
    ∀ c' decisions, (c.passSlots (first :: later)).value = .ok (c', decisions) →
      decisions.length = later.length + 1 ∧
      decisions.count true = min (later.length + 1)
        (later.length * 2 * c.subBitrate.value / c.mainBitrate.value + 1) ∧
      ∀ n ≤ later.length, ∃ d, d.factor = 2 ∧
        (c.passSlots (first :: later.take n)).value = .ok (d, decisions.take (n + 1)) := by
  have hrun := fun c' decisions ↦
    @passSlots_rushed c c' first sized known plain ahead above later within decisions
  refine ⟨⟨fun ⟨c', decisions, h⟩ ↦ ((hrun c' decisions).1 h).1,
    fun h ↦ ⟨_, _, (hrun _ _).2 ⟨h, rfl, rfl⟩⟩⟩, fun c' decisions h ↦ ?_⟩
  obtain ⟨hfits, rfl, rfl⟩ := (hrun c' decisions).1 h
  refine ⟨by rw [List.length_map, List.length_range], ?_, fun n hn ↦ ?_⟩
  · rw [count_scheduled (Nat.pos_of_ne_zero known.1), quota, Nat.add_sub_cancel, Nat.mul_assoc]
  · have hlength : (later.take n).length = n := List.length_take_of_le hn
    refine ⟨c.rushed first (n + 1), rfl, (passSlots_rushed sized known plain ahead above
      fun waiting hw ↦ within waiting (List.mem_of_mem_take hw)).2 ?_⟩
    rw [hlength, ← List.map_take, List.take_range, Nat.min_eq_left (Nat.succ_le_succ hn)]
    exact ⟨fun k hk ↦ hfits k (Nat.le_trans hk hn), rfl, rfl⟩

theorem Sized.inserts_double_quota_two_thirds : ∃ c' decisions,
    (passSlots { mainPackets := 2, subPackets := 1
                 mainBitrate := { stream := .main, value := 3 }
                 subBitrate := { stream := .sub, value := 1 } }
      [18, 17, 18, 17, 17]).value = .ok (c', decisions) ∧ decisions.count true = 3 := by
  have law := @Sized.inserts_double_quota
    { mainPackets := 2, subPackets := 1
      mainBitrate := { stream := .main, value := 3 }, subBitrate := { stream := .sub, value := 1 } }
    18 ⟨by decide, by decide, by decide, by decide⟩ ⟨by decide, by decide⟩ (by decide) (by decide)
    (by decide) [17, 18, 17, 17] (by decide)
  have hfits : ∀ n ≤ 4, FitsRush { mainPackets := 2, subPackets := 1
                                   mainBitrate := { stream := .main, value := 3 }
                                   subBitrate := { stream := .sub, value := 1 } } n := by
    intro n hn
    refine ⟨?_, ?_, fun _ ↦ ?_⟩
    · decide +revert
    · decide +revert
    · decide +revert
  obtain ⟨c', decisions, h⟩ := law.1.2 hfits
  exact ⟨c', decisions, h, (law.2 c' decisions h).2.1⟩

end TransportStream.Pacer
