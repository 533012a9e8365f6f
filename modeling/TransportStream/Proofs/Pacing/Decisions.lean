import TransportStream.Pacing
import TransportStream.Proofs.Overflow

namespace TransportStream.Pacer

variable {c c' : Pacer} {waiting : Nat} {inserted : Bool}

theorem countMain_eq_ok_iff {n : Nat} : c.countMain n = .ok c' ↔
    c.mainPackets + n < wordLimit ∧ { c with mainPackets := c.mainPackets + n } = c' := by
  simp only [countMain, bind_eq_ok_iff, fit_eq_ok_iff]
  constructor
  · rintro ⟨_, ⟨h, rfl⟩, hc⟩
    exact ⟨h, Except.ok.inj hc⟩
  · rintro ⟨h, rfl⟩
    exact ⟨_, ⟨h, rfl⟩, rfl⟩

theorem countSub_eq_ok_iff {n : Nat} : c.countSub n = .ok c' ↔
    c.subPackets + n < wordLimit ∧ { c with subPackets := c.subPackets + n } = c' := by
  simp only [countSub, bind_eq_ok_iff, fit_eq_ok_iff]
  constructor
  · rintro ⟨_, ⟨h, rfl⟩, hc⟩
    exact ⟨h, Except.ok.inj hc⟩
  · rintro ⟨h, rfl⟩
    exact ⟨_, ⟨h, rfl⟩, rfl⟩

def IsKnown (c : Pacer) : Prop :=
  c.mainBitrate.value ≠ 0 ∧ c.subBitrate.value ≠ 0

def Due (c : Pacer) : Prop :=
  c.subPackets * c.mainBitrate.value ≤ c.mainPackets * c.subBitrate.value

/-- The multiplied share of the sub stream since acceleration began. -/
def multipliedShare (c : Pacer) : Nat :=
  (c.mainPackets - c.mainAnchor) * c.subBitrate.value * c.factor

def DueAccelerated (c : Pacer) : Prop :=
  (c.subPackets - c.subAnchor) * c.mainBitrate.value ≤ c.multipliedShare

/-- Whether a backlog presses for a slot that the sub stream is not due. -/
def Presses (c : Pacer) (waiting : Nat) : Prop :=
  c.IsKnown ∧ ¬ c.Due ∧ c.alert < waiting

instance : Decidable c.IsKnown := inferInstanceAs (Decidable (_ ∧ _))

instance : Decidable c.Due := inferInstanceAs (Decidable (_ ≤ _))

instance : Decidable c.DueAccelerated := inferInstanceAs (Decidable (_ ≤ _))

instance : Decidable (c.Presses waiting) := inferInstanceAs (Decidable (_ ∧ _))

def relaxed (c : Pacer) (waiting : Nat) : Pacer :=
  { c with factor := if waiting ≤ c.alert ∧ 1 < c.factor then 1 else c.factor }

def accelerated (c : Pacer) (waiting : Nat) : Pacer := { c with
  factor := if c.factor = 1 then 2 else if c.maxBacklog < waiting then c.factor + 1 else c.factor
  mainAnchor := if c.factor = 1 then c.mainPackets else c.mainAnchor
  subAnchor := if c.factor = 1 then c.subPackets else c.subAnchor
  maxBacklog := if c.factor = 1 then waiting else max c.maxBacklog waiting }

def next (c : Pacer) (waiting : Nat) : Pacer :=
  if c.Presses waiting then c.accelerated waiting else c.relaxed waiting

def Inserts (c : Pacer) (waiting : Nat) : Prop :=
  ¬ c.IsKnown ∨ c.Due ∨ c.alert < waiting ∧ (c.accelerated waiting).DueAccelerated

instance : Decidable (c.Inserts waiting) := inferInstanceAs (Decidable (_ ∨ _))

theorem next_of_presses (h : c.Presses waiting) : c.next waiting = c.accelerated waiting :=
  if_pos h

theorem next_of_not_presses (h : ¬ c.Presses waiting) : c.next waiting = c.relaxed waiting :=
  if_neg h

theorem accelerated_of_one (h : c.factor = 1) (waiting : Nat) : c.accelerated waiting = { c with
    factor := 2
    mainAnchor := c.mainPackets
    subAnchor := c.subPackets
    maxBacklog := waiting } := by
  simp only [accelerated, if_pos h]

theorem accelerated_of_ne_one (h : c.factor ≠ 1) (waiting : Nat) : c.accelerated waiting = { c with
    factor := if c.maxBacklog < waiting then c.factor + 1 else c.factor
    maxBacklog := max c.maxBacklog waiting } := by
  simp only [accelerated, if_neg h]

theorem le_factor_accelerated (c : Pacer) (waiting : Nat) :
    c.factor ≤ (c.accelerated waiting).factor := by
  by_cases hone : c.factor = 1
  · rw [accelerated_of_one hone]
    exact Nat.le_trans (Nat.le_of_eq hone) (Nat.le_succ 1)
  · rw [accelerated_of_ne_one hone]
    show c.factor ≤ if c.maxBacklog < waiting then c.factor + 1 else c.factor
    split <;> omega

theorem relaxed_of_lt (h : c.alert < waiting) : c.relaxed waiting = c := by
  rw [relaxed, if_neg fun hle ↦ Nat.not_le.2 h hle.1]

theorem next_eq (c : Pacer) (waiting : Nat) : c.next waiting = { c with
    factor := (c.next waiting).factor
    mainAnchor := (c.next waiting).mainAnchor
    subAnchor := (c.next waiting).subAnchor
    maxBacklog := (c.next waiting).maxBacklog } := by
  unfold next
  split <;> rfl

@[simp] theorem next_mainPackets (c : Pacer) (waiting : Nat) :
    (c.next waiting).mainPackets = c.mainPackets := by rw [next_eq]

@[simp] theorem next_subPackets (c : Pacer) (waiting : Nat) :
    (c.next waiting).subPackets = c.subPackets := by rw [next_eq]

@[simp] theorem next_mainBitrate (c : Pacer) (waiting : Nat) :
    (c.next waiting).mainBitrate = c.mainBitrate := by rw [next_eq]

@[simp] theorem next_subBitrate (c : Pacer) (waiting : Nat) :
    (c.next waiting).subBitrate = c.subBitrate := by rw [next_eq]

@[simp] theorem next_alert (c : Pacer) (waiting : Nat) :
    (c.next waiting).alert = c.alert := by rw [next_eq]

theorem due_next_iff : (c.next waiting).Due ↔ c.Due := by
  rw [Due, Due, next_mainPackets, next_subPackets, next_mainBitrate, next_subBitrate]

theorem isKnown_next_iff : (c.next waiting).IsKnown ↔ c.IsKnown := by
  rw [IsKnown, IsKnown, next_mainBitrate, next_subBitrate]

structure FitsShare (c : Pacer) : Prop where
  share : c.mainPackets * c.subBitrate.value < doubleWordLimit
  used : c.subPackets * c.mainBitrate.value < doubleWordLimit

structure Sized (c : Pacer) : Prop where
  mainPackets : c.mainPackets < wordLimit
  subPackets : c.subPackets < wordLimit
  mainBitrate : c.mainBitrate.value < wordLimit
  subBitrate : c.subBitrate.value < wordLimit

theorem mul_lt_doubleWordLimit {m n : Nat} (hm : m < wordLimit) (hn : n < wordLimit) :
    m * n < doubleWordLimit := by
  have hlimits : wordLimit * wordLimit = doubleWordLimit := by decide
  rw [← hlimits]
  exact Nat.mul_lt_mul'' hm hn

theorem Sized.fitsShare (h : c.Sized) : c.FitsShare where
  share := mul_lt_doubleWordLimit h.mainPackets h.subBitrate
  used := mul_lt_doubleWordLimit h.subPackets h.mainBitrate

def FitsFactor (c : Pacer) (waiting : Nat) : Prop :=
  c.factor ≠ 1 → c.maxBacklog < waiting → c.factor + 1 < wordLimit

/-- Whether the counts have not fallen below the anchors, and the products of the multiplied share
have a place in their width. -/
structure FitsAccelerated (c : Pacer) : Prop where
  mainAnchor_le : c.mainAnchor ≤ c.mainPackets
  subAnchor_le : c.subAnchor ≤ c.subPackets
  share : (c.mainPackets - c.mainAnchor) * c.subBitrate.value < doubleWordLimit
  multiplied : c.multipliedShare < doubleWordLimit
  used : (c.subPackets - c.subAnchor) * c.mainBitrate.value < doubleWordLimit

structure Fits (c : Pacer) (waiting : Nat) : Prop where
  share : c.IsKnown → c.FitsShare
  factor : c.Presses waiting → c.FitsFactor waiting
  accelerated : c.Presses waiting → (c.accelerated waiting).FitsAccelerated

theorem isDue_eq_ok_iff : c.isDue = .ok inserted ↔ c.FitsShare ∧ decide c.Due = inserted := by
  simp only [isDue, bind_eq_ok_iff, fit_eq_ok_iff]
  constructor
  · rintro ⟨_, ⟨hshare, rfl⟩, _, ⟨hused, rfl⟩, h⟩
    exact ⟨⟨hshare, hused⟩, Except.ok.inj h⟩
  · rintro ⟨h, rfl⟩
    exact ⟨_, ⟨h.share, rfl⟩, _, ⟨h.used, rfl⟩, rfl⟩

theorem isDueAccelerated_eq_ok_iff : c.isDueAccelerated = .ok inserted ↔
    c.FitsAccelerated ∧ decide c.DueAccelerated = inserted := by
  simp only [isDueAccelerated, bind_eq_ok_iff, fit_eq_ok_iff, minus_eq_ok_iff]
  constructor
  · rintro ⟨_, ⟨hmain, rfl⟩, _, ⟨hsub, rfl⟩, _, ⟨hshare, rfl⟩, _, ⟨hmultiplied, rfl⟩, _,
      ⟨hused, rfl⟩, h⟩
    exact ⟨⟨hmain, hsub, hshare, hmultiplied, hused⟩, Except.ok.inj h⟩
  · rintro ⟨h, rfl⟩
    exact ⟨_, ⟨h.mainAnchor_le, rfl⟩, _, ⟨h.subAnchor_le, rfl⟩, _, ⟨h.share, rfl⟩, _,
      ⟨h.multiplied, rfl⟩, _, ⟨h.used, rfl⟩, rfl⟩

theorem value_relax (c : Pacer) (waiting : Nat) :
    (c.relax waiting).value = .ok (c.relaxed waiting) := by
  unfold relax relaxed
  split <;> rfl

theorem value_accelerate_eq_ok_iff : (c.accelerate waiting).value = .ok c' ↔
    c.FitsFactor waiting ∧ c.accelerated waiting = c' := by
  unfold accelerate FitsFactor
  by_cases hone : c.factor = 1
  · rw [if_pos hone, accelerated_of_one hone]
    exact ⟨fun h ↦ ⟨fun hne ↦ absurd hone hne, Except.ok.inj h⟩, fun h ↦ congrArg _ h.2⟩
  · rw [if_neg hone, accelerated_of_ne_one hone]
    by_cases hlt : c.maxBacklog < waiting
    · rw [if_pos hlt, if_pos hlt, Nat.max_eq_right (Nat.le_of_lt hlt),
        Traced.value_bind_eq_ok_iff]
      simp only [Traced.value_liftM, fit_eq_ok_iff]
      constructor
      · rintro ⟨_, ⟨hfits, rfl⟩, h⟩
        exact ⟨fun _ _ ↦ hfits, Except.ok.inj h⟩
      · rintro ⟨hfits, rfl⟩
        exact ⟨_, ⟨hfits hone hlt, rfl⟩, rfl⟩
    · rw [if_neg hlt, if_neg hlt, Nat.max_eq_left (Nat.not_lt.1 hlt)]
      exact ⟨fun h ↦ ⟨fun _ h ↦ absurd h hlt, Except.ok.inj h⟩, fun h ↦ congrArg _ h.2⟩

theorem inserts_iff_of_not_presses (calm : ¬ c.Presses waiting) :
    c.Inserts waiting ↔ ¬ c.IsKnown ∨ c.Due := by
  refine ⟨fun h ↦ ?_, Or.imp_right .inl⟩
  rcases h with unknown | due | ⟨above, -⟩
  · exact .inl unknown
  · exact .inr due
  · by_cases known : c.IsKnown
    · exact .inr (Classical.byContradiction fun due ↦ calm ⟨known, due, above⟩)
    · exact .inl known

theorem inserts_iff_of_presses (h : c.Presses waiting) :
    c.Inserts waiting ↔ (c.accelerated waiting).DueAccelerated := by
  refine ⟨fun h' ↦ ?_, fun due ↦ .inr (.inr ⟨h.2.2, due⟩)⟩
  rcases h' with unknown | due | ⟨-, due⟩
  · exact absurd h.1 unknown
  · exact absurd due h.2.1
  · exact due

theorem value_decideSlot_of_unknown (unknown : ¬ c.IsKnown) (waiting : Nat) :
    (c.decideSlot waiting).value = .ok (c.relaxed waiting, true) := by
  have hvalues : c.mainBitrate.value = 0 ∨ c.subBitrate.value = 0 := by
    unfold IsKnown at unknown
    omega
  rw [decideSlot, Traced.value_bind_of_ok (value_relax c waiting)]
  exact congrArg Traced.value (if_pos hvalues)

theorem value_decideSlot_of_known (known : c.IsKnown) (waiting : Nat) :
    (c.decideSlot waiting).value = c.isDue >>= fun due ↦
      if due then .ok (c.relaxed waiting, true)
      else if waiting ≤ c.alert then .ok (c.relaxed waiting, false)
      else (c.accelerate waiting).value >>= fun c' ↦ c'.isDueAccelerated >>= fun inserted ↦
        .ok (c', inserted) := by
  have hvalues : ¬ (c.mainBitrate.value = 0 ∨ c.subBitrate.value = 0) := not_or.2 known
  rw [decideSlot, Traced.value_bind_of_ok (value_relax c waiting)]
  refine (congrArg Traced.value (if_neg hvalues)).trans ?_
  rw [Traced.value_bind, Traced.value_liftM]
  refine congrArg (c.isDue >>= ·) (funext fun due ↦ ?_)
  cases due with
  | true => rfl
  | false =>
    by_cases h : waiting ≤ c.alert
    · exact (congrArg Traced.value (if_pos h)).trans (if_pos h).symm
    · refine (congrArg Traced.value (if_neg h)).trans (Eq.trans ?_ (if_neg h).symm)
      rw [relaxed_of_lt (Nat.not_le.1 h), Traced.value_bind]
      simp only [Traced.value_bind, Traced.value_liftM]
      rfl

theorem accelerate_bind_eq_ok_iff : ((c.accelerate waiting).value >>= fun d ↦
      d.isDueAccelerated >>= fun inserted ↦ .ok (d, inserted)) = .ok (c', inserted) ↔
    (c.FitsFactor waiting ∧ (c.accelerated waiting).FitsAccelerated) ∧
      c.accelerated waiting = c' ∧ decide (c.accelerated waiting).DueAccelerated = inserted := by
  rw [bind_eq_ok_iff]
  constructor
  · rintro ⟨_, haccelerate, h⟩
    obtain ⟨hfactor, rfl⟩ := value_accelerate_eq_ok_iff.1 haccelerate
    obtain ⟨_, hdue, h⟩ := bind_eq_ok_iff.1 h
    obtain ⟨haccelerated, rfl⟩ := isDueAccelerated_eq_ok_iff.1 hdue
    cases h
    exact ⟨⟨hfactor, haccelerated⟩, rfl, rfl⟩
  · rintro ⟨⟨hfactor, haccelerated⟩, rfl, rfl⟩
    exact ⟨_, value_accelerate_eq_ok_iff.2 ⟨hfactor, rfl⟩,
      bind_eq_ok_iff.2 ⟨_, isDueAccelerated_eq_ok_iff.2 ⟨haccelerated, rfl⟩, rfl⟩⟩

theorem fits_of_not_presses (calm : ¬ c.Presses waiting) (share : c.IsKnown → c.FitsShare) :
    c.Fits waiting :=
  ⟨share, fun h ↦ absurd h calm, fun h ↦ absurd h calm⟩

theorem ok_relaxed_eq_iff (calm : ¬ c.Presses waiting) (share : c.IsKnown → c.FitsShare)
    {answer : Bool} (h : decide (c.Inserts waiting) = answer) :
    (Except.ok (c.relaxed waiting, answer) : Except Fault _) = .ok (c', inserted) ↔
      c.Fits waiting ∧ c.next waiting = c' ∧ decide (c.Inserts waiting) = inserted := by
  rw [next_of_not_presses calm, h, Except.ok.injEq, Prod.mk.injEq]
  exact (and_iff_right (fits_of_not_presses calm share)).symm

theorem decideSlot_eq_ok_iff : (c.decideSlot waiting).value = .ok (c', inserted) ↔
    c.Fits waiting ∧ c.next waiting = c' ∧ decide (c.Inserts waiting) = inserted := by
  -- the rules, in the order in which they are asked; all but the last leave `relaxed` behind
  by_cases known : c.IsKnown
  case neg =>
    rw [value_decideSlot_of_unknown known]
    exact ok_relaxed_eq_iff (fun h ↦ known h.1) (fun h ↦ absurd h known)
      (decide_eq_true (.inl known))
  rw [value_decideSlot_of_known known]
  by_cases share : c.FitsShare
  case neg =>
    refine iff_of_false (fun h ↦ ?_) fun h ↦ share (h.1.share known)
    obtain ⟨_, hdue, -⟩ := bind_eq_ok_iff.1 h
    exact share (isDue_eq_ok_iff.1 hdue).1
  rw [isDue_eq_ok_iff.2 ⟨share, rfl⟩]
  show (if decide c.Due = true then _ else _) = _ ↔ _
  by_cases due : c.Due
  · rw [if_pos (decide_eq_true due)]
    exact ok_relaxed_eq_iff (fun h ↦ h.2.1 due) (fun _ ↦ share)
      (decide_eq_true (.inr (.inl due)))
  rw [if_neg (by simpa using due)]
  by_cases above : waiting ≤ c.alert
  · have calm : ¬ c.Presses waiting := fun h ↦ Nat.not_lt.2 above h.2.2
    have hinserts : ¬ c.Inserts waiting := fun h ↦
      ((inserts_iff_of_not_presses calm).1 h).elim (· known) due
    rw [if_pos above]
    exact ok_relaxed_eq_iff calm (fun _ ↦ share) (decide_eq_false hinserts)
  · have presses : c.Presses waiting := ⟨known, due, Nat.not_le.1 above⟩
    rw [if_neg above, accelerate_bind_eq_ok_iff, next_of_presses presses,
      decide_eq_decide.2 (inserts_iff_of_presses presses)]
    exact and_congr_left' ⟨fun ⟨h, h'⟩ ↦ ⟨fun _ ↦ share, fun _ ↦ h, fun _ ↦ h'⟩,
      fun h ↦ ⟨h.factor presses, h.accelerated presses⟩⟩

theorem overflowsOnly_isDue (c : Pacer) : OverflowsOnly c.isDue :=
  .bind (.fit _ _) fun _ _ ↦ .bind (.fit _ _) fun _ _ ↦ .ok _

theorem overflowsOnly_isDueAccelerated (c : Pacer) : OverflowsOnly c.isDueAccelerated :=
  .bind (.minus _ _) fun _ _ ↦ .bind (.minus _ _) fun _ _ ↦ .bind (.fit _ _) fun _ _ ↦
    .bind (.fit _ _) fun _ _ ↦ .bind (.fit _ _) fun _ _ ↦ .ok _

theorem overflowsOnly_accelerate (c : Pacer) (waiting : Nat) :
    OverflowsOnly (c.accelerate waiting).value := by
  unfold accelerate
  split
  · exact .ok _
  split
  · rw [Traced.value_bind, Traced.value_liftM]
    exact .bind (.fit _ _) fun _ _ ↦ .ok _
  · exact .ok _

theorem overflowsOnly_decideSlot (c : Pacer) (waiting : Nat) :
    OverflowsOnly (c.decideSlot waiting).value := by
  by_cases known : c.IsKnown
  · rw [value_decideSlot_of_known known]
    refine .bind (overflowsOnly_isDue c) fun due _ ↦ ?_
    split
    · exact .ok _
    split
    · exact .ok _
    · exact .bind (overflowsOnly_accelerate c waiting) fun d _ ↦
        .bind (overflowsOnly_isDueAccelerated d) fun _ _ ↦ .ok _
  · rw [value_decideSlot_of_unknown known]
    exact .ok _

end TransportStream.Pacer
