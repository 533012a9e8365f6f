import TransportStream.Proofs.Pacing.Decisions

namespace TransportStream

namespace TrackedBitrate

variable {t t' : TrackedBitrate} {bitrate percent : Nat} {restarted : Bool}

theorem absorb_eq_ok_iff : t.absorb bitrate = .ok t' ↔
    t.count + 1 < wordLimit ∧ t.average * t.count + bitrate < doubleWordLimit ∧
      { t with
        value := bitrate
        average := (t.average * t.count + bitrate) / (t.count + 1)
        count := t.count + 1 } = t' := by
  simp only [absorb, bind_eq_ok_iff, fit_eq_ok_iff]
  constructor
  · rintro ⟨_, ⟨hcount, rfl⟩, _, ⟨htotal, rfl⟩, h⟩
    exact ⟨hcount, htotal, Except.ok.inj h⟩
  · rintro ⟨hcount, htotal, rfl⟩
    exact ⟨_, ⟨hcount, rfl⟩, _, ⟨htotal, rfl⟩, rfl⟩

/-- Whether a value makes the average start anew: it has none yet, or the value departs from it. -/
def Restarts (t : TrackedBitrate) (bitrate percent : Nat) : Prop :=
  (t.count = 0 ∨ t.average = 0) ∨ t.departs bitrate percent = true

instance : Decidable (t.Restarts bitrate percent) := inferInstanceAs (Decidable (_ ∨ _))

theorem set_eq_ok_iff : (t.set bitrate percent).value = .ok (t', restarted) ↔
    if bitrate = 0 then { stream := t.stream } = t' ∧ false = restarted
    else if t.Restarts bitrate percent then t.restart bitrate = t' ∧ true = restarted
    else t.absorb bitrate = .ok t' ∧ false = restarted := by
  unfold set
  by_cases hzero : bitrate = 0
  · rw [if_pos hzero, if_pos hzero]
    simp
  rw [if_neg hzero, if_neg hzero]
  by_cases unknown : t.count = 0 ∨ t.average = 0
  · have restarts : t.Restarts bitrate percent := .inl unknown
    rw [if_pos unknown, if_pos restarts]
    simp
  rw [if_neg unknown]
  by_cases departs : t.departs bitrate percent = true
  · have restarts : t.Restarts bitrate percent := .inr departs
    rw [if_pos departs, if_pos restarts, Traced.value_bind_of_ok (Traced.value_note _)]
    simp
  · have steady : ¬ t.Restarts bitrate percent := not_or.2 ⟨unknown, departs⟩
    rw [if_neg departs, if_neg steady, Traced.value_bind_eq_ok_iff, Traced.value_liftM]
    constructor
    · rintro ⟨u, habsorb, h⟩
      cases h
      exact ⟨habsorb, rfl⟩
    · rintro ⟨habsorb, rfl⟩
      exact ⟨t', habsorb, rfl⟩

theorem exists_set_of_absorb (absorbed : t.absorb bitrate = .ok t') (percent : Nat) :
    ∃ u restarted, (t.set bitrate percent).value = .ok (u, restarted) := by
  simp only [set_eq_ok_iff]
  split
  · exact ⟨_, _, rfl, rfl⟩
  split
  · exact ⟨_, _, rfl, rfl⟩
  · exact ⟨t', false, absorbed, rfl⟩

theorem value_of_set (set : (t.set bitrate percent).value = .ok (t', restarted)) :
    t'.value = bitrate := by
  have hset := set_eq_ok_iff.1 set
  split at hset
  · next hzero =>
    obtain ⟨rfl, -⟩ := hset
    exact hzero.symm
  split at hset
  · obtain ⟨rfl, -⟩ := hset
    rfl
  · obtain ⟨-, -, rfl⟩ := absorb_eq_ok_iff.1 hset.1
    rfl

end TrackedBitrate

namespace Pacer

inductive Operation
  | decideSlot (waiting : Nat)
  | countMain (n : Nat)
  | countSub (n : Nat)
  | setMainBitrate (bitrate : Nat)
  | setSubBitrate (bitrate : Nat)
  | setAlert (level : Nat)
  | setResetPercent (percent : Nat)
  | reset
deriving DecidableEq, Repr

namespace Operation

def argument : Operation → Nat
  | decideSlot n | countMain n | countSub n | setMainBitrate n | setSubBitrate n | setAlert n
  | setResetPercent n => n
  | reset => 0

def backlog? : Operation → Option Nat
  | decideSlot waiting => some waiting
  | _ => none

end Operation

def perform (c : Pacer) : Operation → Except Fault Pacer
  | .decideSlot waiting => return (← (c.decideSlot waiting).value).1
  | .countMain n => c.countMain n
  | .countSub n => c.countSub n
  | .setMainBitrate bitrate => (c.setMainBitrate bitrate).value
  | .setSubBitrate bitrate => (c.setSubBitrate bitrate).value
  | .setAlert level => return { c with alert := level }
  | .setResetPercent percent => return { c with resetPercent := percent }
  | .reset => return c.reset

structure Event where
  before : Pacer
  operation : Operation
  after : Pacer
deriving DecidableEq

inductive Run : List Event → Pacer → Prop
  | start : Run [] {}
  | perform {events : List Event} {c c' : Pacer} {operation : Operation} (h : Run events c)
      (performed : c.perform operation = .ok c') : Run (events ++ [⟨c, operation, c'⟩]) c'

variable {c c' : Pacer} {operation : Operation} {events more : List Event}
  {operations : List Operation} {bitrate : Nat}

def performAll (c : Pacer) : List Operation → Except Fault (List Event × Pacer)
  | [] => .ok ([], c)
  | operation :: rest => do
    let next ← c.perform operation
    let (events, last) ← next.performAll rest
    return (⟨c, operation, next⟩ :: events, last)

theorem Run.performAll (h : Run events c) (performed : c.performAll operations = .ok (more, c')) :
    Run (events ++ more) c' := by
  induction operations generalizing c events more with
  | nil =>
    cases performed
    rwa [List.append_nil]
  | cons operation rest ih =>
    obtain ⟨next, hnext, performed⟩ := bind_eq_ok_iff.1 performed
    obtain ⟨⟨_, _⟩, hrest, performed⟩ := bind_eq_ok_iff.1 performed
    cases performed
    rw [List.append_cons]
    exact ih (h.perform hnext) hrest

theorem setMainBitrate_eq_ok_iff : (c.setMainBitrate bitrate).value = .ok c' ↔
    ∃ t restarted, (c.mainBitrate.set bitrate c.resetPercent).value = .ok (t, restarted) ∧
      (if restarted then { c with mainBitrate := t }.reset else { c with mainBitrate := t }) =
        c' := by
  rw [setMainBitrate, Traced.value_bind_eq_ok_iff]
  constructor
  · rintro ⟨⟨t, restarted⟩, hset, h⟩
    exact ⟨t, restarted, hset, Except.ok.inj h⟩
  · rintro ⟨t, restarted, hset, rfl⟩
    exact ⟨_, hset, rfl⟩

theorem setSubBitrate_eq_ok_iff : (c.setSubBitrate bitrate).value = .ok c' ↔
    ∃ t restarted, (c.subBitrate.set bitrate c.resetPercent).value = .ok (t, restarted) ∧
      (if restarted then { c with subBitrate := t }.reset else { c with subBitrate := t }) =
        c' := by
  rw [setSubBitrate, Traced.value_bind_eq_ok_iff]
  constructor
  · rintro ⟨⟨t, restarted⟩, hset, h⟩
    exact ⟨t, restarted, hset, Except.ok.inj h⟩
  · rintro ⟨t, restarted, hset, rfl⟩
    exact ⟨_, hset, rfl⟩

theorem perform_decideSlot_eq_ok_iff {waiting : Nat} :
    c.perform (.decideSlot waiting) = .ok c' ↔ c.Fits waiting ∧ c.next waiting = c' := by
  refine bind_eq_ok_iff.trans ⟨?_, fun ⟨fits, hnext⟩ ↦ ?_⟩
  · rintro ⟨⟨_, _⟩, hdecide, h⟩
    cases h
    obtain ⟨fits, hnext, -⟩ := decideSlot_eq_ok_iff.1 hdecide
    exact ⟨fits, hnext⟩
  · exact ⟨_, decideSlot_eq_ok_iff.2 ⟨fits, hnext, rfl⟩, rfl⟩

structure Continues (c c' : Pacer) : Prop where
  mainPackets : c.mainPackets ≤ c'.mainPackets
  subPackets : c.subPackets ≤ c'.subPackets
  factor : c'.factor = c.factor
  mainAnchor : c'.mainAnchor = c.mainAnchor
  subAnchor : c'.subAnchor = c.subAnchor
  maxBacklog : c'.maxBacklog = c.maxBacklog

inductive Effect (c c' : Pacer) : Operation → Prop
  | decides {waiting : Nat} (fits : c.Fits waiting) (next : c.next waiting = c') :
      Effect c c' (.decideSlot waiting)
  | continues {operation : Operation} (other : operation.backlog? = none) (h : c.Continues c') :
      Effect c c' operation
  | restarts {operation : Operation} (other : operation.backlog? = none) (h : c'.reset = c') :
      Effect c c' operation

theorem effect_of_perform (performed : c.perform operation = .ok c') : Effect c c' operation := by
  cases operation with
  | decideSlot waiting =>
    obtain ⟨fits, hnext⟩ := perform_decideSlot_eq_ok_iff.1 performed
    exact .decides fits hnext
  | countMain n =>
    obtain ⟨-, rfl⟩ := countMain_eq_ok_iff.1 performed
    exact .continues rfl ⟨Nat.le_add_right _ _, Nat.le_refl _, rfl, rfl, rfl, rfl⟩
  | countSub n =>
    obtain ⟨-, rfl⟩ := countSub_eq_ok_iff.1 performed
    exact .continues rfl ⟨Nat.le_refl _, Nat.le_add_right _ _, rfl, rfl, rfl, rfl⟩
  | setMainBitrate bitrate =>
    obtain ⟨t, restarted, -, rfl⟩ := setMainBitrate_eq_ok_iff.1 performed
    cases restarted with
    | true => exact .restarts rfl rfl
    | false => exact .continues rfl ⟨Nat.le_refl _, Nat.le_refl _, rfl, rfl, rfl, rfl⟩
  | setSubBitrate bitrate =>
    obtain ⟨t, restarted, -, rfl⟩ := setSubBitrate_eq_ok_iff.1 performed
    cases restarted with
    | true => exact .restarts rfl rfl
    | false => exact .continues rfl ⟨Nat.le_refl _, Nat.le_refl _, rfl, rfl, rfl, rfl⟩
  | setAlert level =>
    cases performed
    exact .continues rfl ⟨Nat.le_refl _, Nat.le_refl _, rfl, rfl, rfl, rfl⟩
  | setResetPercent percent =>
    cases performed
    exact .continues rfl ⟨Nat.le_refl _, Nat.le_refl _, rfl, rfl, rfl, rfl⟩
  | reset =>
    cases performed
    exact .restarts rfl rfl

structure Sound (c : Pacer) : Prop where
  factor_pos : 0 < c.factor
  factor_lt : c.factor < wordLimit
  mainAnchor_le : c.mainAnchor ≤ c.mainPackets
  subAnchor_le : c.subAnchor ≤ c.subPackets

theorem sound_reset (c : Pacer) : c.reset.Sound where
  factor_pos := Nat.one_pos
  factor_lt := by
    show 1 < wordLimit
    decide
  mainAnchor_le := Nat.le_refl 0
  subAnchor_le := Nat.le_refl 0

theorem Sound.fitsFactor_iff (h : c.Sound) {waiting : Nat} :
    c.FitsFactor waiting ↔ (c.accelerated waiting).factor < wordLimit := by
  by_cases hone : c.factor = 1
  · rw [accelerated_of_one hone]
    have htwo : 2 < wordLimit := by decide
    exact iff_of_true (fun hne ↦ absurd hone hne) htwo
  · rw [accelerated_of_ne_one hone]
    show _ ↔ (if c.maxBacklog < waiting then c.factor + 1 else c.factor) < wordLimit
    by_cases hrecord : c.maxBacklog < waiting
    · rw [if_pos hrecord]
      exact ⟨fun fits ↦ fits hone hrecord, fun hlt _ _ ↦ hlt⟩
    · rw [if_neg hrecord]
      exact iff_of_true (fun _ hlt ↦ absurd hlt hrecord) h.factor_lt

theorem Sound.anchors_le_accelerated (h : c.Sound) (waiting : Nat) :
    (c.accelerated waiting).mainAnchor ≤ (c.accelerated waiting).mainPackets ∧
      (c.accelerated waiting).subAnchor ≤ (c.accelerated waiting).subPackets := by
  by_cases hone : c.factor = 1
  · rw [accelerated_of_one hone]
    exact ⟨Nat.le_refl _, Nat.le_refl _⟩
  · rw [accelerated_of_ne_one hone]
    exact ⟨h.mainAnchor_le, h.subAnchor_le⟩

theorem Sound.accelerated (h : c.Sound) {waiting : Nat} (fits : c.FitsFactor waiting) :
    (c.accelerated waiting).Sound := by
  obtain ⟨hmain, hsub⟩ := h.anchors_le_accelerated waiting
  have hpos := Nat.lt_of_lt_of_le h.factor_pos (le_factor_accelerated c waiting)
  exact ⟨hpos, h.fitsFactor_iff.1 fits, hmain, hsub⟩

theorem Sound.relaxed (h : c.Sound) (waiting : Nat) : (c.relaxed waiting).Sound := by
  have hpos := h.factor_pos
  have hlt := h.factor_lt
  refine ⟨?_, ?_, h.mainAnchor_le, h.subAnchor_le⟩ <;>
  · simp only [Pacer.relaxed]
    split <;> omega

theorem Sound.next (h : c.Sound) {waiting : Nat} (fits : c.Fits waiting) :
    (c.next waiting).Sound := by
  by_cases presses : c.Presses waiting
  · rw [next_of_presses presses]
    exact h.accelerated (fits.factor presses)
  · rw [next_of_not_presses presses]
    exact h.relaxed waiting

theorem Sound.of_effect (h : c.Sound) (effect : Effect c c' operation) : c'.Sound := by
  cases effect with
  | decides fits hnext => exact hnext ▸ h.next fits
  | continues _ hkept =>
    refine ⟨hkept.factor ▸ h.factor_pos, hkept.factor ▸ h.factor_lt, ?_, ?_⟩
    · exact hkept.mainAnchor ▸ Nat.le_trans h.mainAnchor_le hkept.mainPackets
    · exact hkept.subAnchor ▸ Nat.le_trans h.subAnchor_le hkept.subPackets
  | restarts _ hreset => exact hreset ▸ sound_reset c'

theorem Run.sound (h : Run events c) : c.Sound := by
  induction h with
  | start => exact sound_reset {}
  | perform _ performed ih => exact ih.of_effect (effect_of_perform performed)

theorem Sized.reset (h : c.Sized) : c.reset.Sized :=
  ⟨Nat.zero_lt_of_lt h.mainPackets, Nat.zero_lt_of_lt h.subPackets, h.mainBitrate, h.subBitrate⟩

theorem Sized.of_perform (h : c.Sized) (small : operation.argument < wordLimit)
    (performed : c.perform operation = .ok c') : c'.Sized := by
  cases operation with
  | decideSlot waiting =>
    obtain ⟨-, rfl⟩ := perform_decideSlot_eq_ok_iff.1 performed
    rw [next_eq]
    exact ⟨h.mainPackets, h.subPackets, h.mainBitrate, h.subBitrate⟩
  | countMain n =>
    obtain ⟨room, rfl⟩ := countMain_eq_ok_iff.1 performed
    exact ⟨room, h.subPackets, h.mainBitrate, h.subBitrate⟩
  | countSub n =>
    obtain ⟨room, rfl⟩ := countSub_eq_ok_iff.1 performed
    exact ⟨h.mainPackets, room, h.mainBitrate, h.subBitrate⟩
  | setMainBitrate bitrate =>
    obtain ⟨t, restarted, hset, rfl⟩ := setMainBitrate_eq_ok_iff.1 performed
    have hvalue : t.value < wordLimit := TrackedBitrate.value_of_set hset ▸ small
    have sized : Sized { c with mainBitrate := t } :=
      ⟨h.mainPackets, h.subPackets, hvalue, h.subBitrate⟩
    cases restarted with
    | true => exact sized.reset
    | false => exact sized
  | setSubBitrate bitrate =>
    obtain ⟨t, restarted, hset, rfl⟩ := setSubBitrate_eq_ok_iff.1 performed
    have hvalue : t.value < wordLimit := TrackedBitrate.value_of_set hset ▸ small
    have sized : Sized { c with subBitrate := t } :=
      ⟨h.mainPackets, h.subPackets, h.mainBitrate, hvalue⟩
    cases restarted with
    | true => exact sized.reset
    | false => exact sized
  | setAlert level =>
    cases performed
    exact ⟨h.mainPackets, h.subPackets, h.mainBitrate, h.subBitrate⟩
  | setResetPercent percent =>
    cases performed
    exact ⟨h.mainPackets, h.subPackets, h.mainBitrate, h.subBitrate⟩
  | reset =>
    cases performed
    exact h.reset

theorem Run.sized (h : Run events c)
    (small : ∀ e ∈ events, e.operation.argument < wordLimit) : c.Sized := by
  induction h with
  | start => exact ⟨by decide, by decide, by decide, by decide⟩
  | perform _ performed ih =>
    refine Sized.of_perform (ih fun e he ↦ small e (List.mem_append_left _ he)) ?_ performed
    exact small _ (List.mem_append_right _ (List.mem_singleton_self _))

end Pacer

end TransportStream
