import Mathlib.Algebra.Order.Field.Basic
import Mathlib.Algebra.Order.Field.Rat
import Mathlib.Data.Nat.Cast.Order.Ring
import Mathlib.Tactic.FieldSimp
import Mathlib.Tactic.Linarith
import Mathlib.Tactic.Positivity
import Mathlib.Tactic.Ring
import TransportStream.Proofs.Pacing.Runs

namespace TransportStream

/-- The average that is kept of some values, the latest first. -/
def keptAverage : List Nat → Nat
  | [] => 0
  | v :: earlier => (keptAverage earlier * earlier.length + v) / (earlier.length + 1)

/-- What the divisions have left over in all. -/
def leftOver : List Nat → Nat
  | [] => 0
  | v :: earlier =>
    leftOver earlier + (keptAverage earlier * earlier.length + v) % (earlier.length + 1)

def mean (values : List Nat) : ℚ :=
  values.sum / values.length

variable {values : List Nat} {bound : Nat}

theorem keptAverage_mul_add_leftOver (values : List Nat) :
    keptAverage values * values.length + leftOver values = values.sum := by
  induction values with
  | nil => rfl
  | cons v earlier ih =>
    have hdiv := Nat.div_add_mod' (keptAverage earlier * earlier.length + v) (earlier.length + 1)
    rw [keptAverage, leftOver, List.length_cons, List.sum_cons]
    omega

theorem two_mul_leftOver_add_length_le (values : List Nat) :
    2 * leftOver values + values.length ≤ values.length * values.length := by
  induction values with
  | nil => exact Nat.le_refl 0
  | cons v earlier ih =>
    have hmod : (keptAverage earlier * earlier.length + v) % (earlier.length + 1) ≤
        earlier.length := Nat.le_of_lt_succ (Nat.mod_lt _ earlier.length.succ_pos)
    have hsquare : (earlier.length + 1) * (earlier.length + 1) =
        earlier.length * earlier.length + 2 * earlier.length + 1 := by ring
    rw [leftOver, List.length_cons, hsquare]
    omega

theorem keptAverage_le (h : ∀ v ∈ values, v ≤ bound) : keptAverage values ≤ bound := by
  induction values with
  | nil => exact Nat.zero_le _
  | cons v earlier ih =>
    have hv := h v (List.mem_cons_self ..)
    have hearlier := ih fun w hw ↦ h w (List.mem_cons_of_mem _ hw)
    rw [keptAverage]
    refine Nat.div_le_of_le_mul ?_
    calc keptAverage earlier * earlier.length + v
        ≤ bound * earlier.length + bound := Nat.add_le_add (Nat.mul_le_mul_right _ hearlier) hv
      _ = (earlier.length + 1) * bound := by rw [Nat.mul_comm, Nat.succ_mul]

theorem le_keptAverage (h : ∀ v ∈ values, bound ≤ v) (hne : values ≠ []) :
    bound ≤ keptAverage values := by
  induction values with
  | nil => exact absurd rfl hne
  | cons v earlier ih =>
    have hv := h v (List.mem_cons_self ..)
    have hearlier : bound * earlier.length ≤ keptAverage earlier * earlier.length := by
      cases earlier with
      | nil => exact Nat.le_refl _
      | cons w rest =>
        have hrest := ih (fun u hu ↦ h u (List.mem_cons_of_mem _ hu)) (List.cons_ne_nil w rest)
        exact Nat.mul_le_mul_right _ hrest
    rw [keptAverage, Nat.le_div_iff_mul_le earlier.length.succ_pos, Nat.mul_succ]
    exact Nat.add_le_add hearlier hv

theorem mean_eq (hne : values ≠ []) :
    mean values = keptAverage values + leftOver values / values.length := by
  have hlength : (values.length : ℚ) ≠ 0 := by
    exact_mod_cast (List.length_pos_of_ne_nil hne).ne'
  rw [mean, ← keptAverage_mul_add_leftOver]
  push_cast
  field_simp

theorem mean_sub_keptAverage_le (hne : values ≠ []) :
    mean values - keptAverage values ≤ (values.length - 1) / 2 := by
  have hlength : (0 : ℚ) < values.length := by exact_mod_cast List.length_pos_of_ne_nil hne
  have hleft : (2 * leftOver values + values.length : ℚ) ≤ values.length * values.length := by
    exact_mod_cast two_mul_leftOver_add_length_le values
  rw [mean_eq hne, add_sub_cancel_left, div_le_div_iff₀ hlength two_pos]
  linarith

theorem abs_keptAverage_sub_mean_lt_one_iff (hne : values ≠ []) :
    |keptAverage values - mean values| < 1 ↔ leftOver values < values.length := by
  have hlength : (0 : ℚ) < values.length := by exact_mod_cast List.length_pos_of_ne_nil hne
  have hleft : (0 : ℚ) ≤ leftOver values / values.length := by positivity
  rw [mean_eq hne, sub_add_cancel_left, abs_neg, abs_of_nonneg hleft, div_lt_one hlength]
  exact Nat.cast_lt

namespace TrackedBitrate

variable {t t' : TrackedBitrate} {bitrate percent : Nat} {restarted : Bool}

/-- Whether a value is a significant change: nothing was known, or it departs from the average. -/
def Changes (t : TrackedBitrate) (bitrate percent : Nat) : Prop :=
  t.value = 0 ∨ t.departs bitrate percent = true

instance : Decidable (t.Changes bitrate percent) := inferInstanceAs (Decidable (_ ∨ _))

/-- The values since the last significant change, when another one comes. Zero is no value. -/
def receives (t : TrackedBitrate) (values : List Nat) (bitrate percent : Nat) : List Nat :=
  if bitrate = 0 then [] else if t.Changes bitrate percent then [bitrate] else bitrate :: values

theorem departs_iff : t.departs bitrate percent = true ↔
    (t.average * percent : ℚ) < |(bitrate : ℚ) - t.average| * 100 := by
  have hdistance : ((max bitrate t.average - min bitrate t.average : ℕ) : ℚ) =
      |(bitrate : ℚ) - t.average| := by
    rw [Nat.cast_sub min_le_max, Nat.cast_max, Nat.cast_min, max_sub_min_eq_abs, abs_sub_comm]
  rw [departs, decide_eq_true_iff, ← hdistance]
  exact_mod_cast Iff.rfl

structure Keeps (t : TrackedBitrate) (values : List Nat) : Prop where
  value : t.value = values.headD 0
  average : t.average = keptAverage values
  count : t.count = values.length
  positive : ∀ v ∈ values, 0 < v

theorem Keeps.value_eq_zero_iff (h : t.Keeps values) : t.value = 0 ↔ values = [] := by
  rw [h.value]
  cases values with
  | nil => exact iff_of_true rfl rfl
  | cons v earlier =>
    exact iff_of_false (Nat.ne_of_gt (h.positive v (List.mem_cons_self ..)))
      (List.cons_ne_nil _ _)

theorem Keeps.changes_iff (h : t.Keeps values) : t.Changes bitrate percent ↔
    values = [] ∨ (t.average * percent : ℚ) < |(bitrate : ℚ) - t.average| * 100 :=
  or_congr h.value_eq_zero_iff departs_iff

/-- The average of known values is not zero, so only the count says that none is known. -/
theorem Keeps.restarts_iff (h : t.Keeps values) :
    t.Restarts bitrate percent ↔ t.Changes bitrate percent := by
  refine or_congr_left ?_
  rw [h.value_eq_zero_iff, h.count, h.average, List.length_eq_zero_iff]
  refine or_iff_left_of_imp fun hzero ↦ Classical.byContradiction fun hne ↦ ?_
  exact Nat.ne_of_gt (le_keptAverage h.positive hne) hzero

theorem keeps_nil (stream : StreamRole) : Keeps { stream := stream } [] :=
  ⟨rfl, rfl, rfl, fun _ h ↦ by cases h⟩

theorem keeps_restart (hne : bitrate ≠ 0) : (t.restart bitrate).Keeps [bitrate] where
  value := rfl
  average := by simp [restart, keptAverage]
  count := rfl
  positive _ hv := List.mem_singleton.1 hv ▸ Nat.pos_of_ne_zero hne

theorem Keeps.absorb (h : t.Keeps values) (hne : bitrate ≠ 0)
    (absorbed : t.absorb bitrate = .ok t') : t'.Keeps (bitrate :: values) := by
  obtain ⟨-, -, rfl⟩ := absorb_eq_ok_iff.1 absorbed
  refine ⟨rfl, ?_, congrArg Nat.succ h.count, fun v hv ↦ ?_⟩
  · show (t.average * t.count + bitrate) / (t.count + 1) = _
    rw [h.average, h.count, keptAverage]
  · rcases List.mem_cons.1 hv with rfl | hv
    · exact Nat.pos_of_ne_zero hne
    · exact h.positive v hv

theorem Keeps.set (h : t.Keeps values) (set : (t.set bitrate percent).value = .ok (t', restarted)) :
    t'.Keeps (t.receives values bitrate percent) ∧
      (restarted = true ↔ bitrate ≠ 0 ∧ t.Changes bitrate percent) := by
  have hset := set_eq_ok_iff.1 set
  unfold receives
  by_cases hzero : bitrate = 0
  · rw [if_pos hzero] at hset ⊢
    obtain ⟨rfl, rfl⟩ := hset
    exact ⟨keeps_nil _, by simp [hzero]⟩
  rw [if_neg hzero] at hset ⊢
  by_cases changes : t.Changes bitrate percent
  · rw [if_pos (h.restarts_iff.2 changes)] at hset
    rw [if_pos changes]
    obtain ⟨rfl, rfl⟩ := hset
    exact ⟨keeps_restart hzero, by simp [hzero, changes]⟩
  · rw [if_neg (mt h.restarts_iff.1 changes)] at hset
    rw [if_neg changes]
    obtain ⟨habsorb, rfl⟩ := hset
    exact ⟨h.absorb hzero habsorb, by simp [changes]⟩

theorem Keeps.exists_set (h : t.Keeps values) (small : ∀ v ∈ bitrate :: values, v < wordLimit)
    (room : values.length + 1 < wordLimit) (percent : Nat) :
    ∃ t' restarted, (t.set bitrate percent).value = .ok (t', restarted) := by
  have hlargest : ∀ v ∈ values, v ≤ wordLimit - 1 := fun v hv ↦
    Nat.le_sub_one_of_lt (small v (List.mem_cons_of_mem _ hv))
  have haverage : t.average ≤ wordLimit - 1 := h.average ▸ keptAverage_le hlargest
  have htotal : t.average * t.count + bitrate < doubleWordLimit := by
    have hbitrate := small bitrate (List.mem_cons_self ..)
    calc t.average * t.count + bitrate
        ≤ (wordLimit - 1) * t.count + (wordLimit - 1) :=
          Nat.add_le_add (Nat.mul_le_mul_right _ haverage) (Nat.le_sub_one_of_lt hbitrate)
      _ = (wordLimit - 1) * (t.count + 1) := (Nat.mul_succ _ _).symm
      _ < doubleWordLimit := Pacer.mul_lt_doubleWordLimit (by decide) (h.count ▸ room)
  exact exists_set_of_absorb (absorb_eq_ok_iff.2 ⟨h.count ▸ room, htotal, rfl⟩) percent

end TrackedBitrate

namespace Pacer

open TrackedBitrate (receives)

variable {c c' : Pacer} {operation : Operation} {events : List Event} {role : StreamRole}
  {bitrate : Nat}

def tracked (c : Pacer) : StreamRole → TrackedBitrate
  | .main => c.mainBitrate
  | .sub => c.subBitrate

def withTracked (c : Pacer) (t : TrackedBitrate) : StreamRole → Pacer
  | .main => { c with mainBitrate := t }
  | .sub => { c with subBitrate := t }

namespace Operation

def setBitrate : StreamRole → Nat → Operation
  | .main => setMainBitrate
  | .sub => setSubBitrate

def bitrate? : StreamRole → Operation → Option Nat
  | .main, setMainBitrate bitrate | .sub, setSubBitrate bitrate => some bitrate
  | _, _ => none

theorem eq_setBitrate (h : operation.bitrate? role = some bitrate) :
    operation = setBitrate role bitrate := by
  cases role <;> cases operation <;> cases h <;> rfl

theorem bitrate?_setBitrate (role : StreamRole) (bitrate : Nat) :
    bitrate? role (setBitrate role bitrate) = some bitrate := by
  cases role <;> rfl

end Operation

theorem perform_setBitrate_eq_ok_iff : c.perform (.setBitrate role bitrate) = .ok c' ↔
    ∃ t restarted, ((c.tracked role).set bitrate c.resetPercent).value = .ok (t, restarted) ∧
      (if restarted then (c.withTracked t role).reset else c.withTracked t role) = c' := by
  cases role with
  | main => exact setMainBitrate_eq_ok_iff
  | sub => exact setSubBitrate_eq_ok_iff

theorem tracked_of_perform (performed : c.perform operation = .ok c')
    (other : operation.bitrate? role = none) : c'.tracked role = c.tracked role := by
  cases operation with
  | decideSlot waiting =>
    obtain ⟨-, rfl⟩ := perform_decideSlot_eq_ok_iff.1 performed
    cases role with
    | main => exact next_mainBitrate c waiting
    | sub => exact next_subBitrate c waiting
  | countMain n =>
    obtain ⟨-, rfl⟩ := countMain_eq_ok_iff.1 performed
    cases role <;> rfl
  | countSub n =>
    obtain ⟨-, rfl⟩ := countSub_eq_ok_iff.1 performed
    cases role <;> rfl
  | setMainBitrate bitrate =>
    obtain ⟨t, restarted, -, rfl⟩ := setMainBitrate_eq_ok_iff.1 performed
    cases role with
    | main => cases other
    | sub => cases restarted <;> rfl
  | setSubBitrate bitrate =>
    obtain ⟨t, restarted, -, rfl⟩ := setSubBitrate_eq_ok_iff.1 performed
    cases role with
    | main => cases restarted <;> rfl
    | sub => cases other
  | setAlert level =>
    cases performed
    cases role <;> rfl
  | setResetPercent percent =>
    cases performed
    cases role <;> rfl
  | reset =>
    cases performed
    cases role <;> rfl

def receive (role : StreamRole) (values : List Nat) (e : Event) : List Nat :=
  match e.operation.bitrate? role with
  | some bitrate => (e.before.tracked role).receives values bitrate e.before.resetPercent
  | none => values

/-- The values of a bitrate since, and with, its last significant change, the latest first. -/
def received (role : StreamRole) (events : List Event) : List Nat :=
  events.foldl (receive role) []

theorem received_append_singleton (role : StreamRole) (events : List Event) (e : Event) :
    received role (events ++ [e]) = receive role (received role events) e := by
  rw [received, List.foldl_append]
  rfl

theorem receive_setBitrate (c c' : Pacer) (role : StreamRole) (values : List Nat) (bitrate : Nat) :
    receive role values ⟨c, .setBitrate role bitrate, c'⟩ =
      (c.tracked role).receives values bitrate c.resetPercent := by
  rw [receive, Operation.bitrate?_setBitrate]

theorem Run.keeps (h : Run events c) (role : StreamRole) :
    (c.tracked role).Keeps (received role events) := by
  induction h with
  | start => cases role <;> exact TrackedBitrate.keeps_nil _
  | @perform events c c' operation _ performed ih =>
    rw [received_append_singleton]
    cases hop : operation.bitrate? role with
    | none =>
      rw [receive, hop, tracked_of_perform performed hop]
      exact ih
    | some bitrate =>
      obtain rfl := Operation.eq_setBitrate hop
      obtain ⟨t, restarted, hset, rfl⟩ := perform_setBitrate_eq_ok_iff.1 performed
      rw [receive_setBitrate]
      have htracked : Pacer.tracked (if restarted then (c.withTracked t role).reset
          else c.withTracked t role) role = t := by
        cases restarted <;> cases role <;> rfl
      rw [htracked]
      exact (ih.set hset).1

/-- The average of a bitrate at every point of a history, against the mean of the values since, and
with, the last significant change. It is the mean without what the divisions have left over: less
than one below it exactly as long as that is less than the number of values, and never more than
half of that number. Whether the counts start anew is decided against this average. -/
theorem Run.average_of_received (h : Run events c) (role : StreamRole) :
    ((c.tracked role).value = 0 ↔ received role events = []) ∧
    (received role events ≠ [] →
      mean (received role events) = (c.tracked role).average +
        leftOver (received role events) / (received role events).length ∧
      mean (received role events) - (c.tracked role).average ≤
        ((received role events).length - 1) / 2 ∧
      (|(c.tracked role).average - mean (received role events)| < 1 ↔
        leftOver (received role events) < (received role events).length)) ∧
    (∀ bitrate next, c.perform (.setBitrate role bitrate) = .ok next →
      if bitrate ≠ 0 ∧ (received role events = [] ∨
        ((c.tracked role).average * c.resetPercent : ℚ) <
          |(bitrate : ℚ) - (c.tracked role).average| * 100)
      then next.mainPackets = 0 ∧ next.subPackets = 0 ∧
        received role (events ++ [⟨c, .setBitrate role bitrate, next⟩]) = [bitrate]
      else next.mainPackets = c.mainPackets ∧ next.subPackets = c.subPackets ∧
        received role (events ++ [⟨c, .setBitrate role bitrate, next⟩]) =
          if bitrate = 0 then [] else bitrate :: received role events) ∧
    (∀ bitrate, (∀ v ∈ bitrate :: received role events, v < wordLimit) →
      (received role events).length + 1 < wordLimit →
      ∃ next, c.perform (.setBitrate role bitrate) = .ok next) := by
  have keeps := h.keeps role
  refine ⟨keeps.value_eq_zero_iff, fun hne ↦ ?_, fun bitrate next performed ↦ ?_,
    fun bitrate small room ↦ ?_⟩
  · rw [keeps.average]
    exact ⟨mean_eq hne, mean_sub_keptAverage_le hne, abs_keptAverage_sub_mean_lt_one_iff hne⟩
  · obtain ⟨t, restarted, hset, rfl⟩ := perform_setBitrate_eq_ok_iff.1 performed
    have hchange := (keeps.set hset).2
    have hdeparture := hchange.trans (and_congr_right' keeps.changes_iff)
    rw [received_append_singleton, receive_setBitrate, receives]
    cases restarted with
    | true =>
      obtain ⟨hne, changes⟩ := hchange.1 rfl
      rw [if_pos (hdeparture.1 rfl), if_neg hne, if_pos changes]
      exact ⟨rfl, rfl, rfl⟩
    | false =>
      have steady := mt hchange.2 Bool.false_ne_true
      rw [if_neg (mt hdeparture.2 Bool.false_ne_true)]
      refine ⟨by cases role <;> rfl, by cases role <;> rfl, ?_⟩
      by_cases hzero : bitrate = 0
      · rw [if_pos hzero, if_pos hzero]
      · rw [if_neg hzero, if_neg hzero, if_neg (not_and.1 steady hzero)]
  · obtain ⟨t, restarted, hset⟩ := keeps.exists_set small room c.resetPercent
    exact ⟨_, perform_setBitrate_eq_ok_iff.2 ⟨t, restarted, hset, rfl⟩⟩

theorem Run.average_of_received_rising : ∃ events c, Run events c ∧
    received .main events = [104, 103, 102, 101, 100] ∧ c.mainBitrate.average = 100 ∧
    leftOver (received .main events) = 10 ∧
    mean (received .main events) = (100 : ℕ) + (10 : ℕ) / 5 ∧
    ∃ next, c.perform (.setMainBitrate 105) = .ok next ∧
      received .main (events ++ [⟨c, .setMainBitrate 105, next⟩]) =
        [105, 104, 103, 102, 101, 100] := by
  have hrun : (Pacer.performAll {} [.setMainBitrate 100, .setMainBitrate 101, .setMainBitrate 102,
      .setMainBitrate 103, .setMainBitrate 104] >>= fun r ↦
        .ok (received .main r.1, r.2.mainBitrate.average, r.2.resetPercent)) =
      .ok ([104, 103, 102, 101, 100], 100, 10) := rfl
  obtain ⟨⟨events, c⟩, performed, h⟩ := bind_eq_ok_iff.1 hrun
  obtain ⟨hreceived, h⟩ := Prod.mk.inj (Except.ok.inj h)
  obtain ⟨haverage, hpercent⟩ := Prod.mk.inj h
  have run : Run events c := Run.start.performAll performed
  obtain ⟨-, average, decision, exists_next⟩ := Run.average_of_received run .main
  change received .main events = _ at hreceived
  change (c.tracked .main).average = _ at haverage
  change c.resetPercent = _ at hpercent
  rw [hreceived, haverage] at average decision
  rw [hreceived] at exists_next
  obtain ⟨next, hnext⟩ := exists_next 105 (by decide) (by decide)
  have steady : ¬ (105 ≠ 0 ∧ ([104, 103, 102, 101, 100] = [] ∨
      ((100 : ℕ) * (10 : ℕ) : ℚ) < |((105 : ℕ) : ℚ) - (100 : ℕ)| * 100)) := by
    rintro ⟨-, hnone | departs⟩
    · exact List.cons_ne_nil _ _ hnone
    · norm_num at departs
  have hkept := decision 105 next hnext
  rw [hpercent, if_neg steady] at hkept
  refine ⟨events, c, run, hreceived, haverage, ?_, ?_, next, hnext, hkept.2.2⟩
  · rw [hreceived]
    rfl
  · rw [hreceived]
    exact (average (List.cons_ne_nil _ _)).1

/-- The mean of three bitrates is 101 and their average 100, so that a fourth one loses the counts
without departing from the mean. -/
theorem average_falls_behind : ∃ events c next,
    Pacer.performAll {} [.setMainBitrate 100, .setMainBitrate 101, .setMainBitrate 102,
      .countMain 5] = .ok (events, c) ∧
    Run events c ∧ received .main events = [102, 101, 100] ∧
    ¬ |(c.mainBitrate.average : ℚ) - mean (received .main events)| < 1 ∧
    |(111 : ℚ) - mean (received .main events)| * 100 ≤
      mean (received .main events) * c.resetPercent ∧
    c.mainPackets = 5 ∧ c.perform (.setMainBitrate 111) = .ok next ∧ next.mainPackets = 0 := by
  have hrun : (Pacer.performAll {} [.setMainBitrate 100, .setMainBitrate 101, .setMainBitrate 102,
      .countMain 5] >>= fun r ↦ r.2.perform (.setMainBitrate 111) >>= fun next ↦
        .ok (received .main r.1, r.2.mainBitrate.average, r.2.resetPercent, r.2.mainPackets,
          next.mainPackets)) = .ok ([102, 101, 100], 100, 10, 5, 0) := rfl
  obtain ⟨⟨events, c⟩, performed, h⟩ := bind_eq_ok_iff.1 hrun
  obtain ⟨next, hnext, h⟩ := bind_eq_ok_iff.1 h
  simp only [Except.ok.injEq, Prod.mk.injEq] at h
  obtain ⟨hreceived, haverage, hpercent, hbefore, hafter⟩ := h
  have hmean : mean (received .main events) = 101 := by
    rw [hreceived]
    norm_num [mean]
  refine ⟨events, c, next, performed, Run.start.performAll performed, hreceived, ?_, ?_, hbefore,
    hnext, hafter⟩
  · rw [hmean, haverage]
    norm_num
  · rw [hmean, hpercent]
    norm_num

end Pacer

end TransportStream
