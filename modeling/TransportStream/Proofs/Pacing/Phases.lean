import Mathlib.Data.List.Basic
import TransportStream.Proofs.Pacing.Runs

namespace TransportStream.Pacer

variable {c c' : Pacer} {events during : List Event} {first e : Event} {waiting : Nat}
  {operation : Operation}

/-- How many of later numbers exceed all before them, the first included. -/
def rises (first : Nat) (later : List Nat) : Nat :=
  later.zipIdx.countP fun x : Nat × Nat ↦
    decide (∀ earlier ∈ first :: later.take x.2, earlier < x.1)

theorem rises_append_singleton (first : Nat) (later : List Nat) (n : Nat) :
    rises first (later ++ [n]) =
      rises first later + (decide (∀ earlier ∈ first :: later, earlier < n)).toNat := by
  -- the last number changes nothing for those before it
  have hbefore : later.zipIdx.countP (fun x : Nat × Nat ↦
      decide (∀ earlier ∈ first :: (later ++ [n]).take x.2, earlier < x.1)) =
      rises first later := by
    refine List.countP_congr fun x hx ↦ ?_
    have hle : x.2 ≤ later.length := Nat.le_of_lt (by simpa using (List.mem_zipIdx hx).2.1)
    rw [List.take_append_of_le_length hle]
  rw [rises, List.zipIdx_append, List.countP_append, hbefore, List.zipIdx_singleton,
    List.countP_singleton, Nat.zero_add, List.take_left]
  cases decide (∀ earlier ∈ first :: later, earlier < n) <;> rfl

namespace Event

/-- The backlog of a decision that is left to it: both bitrates are known, the sub stream is ahead
of its share, and the backlog is above the alert level. -/
def pressure? (e : Event) : Option Nat :=
  match e.operation.backlog? with
  | some waiting => if e.before.Presses waiting then some waiting else none
  | none => none

def Restarts (e : Event) : Prop :=
  match e.operation with
  | .setMainBitrate bitrate =>
    ∃ t, (e.before.mainBitrate.set bitrate e.before.resetPercent).value = .ok (t, true)
  | .setSubBitrate bitrate =>
    ∃ t, (e.before.subBitrate.set bitrate e.before.resetPercent).value = .ok (t, true)
  | .reset => True
  | _ => False

end Event

/-- Whether events begin with the one that raised the factor from one, and the factor has not been
one since. -/
structure Phase (first : Event) (during : List Event) : Prop where
  plain : first.before.factor = 1
  raised : first.after.factor ≠ 1
  lasting : ∀ e ∈ during, e.after.factor ≠ 1

/-- Where a phase has come to: the factor counts the records among the pressing backlogs, the
greatest of which is remembered. -/
structure Climbed (c : Pacer) (first : Nat) (later : List Nat) : Prop where
  factor : c.factor = 2 + rises first later
  reached : c.maxBacklog ∈ first :: later
  greatest : ∀ earlier ∈ first :: later, earlier ≤ c.maxBacklog

theorem factor_of_reset (h : c.reset = c) : c.factor = 1 :=
  congrArg Pacer.factor h.symm

theorem pressure?_of_other (other : operation.backlog? = none) :
    Event.pressure? ⟨c, operation, c'⟩ = none := by
  rw [Event.pressure?, other]

theorem pressure?_decideSlot (c c' : Pacer) (waiting : Nat) :
    Event.pressure? ⟨c, .decideSlot waiting, c'⟩ =
      if c.Presses waiting then some waiting else none := rfl

theorem relaxed_of_ne_one (h : (c.relaxed waiting).factor ≠ 1) : c.relaxed waiting = c := by
  by_cases ends : waiting ≤ c.alert ∧ 1 < c.factor
  · exact absurd (if_pos ends) h
  · rw [relaxed, if_neg ends]

theorem climbed_of_start (effect : Effect c c' operation) (plain : c.factor = 1)
    (raised : c'.factor ≠ 1) :
    ∃ first, Event.pressure? ⟨c, operation, c'⟩ = some first ∧ Climbed c' first [] := by
  cases effect with
  | @decides waiting _ hnext =>
    by_cases presses : c.Presses waiting
    · refine ⟨waiting, by rw [pressure?_decideSlot, if_pos presses], ?_⟩
      rw [← hnext, next_of_presses presses, accelerated_of_one plain]
      exact ⟨rfl, List.mem_singleton_self _, fun _ hmem ↦ Nat.le_of_eq (List.mem_singleton.1 hmem)⟩
    · rw [← hnext, next_of_not_presses presses] at raised
      refine absurd ?_ raised
      simp [relaxed, plain]
  | continues _ hkept => exact absurd (hkept.factor.trans plain) raised
  | restarts _ hreset => exact absurd (factor_of_reset hreset) raised

namespace Climbed

variable {start : Nat} {later : List Nat}

theorem lt_iff (h : c.Climbed start later) :
    (∀ earlier ∈ start :: later, earlier < waiting) ↔ c.maxBacklog < waiting :=
  ⟨fun hall ↦ hall _ h.reached, fun hlt _ hmem ↦ Nat.lt_of_le_of_lt (h.greatest _ hmem) hlt⟩

theorem ne_one (h : c.Climbed start later) : c.factor ≠ 1 := by
  rw [h.factor]
  omega

theorem accelerated (h : c.Climbed start later) (waiting : Nat) :
    (c.accelerated waiting).Climbed start (later ++ [waiting]) := by
  have hrises : rises start (later ++ [waiting]) =
      rises start later + (decide (c.maxBacklog < waiting)).toNat := by
    rw [rises_append_singleton, decide_eq_decide.2 h.lt_iff]
  have hfactor := h.factor
  rw [accelerated_of_ne_one h.ne_one]
  refine ⟨?_, ?_, fun earlier hmem ↦ ?_⟩
  · show (if c.maxBacklog < waiting then c.factor + 1 else c.factor) = _
    rw [hrises]
    by_cases hlt : c.maxBacklog < waiting
    · rw [if_pos hlt, decide_eq_true hlt, Bool.toNat_true]
      omega
    · rw [if_neg hlt, decide_eq_false hlt, Bool.toNat_false]
      omega
  · show max c.maxBacklog waiting ∈ start :: (later ++ [waiting])
    rw [← List.cons_append]
    rcases Nat.le_total c.maxBacklog waiting with hle | hle
    · rw [Nat.max_eq_right hle]
      exact List.mem_append_right _ (List.mem_singleton_self _)
    · rw [Nat.max_eq_left hle]
      exact List.mem_append_left _ h.reached
  · show earlier ≤ max c.maxBacklog waiting
    rw [← List.cons_append, List.mem_append, List.mem_singleton] at hmem
    rcases hmem with hmem | rfl
    · exact Nat.le_trans (h.greatest _ hmem) (Nat.le_max_left _ _)
    · exact Nat.le_max_right _ _

theorem of_effect (h : c.Climbed start later) (effect : Effect c c' operation)
    (lasting : c'.factor ≠ 1) :
    c'.Climbed start (later ++ (Event.pressure? ⟨c, operation, c'⟩).toList) := by
  cases effect with
  | @decides waiting _ hnext =>
    rw [pressure?_decideSlot]
    by_cases presses : c.Presses waiting
    · rw [if_pos presses, ← hnext, next_of_presses presses]
      exact h.accelerated waiting
    · rw [next_of_not_presses presses] at hnext
      rw [← hnext] at lasting
      rw [if_neg presses, Option.toList_none, List.append_nil, ← hnext, relaxed_of_ne_one lasting]
      exact h
  | continues other hkept =>
    rw [pressure?_of_other other, Option.toList_none, List.append_nil]
    exact ⟨hkept.factor.trans h.factor, hkept.maxBacklog ▸ h.reached, hkept.maxBacklog ▸ h.greatest⟩
  | restarts _ hreset => exact absurd (factor_of_reset hreset) lasting

end Climbed

theorem Run.exists_phase (h : Run events c) (on : c.factor ≠ 1) :
    ∃ earlier first during, events = earlier ++ first :: during ∧ Phase first during := by
  induction h with
  | start => exact absurd rfl on
  | @perform events c c' operation _ _ ih =>
    by_cases plain : c.factor = 1
    · exact ⟨events, ⟨c, operation, c'⟩, [], rfl, plain, on, nofun⟩
    · obtain ⟨earlier, first, during, rfl, hphase⟩ := ih plain
      refine ⟨earlier, first, during ++ [⟨c, operation, c'⟩], by simp, hphase.plain,
        hphase.raised, fun e he ↦ ?_⟩
      rcases List.mem_append.1 he with he | he
      · exact hphase.lasting e he
      · rw [List.mem_singleton] at he
        exact he ▸ on

theorem Run.climbed (h : Run events c) {earlier : List Event}
    (hevents : events = earlier ++ first :: during) (phase : Phase first during) :
    ∃ start, first.pressure? = some start ∧
      c.Climbed start (during.filterMap Event.pressure?) := by
  induction h generalizing during with
  | start => simp at hevents
  | @perform events c c' operation _ performed ih =>
    have effect := effect_of_perform performed
    rcases List.eq_nil_or_concat during with rfl | ⟨before, e, rfl⟩
    · -- the last event begins the phase
      obtain ⟨-, he⟩ := List.append_inj' hevents rfl
      obtain rfl := (List.cons.inj he).1
      exact climbed_of_start effect phase.plain phase.raised
    · -- the last event is one within the phase, which the events before it have begun
      rw [List.concat_eq_append, ← List.cons_append, ← List.append_assoc] at hevents
      obtain ⟨hbefore, he⟩ := List.append_inj' hevents rfl
      obtain rfl := (List.cons.inj he).1
      rw [List.concat_eq_append] at phase ⊢
      obtain ⟨start, hstart, climbed⟩ := ih hbefore ⟨phase.plain, phase.raised, fun e he ↦
        phase.lasting e (List.mem_append_left _ he)⟩
      have hlast : [Event.mk c operation c'].filterMap Event.pressure? =
          (Event.pressure? ⟨c, operation, c'⟩).toList := by
        cases h : Event.pressure? ⟨c, operation, c'⟩ <;> simp [h]
      rw [List.filterMap_append, hlast]
      exact ⟨start, hstart, climbed.of_effect effect
        (phase.lasting _ (List.mem_append_right _ (List.mem_singleton_self _)))⟩

theorem factor_le_next (above : c.alert < waiting) : c.factor ≤ (c.next waiting).factor := by
  by_cases presses : c.Presses waiting
  · rw [next_of_presses presses]
    exact le_factor_accelerated c waiting
  · rw [next_of_not_presses presses]
    exact Nat.le_of_eq (congrArg Pacer.factor (relaxed_of_lt above).symm)

theorem Sound.factor_next (h : c.Sound) (calm : waiting ≤ c.alert) :
    (c.next waiting).factor = 1 := by
  have hpos := h.factor_pos
  rw [next_of_not_presses fun presses ↦ Nat.not_lt.2 calm presses.2.2]
  simp only [Pacer.relaxed]
  split <;> omega

theorem factor_of_restarts (performed : c.perform operation = .ok c')
    (restarts : Event.Restarts ⟨c, operation, c'⟩) : c'.factor = 1 := by
  cases operation with
  | setMainBitrate bitrate =>
    obtain ⟨_, hset⟩ := restarts
    obtain ⟨_, _, hset', rfl⟩ := setMainBitrate_eq_ok_iff.1 performed
    cases hset.symm.trans hset'
    rfl
  | setSubBitrate bitrate =>
    obtain ⟨_, hset⟩ := restarts
    obtain ⟨_, _, hset', rfl⟩ := setSubBitrate_eq_ok_iff.1 performed
    cases hset.symm.trans hset'
    rfl
  | reset =>
    cases performed
    rfl
  | _ => exact restarts.elim

theorem Sound.minus_of_accelerate (h : c.Sound) {d : Pacer}
    (relax : (c.relax waiting).value = .ok c')
    (accelerate : (c'.accelerate waiting).value = .ok d) :
    minus d.mainPackets d.mainAnchor = .ok (d.mainPackets - d.mainAnchor) ∧
      minus d.subPackets d.subAnchor = .ok (d.subPackets - d.subAnchor) := by
  rw [value_relax] at relax
  cases relax
  obtain ⟨fits, rfl⟩ := value_accelerate_eq_ok_iff.1 accelerate
  have sound := (h.relaxed waiting).accelerated fits
  exact ⟨minus_eq_ok_iff.2 ⟨sound.mainAnchor_le, rfl⟩, minus_eq_ok_iff.2 ⟨sound.subAnchor_le, rfl⟩⟩

/-- Acceleration at every point of a history. The counts never fall below the anchors, and so the
differences that a decision takes exist; the factor is one at the alert level and after a reset,
does not fall above the alert level, and counts the records of the phase. -/
theorem Run.acceleration_law (h : Run events c) :
    (c.mainAnchor ≤ c.mainPackets ∧ c.subAnchor ≤ c.subPackets) ∧
    (∀ waiting relaxed accelerated, (c.relax waiting).value = .ok relaxed →
      (relaxed.accelerate waiting).value = .ok accelerated →
      (∃ n, minus accelerated.mainPackets accelerated.mainAnchor = .ok n) ∧
      (∃ n, minus accelerated.subPackets accelerated.subAnchor = .ok n)) ∧
    (∀ waiting next inserted, (c.decideSlot waiting).value = .ok (next, inserted) →
      (waiting ≤ c.alert → next.factor = 1) ∧ (c.alert < waiting → c.factor ≤ next.factor)) ∧
    (∀ operation next, c.perform operation = .ok next →
      Event.Restarts ⟨c, operation, next⟩ → next.factor = 1) ∧
    (c.factor ≠ 1 → ∃ earlier first during,
      events = earlier ++ first :: during ∧ Phase first during) ∧
    (∀ earlier first during, events = earlier ++ first :: during → Phase first during →
      ∃ start, first.pressure? = some start ∧
        c.factor = 2 + rises start (during.filterMap Event.pressure?)) := by
  refine ⟨⟨h.sound.mainAnchor_le, h.sound.subAnchor_le⟩, ?differences, ?decisions,
    fun _ _ ↦ factor_of_restarts, h.exists_phase, ?phases⟩
  case differences =>
    intro waiting relaxed accelerated relax accelerate
    obtain ⟨hmain, hsub⟩ := h.sound.minus_of_accelerate relax accelerate
    exact ⟨⟨_, hmain⟩, _, hsub⟩
  case decisions =>
    intro waiting next inserted decided
    obtain ⟨-, rfl, -⟩ := decideSlot_eq_ok_iff.1 decided
    exact ⟨h.sound.factor_next, factor_le_next⟩
  case phases =>
    intro earlier first during hevents phase
    obtain ⟨start, hstart, climbed⟩ := h.climbed hevents phase
    exact ⟨start, hstart, climbed.factor⟩

theorem Run.acceleration_law_of_records : ∃ events c, Run events c ∧ c.factor = 5 ∧
    ∃ earlier first during, events = earlier ++ first :: during ∧ Phase first during ∧
      ∃ start, first.pressure? = some start ∧
        c.factor = 2 + rises start (during.filterMap Event.pressure?) := by
  have hfactor : (Pacer.performAll {} [.setMainBitrate 2000000, .setSubBitrate 100000, .countSub 1,
      .decideSlot 16, .decideSlot 17, .countSub 1, .countMain 1, .decideSlot 18, .decideSlot 18,
      .decideSlot 17, .decideSlot 25, .decideSlot 30, .countMain 1, .decideSlot 20] >>=
        fun r ↦ .ok r.2.factor) = .ok 5 := rfl
  obtain ⟨⟨events, c⟩, performed, h⟩ := bind_eq_ok_iff.1 hfactor
  have hfactor : c.factor = 5 := Except.ok.inj h
  have run := Run.start.performAll performed
  have law := Run.acceleration_law run
  obtain ⟨earlier, first, during, hevents, phase⟩ := law.2.2.2.2.1 (by omega)
  exact ⟨_, c, run, hfactor, earlier, first, during, hevents, phase,
    law.2.2.2.2.2 _ _ _ hevents phase⟩

end TransportStream.Pacer
