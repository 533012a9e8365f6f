import TransportStream.Proofs.Bitrate.Readings

namespace TransportStream.BitrateEstimator

def tally (measure : ClockInterval → Nat) : List ClockInterval → Nat
  | [] => 0
  | i :: rest => measure i + tally measure rest

theorem tally_append (measure : ClockInterval → Nat) (xs ys : List ClockInterval) :
    tally measure (xs ++ ys) = tally measure xs + tally measure ys := by
  induction xs with
  | nil => exact (Nat.zero_add _).symm
  | cons i xs ih => rw [List.cons_append, tally, tally, ih, Nat.add_assoc]

theorem tally_le {measure : ClockInterval → Nat} {xs : List ClockInterval} {n : Nat}
    (h : ∀ i ∈ xs, measure i ≤ n) : tally measure xs ≤ xs.length * n := by
  induction xs with
  | nil => exact Nat.zero_le _
  | cons i xs ih =>
    have hi := h i (List.mem_cons_self ..)
    have hrest := ih fun j hj ↦ h j (List.mem_cons_of_mem _ hj)
    rw [tally, List.length_cons, Nat.succ_mul]
    omega

theorem le_tally (measure : ClockInterval → Nat) {xs : List ClockInterval} {i : ClockInterval}
    (hi : i ∈ xs) : measure i ≤ tally measure xs := by
  obtain ⟨before, after, rfl⟩ := List.append_of_mem hi
  rw [tally_append, tally]
  omega

variable {e : BitrateEstimator} {p : Packet} {pid : Pid} {mark : ClockMark}

def ticksBetween (earlier later : Nat) : Nat :=
  if earlier ≤ later then later - earlier else later + ClockReference.wrap - earlier

theorem elapsed_eq (earlier later : Nat) : elapsed earlier later =
    if earlier ≤ later + ClockReference.wrap then .ok (ticksBetween earlier later)
    else .error .overflow := by
  unfold elapsed ticksBetween
  by_cases h : earlier ≤ later
  · rw [if_pos h, if_pos h, if_pos (Nat.le_trans h (Nat.le_add_right _ _))]
  · rw [if_neg h, if_neg h]
    rfl

def latest (e : BitrateEstimator) (i : ClockInterval) : List ClockInterval :=
  (e.intervals ++ [i]).drop (e.intervals.length + 1 - e.window)

def extended (e : BitrateEstimator) (i : ClockInterval) : BitrateEstimator :=
  { e with
    intervals := e.latest i
    totalPackets := tally (·.packets) (e.latest i)
    totalTicks := tally (·.ticks) (e.latest i) }

def noted (e : BitrateEstimator) (pid : Pid) (mark : ClockMark) : BitrateEstimator :=
  let marked := { e with marks := e.marks.insert pid mark }
  match e.marks.get? pid with
  | none => marked
  | some previous =>
    let ticks := ticksBetween previous.ticks mark.ticks
    if ticks = 0 ∨ maxTicks < ticks then marked
    else marked.extended ⟨mark.index - previous.index, ticks⟩

def next (e : BitrateEstimator) (p : Packet) : BitrateEstimator :=
  let ready := { e with packetCount := e.packetCount + 1 }.parted p
  match p.reading? with
  | none => ready
  | some c => ready.noted p.pid ⟨c.ticks, e.packetCount⟩

/-- Whether the totals are those of the intervals, which lie among the packets so far and are no
longer than a second. -/
structure Tallied (e : BitrateEstimator) : Prop where
  window_pos : 0 < e.window
  length_le : e.intervals.length ≤ e.window
  packets : e.totalPackets = tally (·.packets) e.intervals
  ticks : e.totalTicks = tally (·.ticks) e.intervals
  bounded : ∀ i ∈ e.intervals, i.packets ≤ e.packetCount ∧ 0 < i.ticks ∧ i.ticks ≤ maxTicks
  marks : ∀ pid m, e.marks.get? pid = some m → m.index < e.packetCount

theorem tallied_empty {window needed : Nat} (hwindow : 0 < window) :
    Tallied { window, needed } where
  window_pos := hwindow
  length_le := Nat.zero_le _
  packets := rfl
  ticks := rfl
  bounded _ hi := absurd hi List.not_mem_nil
  marks _ _ hm := by cases hm

theorem length_latest (e : BitrateEstimator) (i : ClockInterval) :
    (e.latest i).length ≤ e.window := by
  rw [latest, List.length_drop, List.length_append, List.length_singleton]
  omega

theorem mem_latest {i j : ClockInterval} (hj : j ∈ e.latest i) : j ∈ e.intervals ∨ j = i :=
  (List.mem_append.1 (List.mem_of_mem_drop hj)).imp_right List.mem_singleton.1

theorem Tallied.self_eq (h : e.Tallied) : e = { e with
    totalPackets := tally (·.packets) e.intervals
    totalTicks := tally (·.ticks) e.intervals } := by
  rw [← h.packets, ← h.ticks]

theorem evict_eq (h : e.Tallied) : ∃ kept, e.evict = .ok { e with
      intervals := kept
      totalPackets := tally (·.packets) kept
      totalTicks := tally (·.ticks) kept } ∧
    ∀ i, kept ++ [i] = e.latest i := by
  have hle := h.length_le
  have hpos := h.window_pos
  have hall (hlt : e.intervals.length < e.window) (i : ClockInterval) :
      e.intervals ++ [i] = e.latest i := by
    rw [latest, Nat.sub_eq_zero_of_le hlt, List.drop_zero]
  unfold evict
  split
  · next hi =>
    refine ⟨e.intervals, congrArg Except.ok h.self_eq, hall ?_⟩
    rw [hi]
    exact hpos
  · next oldest rest hi =>
    by_cases hfull : e.intervals.length = e.window
    · have hp : minus e.totalPackets oldest.packets = .ok (tally (·.packets) rest) := by
        rw [h.packets, hi, tally]
        exact minus_eq_ok_iff.2 ⟨Nat.le_add_right _ _, Nat.add_sub_cancel_left _ _⟩
      have ht : minus e.totalTicks oldest.ticks = .ok (tally (·.ticks) rest) := by
        rw [h.ticks, hi, tally]
        exact minus_eq_ok_iff.2 ⟨Nat.le_add_right _ _, Nat.add_sub_cancel_left _ _⟩
      refine ⟨rest, ?_, fun i ↦ ?_⟩
      · rw [if_pos hfull, hp, ht]
        rfl
      · rw [latest, hfull, Nat.add_sub_cancel_left, hi]
        rfl
    · rw [if_neg hfull]
      exact ⟨e.intervals, congrArg Except.ok h.self_eq, hall (Nat.lt_of_le_of_ne hle hfull)⟩

theorem value_addInterval_of_lt (h : e.Tallied) {i : ClockInterval}
    (hpackets : tally (·.packets) (e.latest i) < wordLimit)
    (hticks : tally (·.ticks) (e.latest i) < wordLimit) :
    (e.addInterval i).value = .ok (e.extended i) := by
  obtain ⟨kept, hevict, hkept⟩ := evict_eq h
  have hp : tally (·.packets) kept + i.packets = tally (·.packets) (e.latest i) := by
    rw [← hkept i, tally_append]
    rfl
  have ht : tally (·.ticks) kept + i.ticks = tally (·.ticks) (e.latest i) := by
    rw [← hkept i, tally_append]
    rfl
  unfold addInterval
  rw [Traced.value_liftM_bind_of_ok hevict, Traced.value_bind_of_ok (Traced.value_note _)]
  dsimp only
  rw [hp, ht, hkept i, Traced.value_liftM_bind_of_ok (fit_eq_ok_iff.2 ⟨hpackets, rfl⟩),
    Traced.value_liftM_bind_of_ok (fit_eq_ok_iff.2 ⟨hticks, rfl⟩)]
  rfl

theorem Tallied.extended (h : e.Tallied) {i : ClockInterval} (hp : i.packets ≤ e.packetCount)
    (hpos : 0 < i.ticks) (ht : i.ticks ≤ maxTicks) : (e.extended i).Tallied where
  window_pos := h.window_pos
  length_le := length_latest e i
  packets := rfl
  ticks := rfl
  bounded j hj := by
    rcases mem_latest hj with hj | rfl
    · exact h.bounded j hj
    · exact ⟨hp, hpos, ht⟩
  marks := h.marks

theorem Tallied.marked (h : e.Tallied) (hm : mark.index < e.packetCount) :
    Tallied { e with marks := e.marks.insert pid mark } where
  window_pos := h.window_pos
  length_le := h.length_le
  packets := h.packets
  ticks := h.ticks
  bounded := h.bounded
  marks q m hq := by
    rw [FiniteMap.get?_insert] at hq
    split at hq
    · obtain rfl := Option.some.inj hq
      exact hm
    · exact h.marks q m hq

theorem Tallied.noted (h : e.Tallied) (hm : mark.index < e.packetCount) :
    (e.noted pid mark).Tallied := by
  unfold BitrateEstimator.noted
  dsimp only
  split
  · exact h.marked hm
  · split
    · exact h.marked hm
    · next hticks =>
      rw [not_or, Nat.not_lt] at hticks
      refine (h.marked hm).extended ?_ (Nat.pos_of_ne_zero hticks.1) hticks.2
      exact Nat.le_trans (Nat.sub_le _ _) (Nat.le_of_lt hm)

theorem Tallied.counted (h : e.Tallied) :
    Tallied { e with packetCount := e.packetCount + 1 } where
  window_pos := h.window_pos
  length_le := h.length_le
  packets := h.packets
  ticks := h.ticks
  bounded i hi := (h.bounded i hi).imp_left fun hp ↦ Nat.le_succ_of_le hp
  marks q m hq := Nat.lt_succ_of_lt (h.marks q m hq)

theorem get?_marks_parted (e : BitrateEstimator) (p : Packet) (q : Pid) :
    (e.parted p).marks.get? q =
      if p.breakSignalled = true ∧ q = p.pid then none else e.marks.get? q := by
  unfold parted
  split
  · next hb =>
    rw [forget, FiniteMap.get?_erase]
    simp only [hb, true_and]
  · next hb => rw [if_neg fun h ↦ hb h.1]

theorem Tallied.parted (h : e.Tallied) : (e.parted p).Tallied := by
  have hmarks : ∀ q m, (e.parted p).marks.get? q = some m → m.index < e.packetCount := by
    intro q m hm
    rw [get?_marks_parted] at hm
    split at hm
    · cases hm
    · exact h.marks q m hm
  unfold BitrateEstimator.parted at hmarks ⊢
  split
  · next hb =>
    rw [if_pos hb] at hmarks
    exact ⟨h.window_pos, h.length_le, h.packets, h.ticks, h.bounded, hmarks⟩
  · exact h

theorem Tallied.next (h : e.Tallied) : (e.next p).Tallied := by
  unfold BitrateEstimator.next
  dsimp only
  split
  · exact h.counted.parted
  · refine h.counted.parted.noted ?_
    unfold BitrateEstimator.parted
    split <;> exact Nat.lt_succ_self _

theorem Tallied.value_observe (h : e.Tallied) (hm : mark.index + 1 = e.packetCount)
    (hpackets : (e.noted pid mark).totalPackets < wordLimit)
    (hticks : (e.noted pid mark).totalTicks < wordLimit) : (e.observe pid mark).value =
      if ∃ previous, e.marks.get? pid = some previous ∧
        mark.ticks + ClockReference.wrap < previous.ticks then .error .overflow
      else .ok (e.noted pid mark) := by
  unfold observe
  unfold BitrateEstimator.noted at hpackets hticks ⊢
  cases hp : e.marks.get? pid with
  | none =>
    rw [if_neg (by rintro ⟨_, h, -⟩; cases h)]
    rfl
  | some previous =>
    rw [hp] at hpackets hticks
    dsimp only at hpackets hticks ⊢
    rw [Traced.value_bind, Traced.value_liftM, elapsed_eq]
    by_cases hbehind : mark.ticks + ClockReference.wrap < previous.ticks
    · rw [if_neg (Nat.not_le.2 hbehind), if_pos ⟨previous, rfl, hbehind⟩]
      rfl
    · rw [if_pos (Nat.not_lt.1 hbehind), if_neg]
      · show Traced.value (if _ then _ else _) = _
        by_cases ignored : ticksBetween previous.ticks mark.ticks = 0 ∨
            maxTicks < ticksBetween previous.ticks mark.ticks
        · rw [if_pos ignored, if_pos ignored]
          rfl
        · rw [if_neg ignored] at hpackets hticks ⊢
          rw [if_neg ignored]
          have hindex : minus mark.index previous.index = .ok (mark.index - previous.index) := by
            have hlt := h.marks pid previous hp
            exact minus_eq_ok_iff.2 ⟨by omega, rfl⟩
          rw [Traced.value_liftM_bind_of_ok hindex]
          exact value_addInterval_of_lt (h.marked (by omega)) hpackets hticks
      · rintro ⟨q, hq, hlt⟩
        cases hq
        exact hbehind hlt

end TransportStream.BitrateEstimator
