import TransportStream.Proofs.Bitrate.Stream

namespace TransportStream

structure Sent where
  packet : Packet
  measured : Bool

namespace Sent

def Reads (x : Sent) (pid : Pid) : Prop :=
  x.packet.pid = pid ∧ x.packet.reading?.isSome = true

def seen (record : List Sent) : List Packet :=
  (record.filter (·.measured)).map (·.packet)

theorem seen_append (record more : List Sent) :
    seen (record ++ more) = seen record ++ seen more := by
  rw [seen, List.filter_append, List.map_append, seen, seen]

end Sent

namespace BitrateEstimator

variable {e e' : BitrateEstimator} {p : Packet} {pid : Pid} {mark : ClockMark}

theorem mem_intervals_next {x : ClockInterval} (hx : x ∈ (e.next p).intervals) :
    x ∈ e.intervals ∨ intervalTo? (e.marks.get? p.pid) e.packetCount p = some x := by
  rw [intervals_next] at hx
  cases hi : intervalTo? (e.marks.get? p.pid) e.packetCount p with
  | none => exact .inl (by rwa [hi] at hx)
  | some i =>
    rw [hi] at hx
    exact (mem_latest hx).imp_right fun h ↦ congrArg some h.symm

/-- Whether each clock reading is that of a stream whose packets are `k` ticks apart, and none is
more than a second after the one before. -/
structure ConstantRate (k : Nat) (offset : Pid → Nat) (record : List Sent) : Prop where
  positive : 0 < k
  clocked : ∀ (i : Nat) (x : Sent) (c : ClockReference), record[i]? = some x →
    x.packet.reading? = some c → c = ClockReference.ofTicks (offset x.packet.pid + k * i)
  close : ∀ (pid : Pid) (i j : Nat) (x y : Sent), i < j → record[i]? = some x →
    record[j]? = some y → x.Reads pid → y.Reads pid →
    (∀ (l : Nat) (z : Sent), i < l → l < j → record[l]? = some z → ¬ z.Reads pid) →
    k * (j - i) ≤ 27000000

structure Compared (record : List Sent) (pid : Pid) (i j : Nat) : Prop where
  lt : i < j
  first : ∃ x, record[i]? = some x ∧ x.measured = true ∧ x.Reads pid
  second : ∃ x, record[j]? = some x ∧ x.measured = true ∧ x.Reads pid ∧
    x.packet.breakSignalled = false
  between : ∀ (l : Nat) (x : Sent), i < l → l < j → record[l]? = some x → x.measured = true →
    x.packet.pid = pid → ¬ x.Reads pid ∧ x.packet.breakSignalled = false

/-- Whether all packets between two readings that are compared have been seen, unless the time
between the readings is ignored. -/
def Seamless (k : Nat) (record : List Sent) : Prop :=
  ∀ (pid : Pid) (i j : Nat), Compared record pid i j →
    (∀ (l : Nat) (x : Sent), i < l → l < j → record[l]? = some x → x.measured = true) ∨
    k * (j - i) % ClockReference.wrap = 0 ∨ maxTicks < k * (j - i) % ClockReference.wrap

theorem getElem?_append_of_some {record more : List Sent} {i : Nat} {x : Sent}
    (h : record[i]? = some x) : (record ++ more)[i]? = some x := by
  rw [List.getElem?_append_left (List.getElem?_eq_some_iff.1 h).1, h]

theorem ConstantRate.init {k : Nat} {offset : Pid → Nat} {record more : List Sent}
    (h : ConstantRate k offset (record ++ more)) : ConstantRate k offset record where
  positive := h.positive
  clocked i x c hx := h.clocked i x c (getElem?_append_of_some hx)
  close pid i j x y hij hx hy hreads hreads' between := by
    refine h.close pid i j x y hij (getElem?_append_of_some hx) (getElem?_append_of_some hy) hreads
      hreads' fun l z hil hlj hz ↦ between l z hil hlj ?_
    have hj := (List.getElem?_eq_some_iff.1 hy).1
    rwa [List.getElem?_append_left (Nat.lt_trans hlj hj)] at hz

theorem Seamless.init {k : Nat} {record more : List Sent} (h : Seamless k (record ++ more)) :
    Seamless k record := by
  intro pid i j hcompared
  obtain ⟨y, hy, hmeasured, hreads⟩ := hcompared.second
  have hj := (List.getElem?_eq_some_iff.1 hy).1
  have hback : ∀ {l x}, l < j → (record ++ more)[l]? = some x → record[l]? = some x := by
    intro l x hlj hx
    rwa [List.getElem?_append_left (Nat.lt_trans hlj hj)] at hx
  refine (h pid i j ⟨hcompared.lt, ?_, ?_, ?_⟩).imp_left fun hall l x hil hlj hx ↦ ?_
  · obtain ⟨x, hx, hrest⟩ := hcompared.first
    exact ⟨x, getElem?_append_of_some hx, hrest⟩
  · exact ⟨y, getElem?_append_of_some hy, hmeasured, hreads⟩
  · exact fun l x hil hlj hx ↦ hcompared.between l x hil hlj (hback hlj hx)
  · exact hall l x hil hlj (getElem?_append_of_some hx)

theorem constantRate_of_short {k : Nat} {offset : Pid → Nat} {record : List Sent}
    (positive : 0 < k) (short : k * record.length ≤ 27000000)
    (clocks : ∀ y ∈ record.zipIdx, y.1.packet.reading? = none ∨
      y.1.packet.reading? = some (.ofTicks (offset y.1.packet.pid + k * y.2))) :
    ConstantRate k offset record where
  positive := positive
  clocked i x c hx hreading := by
    rcases clocks (x, i) (List.mk_mem_zipIdx_iff_getElem?.2 hx) with hnone | hsome
    · cases hnone.symm.trans hreading
    · exact Option.some.inj (hreading.symm.trans hsome)
  close pid i j x y hij hx hy _ _ _ := by
    have hj := (List.getElem?_eq_some_iff.1 hy).1
    exact Nat.le_trans (Nat.mul_le_mul_left k (by omega)) short

theorem seamless_of_measured {k : Nat} {record : List Sent}
    (h : ∀ x ∈ record, x.measured = true) : Seamless k record :=
  fun _ _ _ _ ↦ .inl fun _ _ _ _ hx ↦ h _ (List.mem_of_getElem? hx)

theorem ticksBetween_ofTicks (first ticks : Nat) :
    ticksBetween (ClockReference.ofTicks first).ticks
      (ClockReference.ofTicks (first + ticks)).ticks = ticks % ClockReference.wrap := by
  have hpos : 0 < ClockReference.wrap := by decide
  have hfirst := Nat.mod_lt first hpos
  have hticks := Nat.mod_lt ticks hpos
  rw [ClockReference.ticks_ofTicks, ClockReference.ticks_ofTicks, Nat.add_mod, ticksBetween]
  by_cases hlt : first % ClockReference.wrap + ticks % ClockReference.wrap < ClockReference.wrap
  · rw [Nat.mod_eq_of_lt hlt, if_pos (Nat.le_add_right _ _), Nat.add_sub_cancel_left]
  · have hsub : (first % ClockReference.wrap + ticks % ClockReference.wrap) % ClockReference.wrap =
        first % ClockReference.wrap + ticks % ClockReference.wrap - ClockReference.wrap := by
      rw [Nat.mod_eq_sub_mod (Nat.not_lt.1 hlt), Nat.mod_eq_of_lt (by omega)]
    rw [hsub, if_neg (by omega)]
    omega

theorem ticksBetween_ofTicks_mul (first k : Nat) {i j : Nat} (hij : i ≤ j) :
    ticksBetween (ClockReference.ofTicks (first + k * i)).ticks
      (ClockReference.ofTicks (first + k * j)).ticks = k * (j - i) % ClockReference.wrap := by
  have hsum : first + k * j = first + k * i + k * (j - i) := by
    rw [Nat.add_assoc, ← Nat.mul_add, Nat.add_sub_cancel' hij]
  rw [hsum, ticksBetween_ofTicks]

structure MarkedAt (record : List Sent) (pid : Pid) (m : ClockMark) (i : Nat) : Prop where
  read : ∃ x c, record[i]? = some x ∧ x.measured = true ∧ x.packet.pid = pid ∧
    x.packet.reading? = some c ∧ c.ticks = m.ticks
  index : m.index = (record.take i).countP (·.measured)
  last : ∀ (l : Nat) (x : Sent), i < l → record[l]? = some x → x.measured = true →
    x.packet.pid = pid → ¬ x.Reads pid ∧ x.packet.breakSignalled = false

structure Gauges (k : Nat) (e : BitrateEstimator) (record : List Sent) : Prop where
  tallied : e.Tallied
  packetCount : e.packetCount = record.countP (·.measured)
  marks : ∀ pid m, e.marks.get? pid = some m → ∃ i, MarkedAt record pid m i
  intervals : ∀ x ∈ e.intervals, x.ticks = k * x.packets

theorem gauges_standard (k : Nat) : Gauges k standard [] where
  tallied := tallied_empty (by decide)
  packetCount := rfl
  marks pid m h := by cases h
  intervals x h := by cases h

variable {record : List Sent} {x : Sent} {k : Nat} {offset : Pid → Nat}

theorem MarkedAt.append {m : ClockMark} {i : Nat} (h : MarkedAt record pid m i)
    (other : x.measured = true → x.packet.pid = pid →
      ¬ x.Reads pid ∧ x.packet.breakSignalled = false) : MarkedAt (record ++ [x]) pid m i where
  read := by
    obtain ⟨y, c, hy, hrest⟩ := h.read
    exact ⟨y, c, getElem?_append_of_some hy, hrest⟩
  index := by
    obtain ⟨y, c, hy, -⟩ := h.read
    have hi := (List.getElem?_eq_some_iff.1 hy).1
    rw [List.take_append_of_le_length (Nat.le_of_lt hi)]
    exact h.index
  last l y hil hy hmeasured hpid := by
    rcases getElem?_append_singleton_eq_some hy with hy | ⟨-, rfl⟩
    · exact h.last l y hil hy hmeasured hpid
    · exact other hmeasured hpid

theorem markedAt_length {c : ClockReference} (measured : x.measured = true)
    (reading : x.packet.reading? = some c) :
    MarkedAt (record ++ [x]) x.packet.pid ⟨c.ticks, record.countP (·.measured)⟩ record.length where
  read := ⟨x, c, List.getElem?_concat_length, measured, rfl, reading, rfl⟩
  index := by rw [List.take_left]
  last l y hl hy := by
    have hle := (List.getElem?_eq_some_iff.1 hy).1
    rw [List.length_append, List.length_singleton] at hle
    exact absurd hl (Nat.not_lt.2 (Nat.le_of_lt_succ hle))

theorem Gauges.skip (h : Gauges k e record) (unseen : x.measured = false) :
    Gauges k e (record ++ [x]) where
  tallied := h.tallied
  packetCount := by
    rw [List.countP_append, List.countP_singleton, unseen, h.packetCount]
    rfl
  marks pid m hm := by
    obtain ⟨i, hi⟩ := h.marks pid m hm
    exact ⟨i, hi.append fun measured ↦ absurd measured (by simp [unseen])⟩
  intervals := h.intervals

theorem MarkedAt.compared {m : ClockMark} {i : Nat} (h : MarkedAt record x.packet.pid m i)
    (measured : x.measured = true) (reads : x.Reads x.packet.pid)
    (unbroken : x.packet.breakSignalled = false) :
    Compared (record ++ [x]) x.packet.pid i record.length := by
  obtain ⟨y, c, hy, hmeasured, hpid, hreading, -⟩ := h.read
  refine ⟨(List.getElem?_eq_some_iff.1 hy).1, ?_, ?_, ?_⟩
  · exact ⟨y, getElem?_append_of_some hy, hmeasured, hpid, by rw [hreading]; rfl⟩
  · exact ⟨x, List.getElem?_concat_length, measured, reads, unbroken⟩
  · intro l z hil hl hz
    rw [List.getElem?_append_left hl] at hz
    exact h.last l z hil hz

theorem countP_eq_length_sub {i : Nat}
    (all : ∀ l y, i ≤ l → record[l]? = some y → y.measured = true) :
    record.countP (·.measured) = (record.take i).countP (·.measured) + (record.length - i) := by
  have hdrop : (record.drop i).countP (·.measured) = (record.drop i).length := by
    refine List.countP_eq_length.2 fun y hy ↦ ?_
    obtain ⟨l, hl⟩ := List.getElem?_of_mem hy
    rw [List.getElem?_drop] at hl
    exact all _ y (Nat.le_add_right _ _) hl
  rw [← List.length_drop, ← hdrop, ← List.countP_append, List.take_append_drop]

theorem MarkedAt.ticks_eq {m : ClockMark} {i : Nat} {c : ClockReference}
    (h : MarkedAt record x.packet.pid m i) (rate : ConstantRate k offset (record ++ [x]))
    (seamless : Seamless k (record ++ [x])) (measured : x.measured = true)
    (reading : x.packet.reading? = some c) (unbroken : x.packet.breakSignalled = false)
    (positive : ticksBetween m.ticks c.ticks ≠ 0)
    (short : ticksBetween m.ticks c.ticks ≤ maxTicks) :
    ticksBetween m.ticks c.ticks = k * (record.countP (·.measured) - m.index) := by
  obtain ⟨y, c', hy, hmeasured, hpid, hreading, hticks⟩ := h.read
  have reads : x.Reads x.packet.pid := ⟨rfl, by rw [reading]; rfl⟩
  have hcompared := h.compared measured reads unbroken
  have hlt := hcompared.lt
  have hfirst := rate.clocked i y c' (getElem?_append_of_some hy) hreading
  have hsecond := rate.clocked record.length x c List.getElem?_concat_length reading
  have hbetween : ticksBetween m.ticks c.ticks =
      k * (record.length - i) % ClockReference.wrap := by
    rw [← hticks, hfirst, hsecond, hpid, ticksBetween_ofTicks_mul _ _ (Nat.le_of_lt hlt)]
  rw [hbetween] at positive short ⊢
  -- The time is not ignored, so no packet is missing.
  have all := (seamless _ _ _ hcompared).resolve_right
    fun h ↦ h.elim positive (Nat.not_lt.2 short)
  have hclose : k * (record.length - i) ≤ 27000000 := by
    refine rate.close x.packet.pid i record.length y x hlt (getElem?_append_of_some hy)
      List.getElem?_concat_length ⟨hpid, by rw [hreading]; rfl⟩ reads fun l z hil hl hz hreads ↦ ?_
    exact (hcompared.between l z hil hl hz (all l z hil hl hz) hreads.1).1 hreads
  have hcount : record.countP (·.measured) = m.index + (record.length - i) := by
    rw [h.index]
    refine countP_eq_length_sub fun l z hil hz ↦ ?_
    rcases Nat.eq_or_lt_of_le hil with rfl | hil
    · exact Option.some.inj (hy.symm.trans hz) ▸ hmeasured
    · exact all l z hil (List.getElem?_eq_some_iff.1 hz).1 (getElem?_append_of_some hz)
  have hwrap : 27000000 < ClockReference.wrap := by decide
  rw [Nat.mod_eq_of_lt (Nat.lt_of_le_of_lt hclose hwrap), hcount, Nat.add_sub_cancel_left]

theorem Gauges.next (h : Gauges k e record) (rate : ConstantRate k offset (record ++ [x]))
    (seamless : Seamless k (record ++ [x])) (measured : x.measured = true) :
    Gauges k (e.next x.packet) (record ++ [x]) where
  tallied := h.tallied.next
  packetCount := by
    rw [(window_next e x.packet).2.2, List.countP_append, List.countP_singleton, measured,
      h.packetCount]
    rfl
  marks pid m hm := by
    rw [get?_marks_next] at hm
    have old (hm : e.marks.get? pid = some m) (other : x.packet.pid = pid →
        x.packet.reading? = none ∧ x.packet.breakSignalled = false) :
        ∃ i, MarkedAt (record ++ [x]) pid m i := by
      obtain ⟨i, hi⟩ := h.marks pid m hm
      refine ⟨i, hi.append fun _ hpid ↦ ⟨fun hreads ↦ ?_, (other hpid).2⟩⟩
      cases (other hpid).1 ▸ hreads.2
    split at hm
    · next hpid =>
      subst hpid
      split at hm
      · next c hreading =>
        obtain rfl := Option.some.inj hm
        rw [h.packetCount]
        exact ⟨_, markedAt_length measured hreading⟩
      · next hreading =>
        split at hm
        · cases hm
        · next unbroken =>
          exact old hm fun _ ↦ ⟨hreading, Bool.eq_false_iff.2 unbroken⟩
    · next hpid => exact old hm fun h ↦ absurd h hpid
  intervals y hy := by
    rcases mem_intervals_next hy with hy | hy
    · exact h.intervals y hy
    · obtain ⟨c, m, unbroken, hreading, hm, positive, short, rfl⟩ := intervalTo?_eq_some hy
      obtain ⟨i, hi⟩ := h.marks _ _ hm
      rw [h.packetCount]
      exact hi.ticks_eq rate seamless measured hreading unbroken positive.ne' short

theorem gauges_of_feedAll (rate : ConstantRate k offset record) (seamless : Seamless k record)
    (fed : (standard.feedAll (Sent.seen record)).value = .ok e) : Gauges k e record := by
  induction record using List.reverseRecOn generalizing e with
  | nil =>
    obtain rfl := Except.ok.inj fed
    exact gauges_standard k
  | append_singleton record x ih =>
    rw [Sent.seen_append] at fed
    cases hx : x.measured with
    | false =>
      have hnone : Sent.seen [x] = [] := by simp [Sent.seen, hx]
      rw [hnone, List.append_nil] at fed
      exact (ih rate.init seamless.init fed).skip hx
    | true =>
      have hone : Sent.seen [x] = [x.packet] := by simp [Sent.seen, hx]
      rw [hone, value_feedAll_append_singleton] at fed
      obtain ⟨e', he', fed⟩ := bind_eq_ok_iff.1 fed
      have hgauges := ih rate.init seamless.init he'
      obtain rfl := hgauges.tallied.eq_of_feed fed
      exact hgauges.next rate seamless hx

theorem tally_ticks_eq {intervals : List ClockInterval}
    (h : ∀ x ∈ intervals, x.ticks = k * x.packets) :
    tally (·.ticks) intervals = k * tally (·.packets) intervals := by
  induction intervals with
  | nil => rfl
  | cons x rest ih =>
    rw [tally, tally, Nat.mul_add, h x (List.mem_cons_self ..),
      ih fun y hy ↦ h y (List.mem_cons_of_mem _ hy)]

theorem Tallied.totalTicks_eq (h : e.Tallied)
    (same : ∀ x ∈ e.intervals, x.ticks = k * x.packets) : e.totalTicks = k * e.totalPackets := by
  rw [h.ticks, h.packets, tally_ticks_eq same]

theorem rate_eq {n : Nat} (hpos : 0 < k * n) :
    n * 188 * 8 * 27000000 / (k * n) % wordLimit = 188 * 8 * 27000000 / k := by
  rw [Nat.mul_assoc, Nat.mul_assoc, Nat.mul_comm k,
    Nat.mul_div_mul_left _ _ (Nat.pos_of_mul_pos_left hpos)]
  refine Nat.mod_eq_of_lt (Nat.lt_of_le_of_lt (Nat.div_le_self _ _) ?_)
  decide

theorem Tallied.bitrate_eq (h : e.Tallied) (same : ∀ x ∈ e.intervals, x.ticks = k * x.packets) :
    e.bitrate = 0 ∨ e.bitrate = 188 * 8 * 27000000 / k := by
  unfold bitrate
  split
  · exact .inl rfl
  · next some =>
    rw [not_or, h.totalTicks_eq same] at some
    rw [h.totalTicks_eq same]
    exact .inr (rate_eq (Nat.pos_of_ne_zero some.2))

end BitrateEstimator

end TransportStream
