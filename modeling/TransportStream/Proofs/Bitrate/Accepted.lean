import Mathlib.Data.List.DropRight
import Mathlib.Data.List.Induction
import TransportStream.Proofs.Bitrate.Intervals

namespace TransportStream.BitrateEstimator

variable {p : Packet} {pid : Pid} {packets before : List Packet} {window : Nat}

/-- The last reading of a substream since the last break, and the number of packets before it. -/
def lastMark? (pid : Pid) (packets : List Packet) : Option ClockMark :=
  (packets.zipIdx.reverse.find? fun x ↦
    x.1.pid = pid ∧ (x.1.reading?.isSome = true ∨ x.1.breakSignalled = true)).bind
    fun x ↦ x.1.reading?.map fun c ↦ ⟨c.ticks, x.2⟩

/-- The interval between two readings, if it is accepted. -/
def intervalBetween? (earlier later : ClockMark) : Option ClockInterval :=
  if ticksBetween earlier.ticks later.ticks = 0 ∨
    maxTicks < ticksBetween earlier.ticks later.ticks then none
  else some ⟨later.index - earlier.index, ticksBetween earlier.ticks later.ticks⟩

def intervalTo? (last : Option ClockMark) (index : Nat) (p : Packet) : Option ClockInterval :=
  if p.breakSignalled then none
  else p.reading?.bind fun c ↦ last.bind (intervalBetween? · ⟨c.ticks, index⟩)

/-- The accepted intervals of a stream, in the order in which they end. -/
def accepted (packets : List Packet) : List ClockInterval :=
  packets.zipIdx.filterMap fun x ↦ intervalTo? (lastMark? x.1.pid (packets.take x.2)) x.2 x.1

theorem lastMark?_append_singleton (pid : Pid) (packets : List Packet) (p : Packet) :
    lastMark? pid (packets ++ [p]) =
      if p.pid = pid then
        match p.reading? with
        | some c => some ⟨c.ticks, packets.length⟩
        | none => if p.breakSignalled then none else lastMark? pid packets
      else lastMark? pid packets := by
  have hlast : (packets ++ [p]).zipIdx.reverse = (p, packets.length) :: packets.zipIdx.reverse := by
    rw [List.zipIdx_append, List.reverse_append]
    simp
  rw [lastMark?, hlast, List.find?_cons]
  by_cases hpid : p.pid = pid
  · cases hreading : p.reading? with
    | some c => simp [hpid, hreading]
    | none => cases p.breakSignalled <;> simp [hpid, hreading, lastMark?]
  · simp [hpid, lastMark?]

theorem exists_of_lastMark? {m : ClockMark} (h : lastMark? pid packets = some m) :
    ∃ q c, packets[m.index]? = some q ∧ q.pid = pid ∧ q.reading? = some c ∧ c.ticks = m.ticks ∧
      ∀ l r, m.index < l → packets[l]? = some r → r.pid = pid → r.reading? = none := by
  induction packets using List.reverseRecOn with
  | nil => cases h
  | append_singleton packets p ih =>
    -- A packet that leaves the reading as it was has none of its own in the substream.
    have old (h : lastMark? pid packets = some m) (hp : p.pid = pid → p.reading? = none) :
        ∃ q c, (packets ++ [p])[m.index]? = some q ∧ q.pid = pid ∧ q.reading? = some c ∧
          c.ticks = m.ticks ∧ ∀ l r, m.index < l → (packets ++ [p])[l]? = some r →
            r.pid = pid → r.reading? = none := by
      obtain ⟨q, c, hq, hpid, hreading, hticks, hafter⟩ := ih h
      have hlt := (List.getElem?_eq_some_iff.1 hq).1
      refine ⟨q, c, by rw [List.getElem?_append_left hlt, hq], hpid, hreading, hticks, ?_⟩
      intro l r hl hr
      rcases getElem?_append_singleton_eq_some hr with hr | ⟨-, rfl⟩
      · exact hafter l r hl hr
      · exact hp
    rw [lastMark?_append_singleton] at h
    by_cases hpid : p.pid = pid
    · rw [if_pos hpid] at h
      cases hreading : p.reading? with
      | some c =>
        rw [hreading] at h
        obtain rfl := Option.some.inj h
        refine ⟨p, c, List.getElem?_concat_length, hpid, hreading, rfl, ?_⟩
        intro l r hl hr
        have hle := (List.getElem?_eq_some_iff.1 hr).1
        rw [List.length_append, List.length_singleton] at hle
        exact absurd hl (Nat.not_lt.2 (Nat.le_of_lt_succ hle))
      | none =>
        rw [hreading] at h
        cases hbreak : p.breakSignalled with
        | true => simp [hbreak] at h
        | false => exact old (by simpa [hbreak] using h) fun _ ↦ hreading
    · rw [if_neg hpid] at h
      exact old h fun hp ↦ absurd hp hpid

theorem lastTicks?_eq (pid : Pid) (packets : List Packet) :
    lastTicks? pid packets = (lastMark? pid packets).map (·.ticks) := by
  induction packets using List.reverseRecOn with
  | nil => rfl
  | append_singleton packets p ih =>
    rw [lastTicks?_append_singleton, lastMark?_append_singleton, noteTicks, ih]
    by_cases hpid : p.pid = pid
    · rw [if_pos hpid, if_pos hpid]
      cases p.reading? with
      | some c => rfl
      | none => cases p.breakSignalled <;> rfl
    · rw [if_neg hpid, if_neg hpid]

theorem neverBehind_of_extension_lt
    (h : ∀ p ∈ packets, ∀ c, p.reading? = some c → c.extension < 300) : NeverBehind packets := by
  rintro i p hp ⟨-, earlier, later, hearlier, -, hlt⟩
  rw [lastTicks?_eq] at hearlier
  obtain ⟨m, hm, rfl⟩ := Option.map_eq_some_iff.1 hearlier
  obtain ⟨q, c, hq, -, hc, hticks, -⟩ := exists_of_lastMark? hm
  have hmem : q ∈ packets := List.mem_of_mem_take (List.mem_of_getElem? hq)
  have hwrap := ClockReference.ticks_lt_wrap (h q hmem c hc)
  omega

theorem intervalBetween?_eq_some {earlier later : ClockMark} {i : ClockInterval}
    (h : intervalBetween? earlier later = some i) :
    0 < i.ticks ∧ i.ticks ≤ maxTicks ∧
      i = ⟨later.index - earlier.index, ticksBetween earlier.ticks later.ticks⟩ := by
  unfold intervalBetween? at h
  split at h
  · cases h
  · next kept =>
    rw [not_or, Nat.not_lt] at kept
    obtain rfl := Option.some.inj h
    exact ⟨Nat.pos_of_ne_zero kept.1, kept.2, rfl⟩

theorem intervalTo?_eq_some {last : Option ClockMark} {index : Nat} {i : ClockInterval}
    (h : intervalTo? last index p = some i) :
    ∃ c m, p.breakSignalled = false ∧ p.reading? = some c ∧ last = some m ∧ 0 < i.ticks ∧
      i.ticks ≤ maxTicks ∧ i = ⟨index - m.index, ticksBetween m.ticks c.ticks⟩ := by
  unfold intervalTo? at h
  split at h
  · cases h
  · next unbroken =>
    obtain ⟨c, hc, h⟩ := Option.bind_eq_some_iff.1 h
    obtain ⟨m, hm, h⟩ := Option.bind_eq_some_iff.1 h
    exact ⟨c, m, Bool.eq_false_iff.2 unbroken, hc, hm, intervalBetween?_eq_some h⟩

theorem mem_accepted {i : ClockInterval} : i ∈ accepted packets ↔
    ∃ j p, packets[j]? = some p ∧
      intervalTo? (lastMark? p.pid (packets.take j)) j p = some i := by
  simp only [accepted, List.mem_filterMap, Prod.exists, List.mk_mem_zipIdx_iff_getElem?]
  exact exists_comm

theorem accepted_append_singleton (packets : List Packet) (p : Packet) :
    accepted (packets ++ [p]) =
      accepted packets ++ (intervalTo? (lastMark? p.pid packets) packets.length p).toList := by
  have hsame : packets.zipIdx.filterMap (fun x ↦
      intervalTo? (lastMark? x.1.pid ((packets ++ [p]).take x.2)) x.2 x.1) = accepted packets := by
    apply List.filterMap_congr
    rintro ⟨q, j⟩ hq
    have hj := (List.getElem?_eq_some_iff.1 (List.mk_mem_zipIdx_iff_getElem?.1 hq)).1
    rw [List.take_append_of_le_length (Nat.le_of_lt hj)]
  rw [accepted, List.zipIdx_append, List.filterMap_append, hsame, Nat.zero_add,
    List.zipIdx_singleton, List.filterMap_cons, List.take_left, List.filterMap_nil]
  cases intervalTo? (lastMark? p.pid packets) packets.length p <;> rfl

theorem isPrefix_accepted_append (packets more : List Packet) :
    accepted packets <+: accepted (packets ++ more) := by
  induction more using List.reverseRecOn with
  | nil => simp
  | append_singleton more p ih =>
    rw [← List.append_assoc, accepted_append_singleton]
    exact ih.trans (List.prefix_append _ _)

theorem bounds_of_mem_accepted {i : ClockInterval} (h : i ∈ accepted packets) :
    i.packets ≤ packets.length ∧ 0 < i.ticks ∧ i.ticks ≤ maxTicks := by
  obtain ⟨j, p, hp, hi⟩ := mem_accepted.1 h
  obtain ⟨c, m, -, -, -, hpos, hle, heq⟩ := intervalTo?_eq_some hi
  refine ⟨?_, hpos, hle⟩
  rw [heq]
  exact (Nat.sub_le _ _).trans (Nat.le_of_lt (List.getElem?_eq_some_iff.1 hp).1)

/-- Whether the number of packets and the totals over the latest intervals have a place in 64 bits,
all along a stream. -/
def Fits (window : Nat) (packets : List Packet) : Prop :=
  packets.length < wordLimit ∧ ∀ n,
    tally (·.packets) ((accepted (packets.take n)).rtake window) < wordLimit ∧
    tally (·.ticks) ((accepted (packets.take n)).rtake window) < wordLimit

theorem length_rtake {α : Type} (xs : List α) (n : Nat) :
    (xs.rtake n).length = min n xs.length := by
  rw [List.rtake, List.length_drop]
  omega

theorem mem_of_mem_rtake {α : Type} {xs : List α} {n : Nat} {x : α} (h : x ∈ xs.rtake n) :
    x ∈ xs :=
  List.mem_of_mem_drop h

theorem fits_of_lt (hwindow : 0 < window) (hpackets : window * packets.length < wordLimit)
    (hticks : window * maxTicks < wordLimit) : Fits window packets := by
  refine ⟨Nat.lt_of_le_of_lt (Nat.le_mul_of_pos_left _ hwindow) hpackets, fun n ↦ ?_⟩
  have hlength : ((accepted (packets.take n)).rtake window).length ≤ window :=
    (length_rtake ..).trans_le (Nat.min_le_left ..)
  have hbounds : ∀ i ∈ (accepted (packets.take n)).rtake window,
      i.packets ≤ packets.length ∧ i.ticks ≤ maxTicks := by
    intro i hi
    obtain ⟨hle, -, hsecond⟩ := bounds_of_mem_accepted (mem_of_mem_rtake hi)
    exact ⟨hle.trans (List.length_take_le' _ _), hsecond⟩
  constructor
  · apply Nat.lt_of_le_of_lt _ hpackets
    exact (tally_le fun i hi ↦ (hbounds i hi).1).trans (Nat.mul_le_mul_right _ hlength)
  · apply Nat.lt_of_le_of_lt _ hticks
    exact (tally_le fun i hi ↦ (hbounds i hi).2).trans (Nat.mul_le_mul_right _ hlength)

theorem Fits.init {more : List Packet} (h : Fits window (packets ++ more)) :
    Fits window packets := by
  obtain ⟨hlength, htotals⟩ := h
  rw [List.length_append] at hlength
  refine ⟨by omega, fun n ↦ ?_⟩
  rcases Nat.le_total n packets.length with hn | hn
  · have htake := htotals n
    rwa [List.take_append_of_le_length hn] at htake
  · have htake := htotals packets.length
    rwa [List.take_left, ← List.take_of_length_le hn] at htake

end TransportStream.BitrateEstimator
