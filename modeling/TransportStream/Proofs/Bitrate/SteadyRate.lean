import TransportStream.Proofs.Bitrate.ConstantRate
import TransportStream.Proofs.Bitrate.Rolling

namespace TransportStream

namespace BitrateEstimator

variable {e : BitrateEstimator} {packets : List Packet} {window needed k : Nat}
  {offset : Pid → Nat}

/-- Whether the clock readings are those of a stream whose packets are `k` ticks apart, and from
each reading of a substream to the next is less than a turn of the clock. -/
structure Steady (k : Nat) (offset : Pid → Nat) (packets : List Packet) : Prop where
  positive : 0 < k
  clocked : ∀ (i : Nat) (p : Packet) (c : ClockReference), packets[i]? = some p →
    p.reading? = some c → c = .ofTicks (offset p.pid + k * i)
  close : ∀ (i j : Nat) (p q : Packet), i < j → packets[i]? = some p → packets[j]? = some q →
    p.pid = q.pid → p.reading?.isSome = true → q.reading?.isSome = true →
    (∀ (l : Nat) (r : Packet), i < l → l < j → packets[l]? = some r → r.pid = q.pid →
      r.reading? = none) →
    k * (j - i) < ClockReference.wrap

theorem steady_of_short (positive : 0 < k) (short : k * packets.length ≤ ClockReference.wrap)
    (clocks : ∀ y ∈ packets.zipIdx, y.1.reading? = none ∨
      y.1.reading? = some (.ofTicks (offset y.1.pid + k * y.2))) : Steady k offset packets where
  positive := positive
  clocked i p c hp hreading := by
    rcases clocks (p, i) (List.mk_mem_zipIdx_iff_getElem?.2 hp) with hnone | hsome
    · cases hnone.symm.trans hreading
    · exact Option.some.inj (hreading.symm.trans hsome)
  close i j p q hij _ hq _ _ _ _ := by
    have hj := (List.getElem?_eq_some_iff.1 hq).1
    exact Nat.lt_of_lt_of_le (Nat.mul_lt_mul_of_pos_left (by omega) positive) short

theorem Steady.extension_lt (h : Steady k offset packets) {p : Packet} (hp : p ∈ packets)
    {c : ClockReference} (hreading : p.reading? = some c) : c.extension < 300 := by
  obtain ⟨i, hi⟩ := List.getElem?_of_mem hp
  rw [h.clocked i p c hi hreading]
  exact ClockReference.extension_ofTicks_lt _

theorem Steady.ticks_eq (h : Steady k offset packets) {i : ClockInterval}
    (hi : i ∈ accepted packets) : i.ticks = k * i.packets := by
  obtain ⟨j, q, hq, hi⟩ := mem_accepted.1 hi
  obtain ⟨c, m, -, hc, hm, -, -, rfl⟩ := intervalTo?_eq_some hi
  obtain ⟨p, c', hp, hpid, hc', hticks, hafter⟩ := exists_of_lastMark? hm
  rw [List.getElem?_take] at hp
  split at hp
  · next hlt =>
    have hclose : k * (j - m.index) < ClockReference.wrap := by
      refine h.close m.index j p q hlt hp hq hpid (by rw [hc']; rfl) (by rw [hc]; rfl) ?_
      intro l r hl hlj hr
      exact hafter l r hl (by rwa [List.getElem?_take_of_lt hlj])
    dsimp only
    rw [← hticks, h.clocked m.index p c' hp hc', h.clocked j q c hq hc, hpid,
      ticksBetween_ofTicks_mul _ _ (Nat.le_of_lt hlt), Nat.mod_eq_of_lt hclose]
  · cases hp

theorem Follows.bitrate_of_same (h : Follows window needed e packets)
    (same : ∀ x ∈ e.intervals, x.ticks = k * x.packets) :
    e.bitrate = if e.isValid then 188 * 8 * 27000000 / k else 0 := by
  rw [h.bitrate_eq]
  cases hvalid : e.isValid with
  | false => rw [if_neg Bool.false_ne_true, if_neg Bool.false_ne_true]
  | true =>
    have hpos := h.totalTicks_pos hvalid
    rw [h.tallied.totalTicks_eq same] at hpos ⊢
    rw [if_pos rfl, if_pos rfl, rate_eq hpos]

/-- A new estimator, or one that has been reset, takes every packet of a steady stream and gives its
rate, at each point at which it gives an estimate. -/
theorem Fed.bitrate_of_steady (h : Fed window needed e []) (steady : Steady k offset packets)
    (fits : Fits window packets) (n : Nat) :
    ∃ e', (e.feedAll (packets.take n)).value = .ok e' ∧
      e'.bitrate = if e'.isValid then 188 * 8 * 27000000 / k else 0 := by
  rw [← List.take_append_drop n packets] at fits
  have never : NeverBehind (packets.take n) :=
    neverBehind_of_extension_lt fun p hp c ↦ steady.extension_lt (List.mem_of_mem_take hp)
  obtain ⟨e', fed, hfollows⟩ := (h.follows.value_feedAll fits.init).1 never
  refine ⟨e', fed, hfollows.bitrate_of_same fun x hx ↦ steady.ticks_eq ?_⟩
  rw [hfollows.intervals] at hx
  have hprefix := isPrefix_accepted_append (packets.take n) (packets.drop n)
  rw [List.take_append_drop] at hprefix
  exact hprefix.subset (mem_of_mem_rtake hx)

def slow : List Packet :=
  let first (i : Nat) : Packet :=
    .clockOnly .pat .zero (.ofTicks (ClockReference.wrap - 9000000 + 9000000 * i))
  let second (i : Nat) : Packet := .clockOnly { val := 257 } .zero (.ofTicks (5 + 9000000 * i))
  [first 0, first 1, second 2, first 3, .null, .null, .null, first 7, first 8, second 9]

theorem bitrate_of_steady_slow : ∃ offset, Steady 9000000 offset slow ∧ Fits 2 slow ∧
    accepted slow = [⟨1, 9000000⟩, ⟨2, 18000000⟩, ⟨1, 9000000⟩] ∧
    ∃ e, Fed 2 2 e slow ∧ e.bitrate = 4512 := by
  let offset (pid : Pid) := if pid = .pat then ClockReference.wrap - 9000000 else 5
  have steady : Steady 9000000 offset slow :=
    steady_of_short (by decide) (by decide) (by decide +kernel)
  have fits : Fits 2 slow := fits_of_lt (by decide) (by decide) (by decide)
  have h₀ : Fed 2 2 { window := 2, needed := 2 } [] := .create rfl
  obtain ⟨e, fed, hbitrate⟩ := h₀.bitrate_of_steady steady fits slow.length
  rw [List.take_length] at fed
  have h : Fed 2 2 e slow := h₀.feedAll fed
  have haccepted : accepted slow = [⟨1, 9000000⟩, ⟨2, 18000000⟩, ⟨1, 9000000⟩] := by
    decide +kernel
  have hvalid : e.isValid = true := by
    rw [h.follows.isValid_iff, haccepted]
    decide
  rw [if_pos hvalid] at hbitrate
  exact ⟨offset, steady, fits, haccepted, e, h, hbitrate⟩

end BitrateEstimator

end TransportStream
