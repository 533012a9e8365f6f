import Mathlib.Data.List.Rotate
import TransportStream.Ring.Session

namespace TransportStream

theorem wrap_eq {a b n : Nat} (ha : a < n) (hb : b ≤ n) :
    (a + b) % n = if a + b < n then a + b else a + b - n := by
  split
  · next h => exact Nat.mod_eq_of_lt h
  · next h => rw [Nat.mod_eq_sub_mod (by omega), Nat.mod_eq_of_lt (by omega)]

theorem getElem?_overwrite {α : Type} {xs part ys : List α} {i : Nat}
    (h : overwrite xs i part = .ok ys) (j : Nat) :
    ys[j]? = if i ≤ j ∧ j < i + part.length then part[j - i]? else xs[j]? := by
  obtain ⟨hle, rfl⟩ := overwrite_eq_ok_iff.1 h
  have hi : (xs.take i).length = i := by rw [List.length_take]; omega
  rw [List.append_assoc, List.getElem?_append, hi]
  split
  · next hj => rw [List.getElem?_take_of_lt hj, if_neg (by omega)]
  · next hj =>
    rw [List.getElem?_append]
    split
    · next hk => rw [if_pos (by omega)]
    · next hk =>
      rw [List.getElem?_drop, if_neg (by omega)]
      congr 1
      omega

namespace PacketRing

variable {r : PacketRing}

/-- The indices lie in the slots, and the write index is `count` places after the read index. -/
structure Valid (r : PacketRing) : Prop where
  readIndex_lt : r.readIndex < r.capacity
  count_le : r.count ≤ r.capacity
  writeIndex_eq : r.writeIndex = (r.readIndex + r.count) % r.capacity

namespace Valid

theorem writeIndex_lt (h : r.Valid) : r.writeIndex < r.capacity := by
  rw [h.writeIndex_eq]
  exact Nat.mod_lt _ (Nat.zero_lt_of_lt h.readIndex_lt)

theorem writeIndex_cases (h : r.Valid) : r.writeIndex =
    if r.readIndex + r.count < r.capacity then r.readIndex + r.count
    else r.readIndex + r.count - r.capacity := by
  rw [h.writeIndex_eq, wrap_eq h.readIndex_lt h.count_le]

theorem freeRun_le (h : r.Valid) :
    r.writeIndex + r.freeRun ≤ r.capacity ∧ r.count + r.freeRun ≤ r.capacity := by
  have hw := h.writeIndex_cases
  have hr := h.readIndex_lt
  have hc := h.count_le
  unfold freeRun
  split at hw <;> split_ifs <;> omega

theorem freeRun_of_empty (h : r.Valid) (hc : r.count = 0) :
    r.freeRun = r.capacity - r.writeIndex := by
  have hw := h.writeIndex_cases
  have hr := h.readIndex_lt
  rw [hc] at hw
  unfold freeRun
  split_ifs at hw ⊢ <;> omega

end Valid

theorem contents_eq (h : r.Valid) : r.contents = (r.slots.rotate r.readIndex).take r.count := by
  rw [contents, List.rotate_eq_drop_append_take (Nat.le_of_lt h.readIndex_lt)]

theorem length_contents (h : r.Valid) : r.contents.length = r.count := by
  rw [contents_eq h, List.length_take, List.length_rotate]
  exact Nat.min_eq_left h.count_le

theorem getElem?_contents (h : r.Valid) {i : Nat} (hi : i < r.count) :
    r.contents[i]? = r.slots[(r.readIndex + i) % r.capacity]? := by
  have hc : i < r.slots.length := Nat.lt_of_lt_of_le hi h.count_le
  rw [contents_eq h, List.getElem?_take_of_lt hi, List.getElem?_rotate hc, Nat.add_comm, capacity]

theorem contents_ext (h : r.Valid) {xs : List Packet} (hl : xs.length = r.count)
    (hx : ∀ i < r.count, xs[i]? = r.slots[(r.readIndex + i) % r.capacity]?) :
    r.contents = xs := by
  apply List.ext_getElem?
  intro i
  by_cases hi : i < r.count
  · rw [getElem?_contents h hi, hx i hi]
  · rw [List.getElem?_eq_none (by rw [length_contents h]; omega),
      List.getElem?_eq_none (by omega)]

def advance (r : PacketRing) (n : Nat) : PacketRing :=
  { r with readIndex := (r.readIndex + n) % r.capacity, count := r.count - n }

theorem Valid.advance (h : r.Valid) {n : Nat} (hn : n ≤ r.count) : (r.advance n).Valid where
  readIndex_lt := Nat.mod_lt _ (Nat.zero_lt_of_lt h.readIndex_lt)
  count_le := (Nat.sub_le _ _).trans h.count_le
  writeIndex_eq := by
    show r.writeIndex = ((r.readIndex + n) % r.capacity + (r.count - n)) % r.capacity
    rw [h.writeIndex_eq, Nat.mod_add_mod]
    congr 1
    omega

theorem advance_zero (h : r.Valid) : r.advance 0 = r := by
  rw [PacketRing.advance, Nat.add_zero, Nat.mod_eq_of_lt h.readIndex_lt, Nat.sub_zero]

theorem contents_advance (h : r.Valid) {n : Nat} (hn : n ≤ r.count) :
    (r.advance n).contents = r.contents.drop n := by
  apply contents_ext (h.advance hn)
  · rw [List.length_drop, length_contents h, PacketRing.advance]
  · intro i hi
    have hi' : n + i < r.count := by simp only [PacketRing.advance] at hi; omega
    rw [List.getElem?_drop, getElem?_contents h hi']
    show _ = r.slots[((r.readIndex + n) % r.capacity + i) % r.capacity]?
    rw [Nat.mod_add_mod, Nat.add_assoc]

theorem take_eq (h : r.Valid) : r.take = .ok
    (if r.count = 0 then (r, none, {})
      else (r.advance 1, r.contents.head?.map fun p ↦ (p, r.bitrate), { writer := true })) := by
  by_cases hc : r.count = 0
  · rw [take, if_pos hc, if_pos hc]
    rfl
  · have hi := getElem?_contents h (Nat.pos_of_ne_zero hc)
    rw [Nat.add_zero, Nat.mod_eq_of_lt h.readIndex_lt, ← List.head?_eq_getElem?] at hi
    have hs : r.slots[r.readIndex]? = some (r.slots.get ⟨r.readIndex, h.readIndex_lt⟩) :=
      List.getElem?_eq_getElem h.readIndex_lt
    rw [take, if_neg hc, if_neg hc, itemAt_eq_ok_iff.2 hs, hi, hs]
    rfl

theorem copyRuns_eq {n bound start : Nat} (hb : n ≤ bound) (hs : start < r.capacity) :
    ∃ runs, r.copyRuns bound n start = .ok (runs, (start + n) % r.capacity) ∧
      runs.flatten.length = n ∧
      ∀ i < n, runs.flatten[i]? = r.slots[(start + i) % r.capacity]? := by
  induction bound generalizing n start with
  | zero =>
    obtain rfl : n = 0 := by omega
    exact ⟨[], by rw [copyRuns, Nat.add_zero, Nat.mod_eq_of_lt hs], rfl, by simp⟩
  | succ bound ih =>
    cases n with
    | zero => exact ⟨[], by rw [copyRuns, Nat.add_zero, Nat.mod_eq_of_lt hs], rfl, by simp⟩
    | succ n =>
      -- One run up to the end of the slots, and then those from where it stops.
      let size := min (n + 1) (r.capacity - start)
      have hle : start + size ≤ r.slots.length := by
        have : r.slots.length = r.capacity := rfl
        omega
      have hrun : slice r.slots start (start + size) =
          .ok ((r.slots.take (start + size)).drop start) :=
        slice_eq_ok_iff.2 ⟨⟨by omega, hle⟩, rfl⟩
      have hlen := length_of_slice hrun
      obtain ⟨runs, hr, hl, hx⟩ := ih (n := n + 1 - size) (by omega)
        (Nat.mod_lt (start + size) (Nat.zero_lt_of_lt hs))
      have hsum : size + (n + 1 - size) = n + 1 := by omega
      refine ⟨(r.slots.take (start + size)).drop start :: runs, ?_, ?_, ?_⟩
      · simp only [copyRuns]
        rw [hrun]
        show (r.copyRuns bound (n + 1 - size) ((start + size) % r.capacity) >>= _) = _
        rw [hr, Nat.mod_add_mod, Nat.add_assoc, hsum]
        rfl
      · rw [List.flatten_cons, List.length_append, hl, hlen]
        omega
      · intro i hi
        rw [List.flatten_cons, List.getElem?_append, hlen]
        split
        · next hi' =>
          rw [List.getElem?_drop, List.getElem?_take_of_lt (by omega),
            Nat.mod_eq_of_lt (by omega)]
        · next hi' =>
          rw [hx _ (by omega), Nat.mod_add_mod]
          congr 2
          omega

theorem copyRuns_eq_contents (h : r.Valid) {n : Nat} (hn : n ≤ r.count) : ∃ runs,
    r.copyRuns n n r.readIndex = .ok (runs, (r.readIndex + n) % r.capacity) ∧
      runs.flatten = r.contents.take n := by
  obtain ⟨runs, hr, hl, hx⟩ := r.copyRuns_eq (Nat.le_refl n) h.readIndex_lt
  refine ⟨runs, hr, ?_⟩
  apply List.ext_getElem?
  intro i
  by_cases hi : i < n
  · rw [hx i hi, List.getElem?_take_of_lt hi, getElem?_contents h (Nat.lt_of_lt_of_le hi hn)]
  · rw [List.getElem?_eq_none (by omega), List.getElem?_eq_none (by
      rw [List.length_take, length_contents h]; omega)]

def batchCount (r : PacketRing) (room : Nat) : Nat :=
  if r.stopped then 0 else min r.count room

theorem batchCount_le (r : PacketRing) (room : Nat) : r.batchCount room ≤ r.count := by
  unfold batchCount
  split <;> omega

theorem batchCount_eq_zero {room : Nat} (hn : room = 0 ∨ r.stopped = true) :
    r.batchCount room = 0 := by
  unfold batchCount
  rcases hn with rfl | hs
  · split <;> omega
  · rw [if_pos hs]

theorem batchCount_of_running {room : Nat} (hs : ¬ r.stopped = true) :
    r.batchCount room = min r.count room := if_neg hs

theorem takeMany_eq (h : r.Valid) (room : Nat) : r.takeMany room = .ok
    (r.advance (r.batchCount room), ⟨r.contents.take (r.batchCount room), r.bitrate⟩,
      { writer := decide (0 < r.batchCount room) }) := by
  by_cases hn : room = 0 ∨ r.stopped = true
  · rw [takeMany, if_pos hn, batchCount_eq_zero hn, advance_zero h]
    rfl
  · obtain ⟨runs, hr, hruns⟩ := copyRuns_eq_contents h (Nat.min_le_left r.count room)
    rw [takeMany, if_neg hn, batchCount_of_running fun hs ↦ hn (.inr hs), ← hruns]
    show (r.copyRuns _ _ _ >>= _) = _
    rw [hr]
    rfl

theorem contents_congr {s : PacketRing} (hr : r.Valid) (hs : s.Valid) (hc : s.count = r.count)
    (hx : ∀ i < r.count, s.slots[(s.readIndex + i) % s.capacity]? =
      r.slots[(r.readIndex + i) % r.capacity]?) : s.contents = r.contents := by
  apply contents_ext hs
  · rw [length_contents hr, hc]
  · intro i hi
    rw [hc] at hi
    rw [getElem?_contents hr hi, hx i hi]

variable {part : List Packet} {slots : List Packet}

theorem overwrite_free (h : r.Valid) (hp : part.length ≤ r.freeRun) :
    ∃ slots, overwrite r.slots r.writeIndex part = .ok slots := by
  have hle := h.freeRun_le.1
  exact ⟨_, overwrite_eq_ok_iff.2 ⟨by rw [← capacity]; omega, rfl⟩⟩

theorem getElem?_overwrite_old (h : r.Valid) (hp : part.length ≤ r.freeRun)
    (ho : overwrite r.slots r.writeIndex part = .ok slots) {i : Nat} (hi : i < r.count) :
    slots[(r.readIndex + i) % r.capacity]? = r.slots[(r.readIndex + i) % r.capacity]? := by
  have hw := h.writeIndex_cases
  have hr := h.readIndex_lt
  have hc := h.count_le
  rw [getElem?_overwrite ho, if_neg]
  rw [wrap_eq hr (by omega)]
  unfold freeRun at hp
  -- Either side may have wrapped; in each case the free slots are apart from the others.
  split_ifs at hw hp ⊢ <;> omega

theorem getElem?_overwrite_new (h : r.Valid) (hp : part.length ≤ r.freeRun)
    (ho : overwrite r.slots r.writeIndex part = .ok slots) {i : Nat} (hi : i < part.length) :
    slots[(r.readIndex + (r.count + i)) % r.capacity]? = part[i]? := by
  have hle := h.freeRun_le.1
  have hj : (r.readIndex + (r.count + i)) % r.capacity = r.writeIndex + i := by
    rw [← Nat.add_assoc, ← Nat.mod_add_mod, ← h.writeIndex_eq, Nat.mod_eq_of_lt (by omega)]
  rw [hj, getElem?_overwrite ho, if_pos (by omega), Nat.add_sub_cancel_left]

def extend (r : PacketRing) (slots part : List Packet) (estimator : BitrateEstimator) :
    PacketRing :=
  { r with
    windowTaken := false
    slots
    estimator
    writeIndex := (r.writeIndex + part.length) % r.capacity
    count := r.count + part.length }

theorem capacity_extend (ho : overwrite r.slots r.writeIndex part = .ok slots)
    (e : BitrateEstimator) : (r.extend slots part e).capacity = r.capacity :=
  length_of_overwrite ho

theorem Valid.extend (h : r.Valid) (hp : part.length ≤ r.freeRun)
    (ho : overwrite r.slots r.writeIndex part = .ok slots) (e : BitrateEstimator) :
    (r.extend slots part e).Valid where
  readIndex_lt := by
    rw [capacity_extend ho]
    exact h.readIndex_lt
  count_le := by
    rw [capacity_extend ho]
    show r.count + part.length ≤ r.capacity
    have hle := h.freeRun_le.2
    omega
  writeIndex_eq := by
    rw [capacity_extend ho]
    show (r.writeIndex + part.length) % r.capacity =
      (r.readIndex + (r.count + part.length)) % r.capacity
    rw [h.writeIndex_eq, Nat.mod_add_mod, Nat.add_assoc]

theorem contents_extend (h : r.Valid) (hp : part.length ≤ r.freeRun)
    (ho : overwrite r.slots r.writeIndex part = .ok slots) (e : BitrateEstimator) :
    (r.extend slots part e).contents = r.contents ++ part := by
  apply contents_ext (h.extend hp ho e)
  · rw [List.length_append, length_contents h, PacketRing.extend]
  · intro i hi
    rw [capacity_extend ho]
    show _ = slots[(r.readIndex + i) % r.capacity]?
    rw [List.getElem?_append, length_contents h]
    split
    · next hi' => rw [getElem?_overwrite_old h hp ho hi', getElem?_contents h hi']
    · next hi' =>
      have hj : i - r.count < part.length := by simp only [PacketRing.extend] at hi; omega
      rw [← getElem?_overwrite_new h hp ho hj]
      congr 2
      omega

/-- Whether a window is from before a reset, or the ring is stopped. -/
def IsStale (r : PacketRing) (w : PacketWindow) : Prop :=
  w.generation ≠ r.generation ∨ r.stopped = true

def prefixOf (r : PacketRing) (w : PacketWindow) (n : Nat) : List Packet :=
  w.packets.take (min n r.freeRun)

theorem length_prefixOf_le (w : PacketWindow) (n : Nat) :
    (r.prefixOf w n).length ≤ r.freeRun := by
  rw [prefixOf, List.length_take]
  omega

theorem publish_cases {w : PacketWindow} {n k : Nat} {s : PacketRing} {signals : Signals}
    (hv : (r.publish w n).value = .ok (s, k, signals)) :
    (r.IsStale w ∧ k = 0 ∧ s = { r with windowTaken := false } ∧ signals = {}) ∨
    (¬ r.IsStale w ∧ ∃ slots e,
      overwrite r.slots r.writeIndex (r.prefixOf w n) = .ok slots ∧
      k = (r.prefixOf w n).length ∧ s = r.extend slots (r.prefixOf w n) e ∧
      signals = { reader := !(r.prefixOf w n).isEmpty }) := by
  by_cases hw : w.generation = r.generation ∧ !r.stopped
  · have hn : ¬ r.IsStale w := by
      rintro (h | h)
      · exact h hw.1
      · simp [h] at hw
    rw [publish, if_pos hw] at hv
    obtain ⟨slots, ho, hv⟩ := Traced.value_bind_eq_ok_iff.1 hv
    rw [Traced.value_liftM] at ho
    have he : ∃ e, Except.ok (s, k, signals) = (.ok (r.extend slots (r.prefixOf w n) e,
        (r.prefixOf w n).length, { reader := !(r.prefixOf w n).isEmpty }) : Except Fault _) := by
      split at hv <;> obtain ⟨e, -, hv⟩ := Traced.value_bind_eq_ok_iff.1 hv <;>
        exact ⟨e, hv.symm⟩
    obtain ⟨e, he⟩ := he
    simp only [Except.ok.injEq, Prod.mk.injEq] at he
    exact .inr ⟨hn, slots, e, ho, he.2.1, he.1, he.2.2⟩
  · have hst : r.IsStale w := by
      by_cases hg : w.generation = r.generation
      · exact .inr (by simpa [hg] using hw)
      · exact .inl hg
    have he : (r.publish w n).value = .ok ({ r with windowTaken := false }, 0, {}) := by
      rw [publish, if_neg hw]
      split <;> rfl
    simp only [he, Except.ok.injEq, Prod.mk.injEq] at hv
    exact .inl ⟨hst, hv.2.1.symm, hv.1.symm, hv.2.2.symm⟩

end PacketRing

end TransportStream
