import TransportStream.Proofs.Ring.History

namespace TransportStream

namespace PacketRing

variable {r : PacketRing} {bound n i start stop : Nat} {runs : List (List Packet)}

theorem copyRuns_zero (r : PacketRing) (bound start : Nat) :
    r.copyRuns bound 0 start = .ok ([], start) := by
  cases bound <;> rfl

theorem copyRuns_succ_eq_ok (h : r.copyRuns (bound + 1) (n + 1) start = .ok (runs, stop)) :
    ∃ run rest, slice r.slots start (start + min (n + 1) (r.capacity - start)) = .ok run ∧
      r.copyRuns bound (n + 1 - min (n + 1) (r.capacity - start))
        ((start + min (n + 1) (r.capacity - start)) % r.capacity) = .ok (rest, stop) ∧
      runs = run :: rest := by
  obtain ⟨run, hrun, h⟩ := bind_eq_ok_iff.1 h
  obtain ⟨⟨rest, stop'⟩, hrest, h⟩ := bind_eq_ok_iff.1 h
  cases h
  exact ⟨run, rest, hrun, hrest, rfl⟩

theorem copyRuns_of_length_le (h : r.copyRuns bound n start = .ok (runs, stop)) {bound' : Nat}
    (hle : runs.length ≤ bound') : r.copyRuns bound' n start = .ok (runs, stop) := by
  induction bound generalizing bound' n start runs with
  | zero =>
    cases n with
    | zero => rwa [copyRuns_zero] at h ⊢
    | succ n => cases h
  | succ bound ih =>
    cases n with
    | zero => rwa [copyRuns_zero] at h ⊢
    | succ n =>
      obtain ⟨run, rest, hrun, hrest, rfl⟩ := copyRuns_succ_eq_ok h
      cases bound' with
      | zero => cases hle
      | succ bound' =>
        have hnext := ih hrest (Nat.le_of_succ_le_succ hle)
        exact bind_eq_ok_iff.2 ⟨run, hrun, bind_eq_ok_iff.2 ⟨(rest, stop), hnext, rfl⟩⟩

theorem length_runs_le_one (h : r.copyRuns bound n start = .ok (runs, stop))
    (hn : start + n ≤ r.capacity) : runs.length ≤ 1 := by
  cases n with
  | zero =>
    rw [copyRuns_zero] at h
    cases h
    exact Nat.zero_le _
  | succ n =>
    cases bound with
    | zero => cases h
    | succ bound =>
      obtain ⟨run, rest, -, hrest, rfl⟩ := copyRuns_succ_eq_ok h
      have hmin : min (n + 1) (r.capacity - start) = n + 1 := by omega
      rw [hmin, Nat.sub_self, copyRuns_zero] at hrest
      cases hrest
      exact Nat.le_refl _

theorem length_runs_le_two (h : r.copyRuns bound n start = .ok (runs, stop))
    (hn : n ≤ r.capacity) (hs : start < r.capacity) : runs.length ≤ 2 := by
  by_cases hfit : start + n ≤ r.capacity
  · exact (length_runs_le_one h hfit).trans (by decide)
  · cases n with
    | zero => omega
    | succ n =>
      cases bound with
      | zero => cases h
      | succ bound =>
        obtain ⟨run, rest, -, hrest, rfl⟩ := copyRuns_succ_eq_ok h
        have hmin : min (n + 1) (r.capacity - start) = r.capacity - start := by omega
        rw [hmin, Nat.add_sub_cancel' (Nat.le_of_lt hs), Nat.mod_self] at hrest
        exact Nat.succ_le_succ (length_runs_le_one hrest (by omega))

theorem placeRuns_eq {buffer : List Packet} (h : i + runs.flatten.length ≤ buffer.length) :
    placeRuns buffer i runs =
      .ok (buffer.take i ++ runs.flatten ++ buffer.drop (i + runs.flatten.length)) := by
  induction runs generalizing buffer i with
  | nil => simp [placeRuns, pure, Except.pure]
  | cons run rest ih =>
    rw [List.flatten_cons, List.length_append] at h
    have hover : overwrite buffer i run =
        .ok (buffer.take i ++ run ++ buffer.drop (i + run.length)) :=
      overwrite_eq_ok_iff.2 ⟨by omega, rfl⟩
    have hlength := length_of_overwrite hover
    have hstart : (buffer.take i ++ run).length = i + run.length := by
      rw [List.length_append, List.length_take]
      omega
    have htake : (buffer.take i ++ run ++ buffer.drop (i + run.length)).take (i + run.length) =
        buffer.take i ++ run := List.take_left' hstart
    have hdrop : (buffer.take i ++ run ++ buffer.drop (i + run.length)).drop
        (i + run.length + rest.flatten.length) =
          buffer.drop (i + run.length + rest.flatten.length) := by
      rw [← List.drop_drop, List.drop_left' hstart, List.drop_drop]
    rw [placeRuns, hover]
    show placeRuns _ _ rest = _
    rw [ih (by omega), htake, hdrop, List.flatten_cons, List.length_append, Nat.add_assoc,
      List.append_assoc _ run]

theorem takeInto_eq (h : r.Valid) (buffer : List Packet) : r.takeInto buffer = .ok
    (r.advance (r.batchCount buffer.length),
      r.contents.take (r.batchCount buffer.length) ++ buffer.drop (r.batchCount buffer.length),
      (r.batchCount buffer.length, r.bitrate),
      { writer := decide (0 < r.batchCount buffer.length) }) := by
  by_cases hn : buffer.isEmpty = true ∨ r.stopped = true
  · have hzero : r.batchCount buffer.length = 0 :=
      batchCount_eq_zero (hn.imp_left List.isEmpty_iff_length_eq_zero.1)
    rw [takeInto, if_pos hn, hzero, advance_zero h]
    rfl
  · obtain ⟨runs, hcopy, hruns⟩ := copyRuns_eq_contents h (Nat.min_le_left r.count buffer.length)
    have hlength : runs.flatten.length = min r.count buffer.length := by
      rw [hruns, List.length_take, length_contents h]
      omega
    have hfits : 0 + runs.flatten.length ≤ buffer.length := by omega
    have hplace : placeRuns buffer 0 runs =
        .ok (runs.flatten ++ buffer.drop runs.flatten.length) := by
      simpa using placeRuns_eq hfits
    rw [takeInto, if_neg hn, batchCount_of_running fun hs ↦ hn (.inr hs), ← hruns]
    show (r.copyRuns _ _ _ >>= _) = _
    rw [hcopy]
    show (placeRuns buffer 0 runs >>= _) = _
    rw [hplace, hlength]
    rfl

theorem advance_advance (r : PacketRing) (m n : Nat) :
    (r.advance m).advance n = r.advance (m + n) := by
  have hindex : ((r.readIndex + m) % r.capacity + n) % r.capacity =
      (r.readIndex + (m + n)) % r.capacity := by
    rw [Nat.mod_add_mod, Nat.add_assoc]
  have hcount : r.count - m - n = r.count - (m + n) := Nat.sub_sub _ _ _
  show { r with
    readIndex := ((r.readIndex + m) % r.capacity + n) % r.capacity, count := r.count - m - n } = _
  rw [hindex, hcount]
  rfl

theorem bitrate_advance (r : PacketRing) (n : Nat) : (r.advance n).bitrate = r.bitrate := rfl

end PacketRing

namespace RingSession

variable {s : RingSession}

/-- Takes so many packets, one after the other, without waiting. -/
def takeEach (s : RingSession) : Nat → Except Fault (RingSession × List (Option (Packet × Nat)))
  | 0 => return (s, [])
  | n + 1 => do
    let (s, item) ← s.take
    let (s, items) ← s.takeEach n
    return (s, item :: items)

theorem after_eq_self (s : RingSession) : s.after s.ring {} = s := rfl

theorem after_after (s : RingSession) (ring ring' : PacketRing) (told : Bool) :
    (s.after ring { writer := true }).after ring' { writer := told } =
      s.after ring' { writer := true } := by
  obtain ⟨ring₀, writer, reader⟩ := s
  cases writer <;> cases told <;> rfl

theorem takeEach_eq (hv : s.ring.Valid) {n : Nat} (hn : n ≤ s.ring.count) : s.takeEach n = .ok
    (s.after (s.ring.advance n) { writer := decide (0 < n) },
      (s.ring.contents.take n).map fun p ↦ some (p, s.ring.bitrate)) := by
  induction n generalizing s with
  | zero =>
    rw [PacketRing.advance_zero hv]
    exact congrArg Except.ok (Prod.ext (after_eq_self s).symm rfl)
  | succ n ih =>
    have hpos : 0 < s.ring.count := Nat.zero_lt_of_lt hn
    obtain ⟨p, rest, hcontents⟩ : ∃ p rest, s.ring.contents = p :: rest := by
      apply List.exists_cons_of_length_pos
      rwa [PacketRing.length_contents hv]
    have htake : s.take = .ok (s.after (s.ring.advance 1) { writer := true },
        some (p, s.ring.bitrate)) := by
      rw [take_eq hv, if_neg (Nat.ne_of_gt hpos), hcontents]
      rfl
    have hnext : (s.ring.advance 1).contents = rest := by
      rw [PacketRing.contents_advance hv hpos, hcontents, List.drop_one, List.tail_cons]
    have hrest := ih (s := s.after (s.ring.advance 1) { writer := true }) (hv.advance hpos)
      (Nat.le_sub_one_of_lt hn)
    rw [ring_after, hnext, after_after, PacketRing.advance_advance, Nat.add_comm 1 n,
      PacketRing.bitrate_advance] at hrest
    rw [takeEach, htake]
    show (takeEach _ n >>= _) = _
    rw [hrest, hcontents, decide_eq_true (Nat.succ_pos n)]
    rfl

end RingSession

namespace RingHistory

/-- A reader that takes a batch from a ring with packets gets those that as many single calls would
give, with the same bitrate, and leaves everything as these would. They fill its buffer from the
start, in two runs at most, and the rest of the buffer stays as it is. -/
theorem Reachable.batch_eq_takeEach {h : RingHistory} (hr : h.Reachable)
    (running : h.session.ring.stopped = false) (held : 0 < h.session.ring.count)
    {buffer : List Packet} (room : 0 < buffer.length) {m : Nat}
    (hm : m = min buffer.length h.session.ring.count) :
    ∃ (t : RingSession) (packets : List Packet) (runs : List (List Packet)),
      packets.length = m ∧
      h.session.tryRead buffer.length = .ok (t, some ⟨packets, h.session.ring.bitrate⟩) ∧
      RingSession.takeEach { h.session with reader := .idle } m =
        .ok (t, packets.map fun p ↦ some (p, h.session.ring.bitrate)) ∧
      h.session.ring.takeInto buffer = .ok (t.ring, packets ++ buffer.drop m,
        (m, h.session.ring.bitrate), { writer := true }) ∧
      h.session.ring.copyRuns m m h.session.ring.readIndex = .ok (runs, t.ring.readIndex) ∧
      h.session.ring.copyRuns 2 m h.session.ring.readIndex = .ok (runs, t.ring.readIndex) ∧
      runs.flatten = packets ∧ runs.length ≤ 2 := by
  have hv := hr.sound.valid
  have hle : m ≤ h.session.ring.count := by omega
  have hpos : decide (0 < m) = true := decide_eq_true (by omega)
  have hbatch : h.session.ring.batchCount buffer.length = m := by
    rw [PacketRing.batchCount_of_running (by rw [running]; nofun), hm, Nat.min_comm]
  have hcan : h.session.ring.canRead buffer.length = true := by
    simp [PacketRing.canRead, Nat.ne_of_gt held]
  have hread := RingSession.tryRead_eq hv buffer.length
  have hinto := PacketRing.takeInto_eq hv buffer
  have heach := RingSession.takeEach_eq (s := { h.session with reader := .idle }) hv hle
  rw [if_pos hcan, hbatch, hpos] at hread
  rw [hbatch, hpos] at hinto
  rw [hpos] at heach
  obtain ⟨runs, hcopy, hflatten⟩ := PacketRing.copyRuns_eq_contents hv hle
  have htwo := PacketRing.length_runs_le_two hcopy (hle.trans hv.count_le) hv.readIndex_lt
  refine ⟨_, _, runs, ?_, hread, heach, hinto, hcopy, PacketRing.copyRuns_of_length_le hcopy htwo,
    hflatten, htwo⟩
  rw [List.length_take, PacketRing.length_contents hv]
  omega

def turned : RingHistory where
  session := { ring := {
    slots := [.payloadOnly .pat .zero, .null]
    readIndex := 1
    writeIndex := 1
    count := 2
    declaredBitrate := 1 } }
  published := [.null, .null, .payloadOnly .pat .zero]
  received := [.null]

theorem reachable_turned : turned.Reachable := by
  have h₁ := reachable_full.step (@Step.take _ _ _ rfl rfl)
  have h₂ := h₁.step (@Step.acquire _ 1 _ rfl)
  have h₃ := h₂.step (@Step.write _ 0 [.payloadOnly .pat .zero] _ rfl)
  have h₄ := h₃.step (@Step.publish _ _ 1 1 _ rfl rfl)
  exact h₄

theorem batch_eq_takeEach_turned : turned.Reachable ∧ turned.session.ring.stopped = false ∧
    0 < turned.session.ring.count ∧ ∃ (t : RingSession) (runs : List (List Packet)),
      RingSession.takeEach turned.session 2 =
        .ok (t, [some (.null, 1), some (.payloadOnly .pat .zero, 1)]) ∧
      turned.session.ring.takeInto (List.replicate 3 (.payloadOnly .pat .zero)) = .ok (t.ring,
        [.null, .payloadOnly .pat .zero, .payloadOnly .pat .zero], (2, 1), { writer := true }) ∧
      turned.session.ring.copyRuns 2 2 1 = .ok (runs, t.ring.readIndex) ∧ runs.length ≤ 2 := by
  have room : 0 < (List.replicate 3 (Packet.payloadOnly .pat .zero)).length := by decide
  obtain ⟨t, packets, runs, -, hread, heach, hinto, -, hcopy, -, htwo⟩ :=
    reachable_turned.batch_eq_takeEach rfl (by decide) room (m := 2) rfl
  obtain rfl : packets = [.null, .payloadOnly .pat .zero] := by
    cases hread
    rfl
  exact ⟨reachable_turned, rfl, by decide, t, runs, heach, hinto, hcopy, htwo⟩

end RingHistory

end TransportStream
