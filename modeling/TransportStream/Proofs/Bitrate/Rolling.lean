import TransportStream.Proofs.Bitrate.Stream

namespace TransportStream.BitrateEstimator

variable {e e' : BitrateEstimator} {packets more : List Packet} {window needed : Nat}

/-- An estimator that has been created for a window and has taken these packets since it was last
reset. -/
inductive Fed (window needed : Nat) : BitrateEstimator → List Packet → Prop
  | create {e : BitrateEstimator} (created : create window needed = .ok e) : Fed window needed e []
  | feed {e e' : BitrateEstimator} {packets : List Packet} {p : Packet}
      (h : Fed window needed e packets) (fed : (e.feed p).value = .ok e') :
      Fed window needed e' (packets ++ [p])
  | reset {e : BitrateEstimator} {packets : List Packet} (h : Fed window needed e packets) :
      Fed window needed e.reset []

theorem create_eq_ok_iff : create window needed = .ok e ↔
    0 < window ∧ needed ≤ window ∧ window ≤ maxWindow ∧
      e = { window, needed := max needed 1 } := by
  simp only [create, bind_eq_ok_iff, require_eq_ok_iff]
  constructor
  · rintro ⟨-, hpos, -, hle, -, hmax, h⟩
    exact ⟨hpos, hle, hmax, (Except.ok.inj h).symm⟩
  · rintro ⟨hpos, hle, hmax, rfl⟩
    exact ⟨(), hpos, (), hle, (), hmax, rfl⟩

theorem Fed.follows (h : Fed window needed e packets) : Follows window needed e packets := by
  induction h with
  | create created =>
    obtain ⟨hpos, -, -, rfl⟩ := create_eq_ok_iff.1 created
    exact follows_empty hpos
  | feed _ fed ih =>
    rw [ih.tallied.eq_of_feed fed]
    exact ih.next _
  | reset _ ih =>
    rw [ih.reset_eq]
    exact follows_empty (ih.window_eq ▸ ih.tallied.window_pos)

theorem Fed.feedAll (h : Fed window needed e packets) (fed : (e.feedAll more).value = .ok e') :
    Fed window needed e' (packets ++ more) := by
  induction more generalizing e packets with
  | nil =>
    cases fed
    rwa [List.append_nil]
  | cons p more ih =>
    obtain ⟨next, hnext, fed⟩ := Traced.value_bind_eq_ok_iff.1 fed
    rw [List.append_cons]
    exact ih (h.feed hnext) fed

theorem Follows.isValid_iff (h : Follows window needed e packets) :
    e.isValid = true ↔ max needed 1 ≤ min window (accepted packets).length := by
  rw [isValid, decide_eq_true_iff, h.needed_eq, h.intervals, length_rtake]

theorem Follows.isValid_of_feedAll (h : Follows window needed e packets)
    (valid : e.isValid = true) (fed : (e.feedAll more).value = .ok e') : e'.isValid = true := by
  have hlength := (isPrefix_accepted_append packets more).length_le
  rw [h.isValid_iff] at valid
  rw [(h.feedAll fed).isValid_iff]
  omega

theorem Follows.totalTicks_pos (h : Follows window needed e packets) (valid : e.isValid = true) :
    0 < e.totalTicks := by
  have hlength : 0 < e.intervals.length := by
    rw [isValid, decide_eq_true_iff, h.needed_eq] at valid
    omega
  obtain ⟨i, hi⟩ := List.exists_mem_of_length_pos hlength
  rw [h.tallied.ticks]
  exact Nat.lt_of_lt_of_le (h.tallied.bounded i hi).2.1 (le_tally (·.ticks) hi)

theorem Follows.bitrate_eq (h : Follows window needed e packets) : e.bitrate =
    if e.isValid then e.totalPackets * 188 * 8 * 27000000 / e.totalTicks % wordLimit else 0 := by
  unfold bitrate
  cases hvalid : e.isValid with
  | false => rw [if_pos (by simp), if_neg (by simp)]
  | true =>
    rw [if_neg (by simpa using (h.totalTicks_pos hvalid).ne'), if_pos rfl]
    rfl

/-- The window of an estimator, in every state that it can be in. -/
theorem Fed.window_rolls (h : Fed window needed e packets) :
    (e.intervals <:+ accepted packets ∧
      e.intervals.length = min window (accepted packets).length) ∧
    (e.totalPackets = tally (·.packets) e.intervals ∧
      e.totalTicks = tally (·.ticks) e.intervals) ∧
    (∀ i ∈ e.intervals, 1 ≤ i.ticks ∧ i.ticks ≤ 27000000) ∧
    ((∀ i ∈ e.intervals, i.packets ≤ e.totalPackets ∧ i.ticks ≤ e.totalTicks) ∧
      ∃ kept, e.evict = .ok kept) ∧
    (e.isValid = true → ∀ more e', (e.feedAll more).value = .ok e' → e'.isValid = true) ∧
    e.bitrate = if e.isValid then
      e.totalPackets * 188 * 8 * 27000000 / e.totalTicks % wordLimit else 0 := by
  have hfollows := h.follows
  have htallied := hfollows.tallied
  obtain ⟨kept, hevict, -⟩ := evict_eq htallied
  refine ⟨⟨?_, ?_⟩, ⟨htallied.packets, htallied.ticks⟩, ?_, ⟨?_, _, hevict⟩, ?_,
    hfollows.bitrate_eq⟩
  · rw [hfollows.intervals]
    exact List.drop_suffix _ _
  · rw [hfollows.intervals, length_rtake]
  · exact fun i hi ↦ (htallied.bounded i hi).2
  · intro i hi
    rw [htallied.packets, htallied.ticks]
    exact ⟨le_tally (·.packets) hi, le_tally (·.ticks) hi⟩
  · exact fun hvalid more e' ↦ hfollows.isValid_of_feedAll hvalid

def jumping : List Packet :=
  [0, 27000, 81000, 27081001, 27091001].map fun ticks ↦ .clockOnly .pat .zero (.ofTicks ticks)

theorem window_rolls_jumping : ∃ e, Fed 2 1 e jumping ∧
    accepted jumping = [⟨1, 27000⟩, ⟨1, 54000⟩, ⟨1, 10000⟩] ∧
    e.intervals = [⟨1, 54000⟩, ⟨1, 10000⟩] ∧ e.totalPackets = 2 ∧ e.totalTicks = 64000 ∧
    e.bitrate = 1269000 := by
  obtain ⟨e, fed⟩ : ∃ e, ({ window := 2, needed := 1 : BitrateEstimator }.feedAll jumping).value =
      .ok e := by
    have hok : ({ window := 2, needed := 1 : BitrateEstimator }.feedAll jumping).value.isOk := by
      decide +kernel
    cases h : ({ window := 2, needed := 1 : BitrateEstimator }.feedAll jumping).value with
    | ok e => exact ⟨e, rfl⟩
    | error _ => cases h ▸ hok
  have h : Fed 2 1 e jumping := (Fed.create rfl).feedAll fed
  have haccepted : accepted jumping = [⟨1, 27000⟩, ⟨1, 54000⟩, ⟨1, 10000⟩] := by decide +kernel
  obtain ⟨⟨hsuffix, hlength⟩, ⟨hpackets, hticks⟩, -, -, -, hbitrate⟩ := h.window_rolls
  have hintervals : e.intervals = [⟨1, 54000⟩, ⟨1, 10000⟩] := by
    rw [List.suffix_iff_eq_drop.1 hsuffix, hlength, haccepted]
    rfl
  rw [hintervals] at hpackets hticks
  have hvalid : e.isValid = true := by
    rw [h.follows.isValid_iff, haccepted]
    decide
  rw [if_pos hvalid, hpackets, hticks] at hbitrate
  exact ⟨e, h, haccepted, hintervals, hpackets, hticks, hbitrate⟩

end TransportStream.BitrateEstimator
