import TransportStream.Proofs.Demux.Totality

namespace TransportStream

theorem Unfinished.length_pieces_append_le {buffer : Bytes} (h : Unfinished buffer) (data : Bytes) :
    (Extraction.split (buffer ++ data)).pieces.length ≤ data.length := by
  have hne : buffer ++ data ≠ [] := List.append_ne_nil_of_left_ne_nil h.ne_nil data
  have hhead : (buffer ++ data).head? ≠ some Extraction.stuffingMark := by
    rw [List.head?_append_of_ne_nil _ h.ne_nil]
    exact h.head?_ne
  have hlength : (buffer ++ data).length = buffer.length + data.length := List.length_append
  have hsize : CommonHeader.size ≤ declaredSize (buffer ++ data) := Nat.le_add_right _ _
  -- the section under way is longer than what the buffer has of it
  have hlong : CommonHeader.size ≤ buffer.length →
      buffer.length < declaredSize (buffer ++ data) ∧
        declaredSize (buffer ++ data) ≤ Section.maxSize := by
    intro hle
    rw [declaredSize, CommonHeader.read_append hle]
    exact h.length_lt.resolve_left (Nat.not_lt.2 hle)
  rw [Extraction.split, dif_neg hne, if_neg hhead]
  split
  · exact Nat.zero_le _
  · split
    · rw [List.length_singleton]
      omega
    · split
      · exact Nat.zero_le _
      · have hpieces := Extraction.length_pieces_le
          ((buffer ++ data).drop (declaredSize (buffer ++ data)))
        rw [List.length_drop] at hpieces
        simp only [List.length_cons]
        omega

theorem Status.not_full {s : Status} (h : ∀ q, s.get q + 1 < wordLimit) : ¬ s.Full := by
  rintro ⟨q, hq⟩
  exact Nat.not_le.2 (h q) hq

namespace Reassembly

variable {r : Reassembly}

theorem WellFormed.length_finished_le (h : r.WellFormed) (tail : Bytes) :
    (r.finished tail).pieces.length ≤ tail.length := by
  unfold WellFormed at h
  unfold finished
  split
  · exact Nat.zero_le _
  · next hi =>
    rw [hi] at h
    have hpieces := h.length_pieces_append_le tail
    dsimp only
    split <;> exact hpieces

theorem WellFormed.length_absorbed_le (h : r.WellFormed) (p : Packet) :
    (r.absorbed p).2.pieces.length ≤ Packet.size := by
  unfold Reassembly.absorbed
  split
  · exact Nat.zero_le _
  · split
    · exact Nat.zero_le _
    · next payload hc =>
      have hlength : payload.length ≤ Packet.size := by
        unfold Packet.content at hc
        split at hc
        · obtain rfl := Option.some.inj hc
          rw [List.length_drop, p.length_bytes]
          exact Nat.sub_le _ _
        · cases hc
      split
      · unfold started
        dsimp only
        split
        · exact Nat.zero_le _
        · have hfinished := h.length_finished_le ((payload.drop 1).take (payload.headD 0).toNat)
          have hrest := Extraction.length_pieces_le
            ((payload.drop 1).drop (payload.headD 0).toNat)
          have hsum := congrArg List.length
            (List.take_append_drop (payload.headD 0).toNat (payload.drop 1))
          rw [List.length_append, List.length_drop (i := 1)] at hsum
          rw [List.length_append]
          omega
      · unfold continued
        unfold WellFormed at h
        split
        · exact Nat.zero_le _
        · next hi =>
          rw [hi] at h
          exact Nat.le_trans (h.length_pieces_append_le payload) hlength

theorem WellFormed.length_pieces_next_le (h : r.WellFormed) (p : Packet) :
    (r.next p).2.pieces.length ≤ Packet.size := by
  unfold Reassembly.next
  cases r.arrival p p.breakSignalled with
  | duplicate => exact Nat.zero_le _
  | first | afterBreak | inSequence | outOfSequence =>
    exact (h.accept p _).length_absorbed_le p

end Reassembly

namespace Demux

variable {σ : Type} {d : Demux σ} {pid : Pid}

theorem Moment.Sound.raises_handlePieces {pieces : List Bytes}
    (h : Moment.Sound ⟨d, some (pid, pieces)⟩)
    (room : ∀ q, d.status.get q + pieces.length < wordLimit) :
    d.Raises pieces.length (d.handlePieces pid pieces).value := by
  induction pieces generalizing d with
  | nil => exact .of_eq d []
  | cons data rest ih =>
    simp only [List.length_cons] at room ⊢
    obtain ⟨e, first, he, hle⟩ := handlePiece_of_room (d := d) (ready_assemblyFor h.holds _)
      (Status.not_full fun q ↦ by have := room q; omega)
    have step : Step ⟨d, some (pid, data :: rest)⟩ _ ⟨e, some (pid, rest)⟩ := .handle he
    obtain ⟨f, more, hf, hfe⟩ := ih (h.step step) fun q ↦ by
      have h₁ := room q
      have h₂ := hle q
      omega
    have hall := handlePieces_cons_eq_ok_iff.2 ⟨e, first, more, he, hf, rfl⟩
    refine ⟨f, first ++ more, hall, fun q ↦ ?_⟩
    have h₁ := hle q
    have h₂ := hfe q
    omega

def rise : Nat := Packet.size + 1

theorem Reachable.raises_feed (h : d.Reachable) (hcount : d.packetCount + 1 < wordLimit)
    (room : ∀ q, d.status.get q + rise < wordLimit) (p : Packet) :
    d.Raises rise (d.feed p).value := by
  by_cases hp : d.hasPid p.pid = true
  · have hpieces : (d.findings p).pieces.length ≤ Packet.size :=
      (h.sound.substream p.pid).2.length_pieces_next_le p
    have hrise : rise = Packet.size + 1 := rfl
    obtain ⟨e, he, hle⟩ := exists_count_of_nodup (d := d.advanced p)
      (Reassembly.nodup_problems (r := (d.substream p.pid).reassembly) p)
      (Status.not_full fun q ↦ by
        have hq : (d.advanced p).status.get q + rise < wordLimit := room q
        omega)
    have step := Step.take hcount hp he
    obtain ⟨f, calls, hf, hfe⟩ := (h.moment.sound.step step).raises_handlePieces fun q ↦ by
      have h₁ := hle q
      have h₂ : (d.advanced p).status.get q + rise < wordLimit := room q
      omega
    refine ⟨f.settle, calls, h.sound.feed_eq_ok_iff.2 ⟨hcount, ?_⟩, fun q ↦ ?_⟩
    · rw [if_pos hp]
      exact ⟨e, f, he, hf, rfl⟩
    · have h₁ : e.status.get q ≤ d.status.get q + 1 := hle q
      have h₂ : f.settle.status.get q ≤ e.status.get q + (d.findings p).pieces.length := hfe q
      omega
  · refine ⟨{ d with packetCount := d.packetCount + 1 }, [],
      h.sound.feed_eq_ok_iff.2 ⟨hcount, ?_⟩, fun q ↦ Nat.le_add_right _ _⟩
    rw [if_neg hp]
    exact ⟨rfl, rfl⟩

theorem feedAll_append (d : Demux σ) (before after : List Packet) :
    d.feedAll (before ++ after) = d.feedAll before >>= fun (e, calls) ↦
      e.feedAll after >>= fun (f, more) ↦ pure (f, calls ++ more) := by
  induction before generalizing d with
  | nil =>
    rw [feedAll, pure_bind]
    exact (bind_pure _).symm
  | cons p before ih =>
    simp only [List.cons_append, feedAll, ih, bind_assoc, pure_bind, List.append_assoc]

theorem feedAll_append_eq_ok_iff {before after : List Packet} {e : Demux σ} {calls : List Call} :
    (d.feedAll (before ++ after)).value = .ok (e, calls) ↔ ∃ f first more,
      (d.feedAll before).value = .ok (f, first) ∧ (f.feedAll after).value = .ok (e, more) ∧
      first ++ more = calls := by
  rw [feedAll_append, Traced.value_bind_eq_ok_iff]
  constructor
  · rintro ⟨⟨f, first⟩, hf, h⟩
    obtain ⟨⟨g, more⟩, hg, h⟩ := Traced.value_bind_eq_ok_iff.1 h
    obtain ⟨rfl, rfl⟩ := Prod.mk.inj (Except.ok.inj h)
    exact ⟨f, first, more, hf, hg, rfl⟩
  · rintro ⟨f, first, more, hf, hg, rfl⟩
    exact ⟨(f, first), hf, Traced.value_bind_of_ok hg⟩

structure Holds (d : Demux σ) (n : Nat) : Prop where
  packetCount : d.packetCount + n < wordLimit
  status : ∀ q, d.status.get q + n * rise < wordLimit

theorem Reachable.exists_feedAll (h : d.Reachable) {packets : List Packet}
    (room : d.Holds packets.length) : ∃ e calls, (d.feedAll packets).value = .ok (e, calls) := by
  induction packets generalizing d with
  | nil => exact ⟨d, [], rfl⟩
  | cons p rest ih =>
    have hcount := room.packetCount
    have hstatus := room.status
    simp only [List.length_cons, Nat.succ_mul] at hcount hstatus
    obtain ⟨e, first, he, hle⟩ := h.raises_feed (by omega) (fun q ↦ by
      have := hstatus q
      omega) p
    have hnext := h.sound.packetCount_of_feed he
    obtain ⟨f, more, hf⟩ := ih (h.feed he) ⟨by omega, fun q ↦ by
      have h₁ := hstatus q
      have h₂ := hle q
      omega⟩
    exact ⟨f, first ++ more, feedAll_cons he hf⟩

end Demux

end TransportStream
