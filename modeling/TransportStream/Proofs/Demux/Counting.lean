import TransportStream.Proofs.Demux.Reachable
import TransportStream.Proofs.Overflow

namespace TransportStream

namespace Status

theorem countAll_cons (s : Status) (p : Problem) (rest : List Problem) :
    s.countAll (p :: rest) = s.count p >>= fun t ↦ t.countAll rest := rfl

theorem overflowsOnly_countAll (s : Status) (problems : List Problem) :
    OverflowsOnly (s.countAll problems) := by
  induction problems generalizing s with
  | nil => exact .ok s
  | cons p rest ih =>
    rw [countAll_cons]
    refine .bind ?_ fun t _ ↦ ih t
    exact .bind (.fit _ _) fun n _ ↦ .ok _

theorem get_of_countAll {s t : Status} {problems : List Problem}
    (h : s.countAll problems = .ok t) (q : Problem) : t.get q = s.get q + problems.count q := by
  induction problems generalizing s with
  | nil =>
    obtain rfl := Except.ok.inj h
    rfl
  | cons p rest ih =>
    rw [countAll_cons] at h
    obtain ⟨u, hu, h⟩ := bind_eq_ok_iff.1 h
    obtain ⟨-, rfl⟩ := count_eq_ok_iff.1 hu
    rw [ih h, get_set, List.count_cons]
    by_cases hq : q = p
    · rw [if_pos hq, hq, beq_self_eq_true, if_pos rfl]
      omega
    · have hb : (p == q) = false := beq_eq_false_iff_ne.2 (Ne.symm hq)
      rw [if_neg hq, hb]
      rfl

theorem countAll_ok {s : Status} {problems : List Problem}
    (h : ∀ q, s.get q + problems.length < wordLimit) : ∃ t, s.countAll problems = .ok t := by
  induction problems generalizing s with
  | nil => exact ⟨s, rfl⟩
  | cons p rest ih =>
    have hp : s.count p = .ok (s.set (s.get p + 1) p) := by
      have hlt := h p
      rw [List.length_cons] at hlt
      exact count_eq_ok_iff.2 ⟨by omega, rfl⟩
    have hroom : ∀ q, (s.set (s.get p + 1) p).get q + rest.length < wordLimit := by
      intro q
      have hlt := h q
      rw [List.length_cons] at hlt
      rw [get_set]
      split
      · next hq =>
        rw [hq] at hlt
        omega
      · omega
    obtain ⟨t, ht⟩ := ih hroom
    refine ⟨t, ?_⟩
    rw [countAll_cons, hp]
    exact ht

theorem countAll_of_discontinuities {s : Status} {problems : List Problem}
    (hp : ∀ q ∈ problems, q = .discontinuity)
    (hlt : s.discontinuities + problems.length < wordLimit) :
    s.countAll problems =
      .ok { s with discontinuities := s.discontinuities + problems.length } := by
  induction problems generalizing s with
  | nil => rfl
  | cons q rest ih =>
    obtain rfl := hp q (List.mem_cons_self ..)
    rw [List.length_cons] at hlt
    have hc : s.count .discontinuity =
        .ok { s with discontinuities := s.discontinuities + 1 } :=
      count_eq_ok_iff.2 ⟨by simp only [get]; omega, rfl⟩
    rw [countAll_cons, hc]
    show countAll _ rest = _
    rw [ih (fun q hq ↦ hp q (List.mem_cons_of_mem _ hq)) (by simp only; omega), List.length_cons]
    simp only [Nat.add_assoc, Nat.add_comm 1]

end Status

namespace Demux

variable {σ : Type} {d d' : Demux σ} {p : Packet} {calls : List Call} {handle : Handler σ Section}

theorem overflowsOnly_count (problems : List Problem) : OverflowsOnly (d.count problems) :=
  .bind (d.status.overflowsOnly_countAll problems) fun _ _ ↦ .ok _

theorem overflowsOnly_call {α : Type} (pid : Pid) (f : Handler σ α) (item : α) (c : Call) :
    OverflowsOnly (d.call pid f item c).value := by
  rw [value_call]
  exact .ok _

theorem overflowsOnly_of_deliver {pid : Pid} {data : Bytes}
    (h : (Section.ofBytes d.options.checksums data pid).defect = none →
      OverflowsOnly (d.deliver pid (.ofBytes d.options.checksums data pid)).value) :
    OverflowsOnly (d.handlePiece pid data).value := by
  rw [handlePiece_eq]
  split
  · next valid =>
    unfold handleValid
    split
    · exact h valid
    · split
      · rw [Traced.value_bind, Traced.value_liftM]
        exact .bind (overflowsOnly_count _) fun e _ ↦ .ok _
      · exact .ok _
  · unfold handleInvalid
    rw [Traced.value_bind, Traced.value_note]
    refine .bind (.ok ()) fun _ _ ↦ ?_
    rw [Traced.value_bind, Traced.value_liftM]
    refine .bind (overflowsOnly_count _) fun e _ ↦ ?_
    split
    · exact .ok _
    · exact overflowsOnly_call _ _ _ _

theorem overflowsOnly_handlePiece (pid : Pid) (hd : d.delivery = some (.sections handle))
    (data : Bytes) : OverflowsOnly (d.handlePiece pid data).value := by
  refine overflowsOnly_of_deliver fun _ ↦ ?_
  rw [deliver, hd]
  exact overflowsOnly_call _ _ _ _

theorem overflowsOnly_handlePieces (pid : Pid) (pieces : List Bytes)
    (hd : d.delivery = some (.sections handle)) :
    OverflowsOnly (d.handlePieces pid pieces).value := by
  induction pieces generalizing d with
  | nil => exact .ok _
  | cons data rest ih =>
    rw [value_handlePieces_cons]
    refine .bind (overflowsOnly_handlePiece pid hd data) ?_
    rintro ⟨e, first⟩ he
    exact .bind (ih ((pass_of_handlePiece he).keeps.delivery.trans hd)) fun _ _ ↦ .ok _

theorem Sound.overflowsOnly_feed (h : d.Sound) (hd : d.delivery = some (.sections handle))
    (p : Packet) : OverflowsOnly (d.feed p).value := by
  rw [h.value_feed]
  refine .bind (.fit _ _) fun _ _ ↦ ?_
  split
  · refine .bind (overflowsOnly_count _) fun e he ↦ ?_
    have hk := keeps_count he
    exact .bind (overflowsOnly_handlePieces _ _ (hk.delivery.trans hd)) fun _ _ ↦ .ok _
  · exact .ok _

def Raises (d : Demux σ) (n : Nat) (x : Except Fault (Demux σ × List Call)) : Prop :=
  ∃ d' calls, x = .ok (d', calls) ∧ ∀ q, d'.status.get q ≤ d.status.get q + n

theorem exists_count (problems : List Problem)
    (h : ∀ q, d.status.get q + problems.length < wordLimit) :
    ∃ e, d.count problems = .ok e ∧ ∀ q, e.status.get q ≤ d.status.get q + problems.length := by
  obtain ⟨t, ht⟩ := Status.countAll_ok h
  refine ⟨d.withStatus t, count_eq_ok_iff.2 ⟨t, ht, rfl⟩, fun q ↦ ?_⟩
  have hq : t.get q = d.status.get q + problems.count q := Status.get_of_countAll ht q
  have hle := problems.count_le_length (a := q)
  show t.get q ≤ _
  omega

theorem raises_call {α : Type} (pid : Pid) (f : Handler σ α) (item : α) (c : Call) (n : Nat) :
    d.Raises n (d.call pid f item c).value :=
  ⟨_, _, value_call .., fun _ ↦ Nat.le_add_right _ _⟩

theorem raises_handlePiece (pid : Pid) (hd : d.delivery = some (.sections handle))
    (h : ∀ q, d.status.get q + 1 < wordLimit) (data : Bytes) :
    d.Raises 1 (d.handlePiece pid data).value := by
  rw [handlePiece_eq]
  split
  · unfold handleValid
    split
    · rw [deliver, hd]
      exact raises_call _ _ _ _ _
    · split
      · obtain ⟨e, he, hle⟩ := exists_count (d := d) [.notYetCurrent] h
        rw [Traced.value_liftM_bind_of_ok he]
        exact ⟨e, [], rfl, hle⟩
      · exact ⟨d, [], rfl, fun _ ↦ Nat.le_add_right _ _⟩
  · next defect _ =>
    obtain ⟨e, he, hle⟩ := exists_count (d := d) [.ofDefect defect] h
    unfold handleInvalid
    rw [Traced.value_bind_of_ok (Traced.value_note _), Traced.value_liftM_bind_of_ok he]
    split
    · exact ⟨e, [], rfl, hle⟩
    · obtain ⟨f, calls, hf, hfe⟩ := raises_call (d := e) pid _ _ _ 0
      exact ⟨f, calls, hf, fun q ↦ Nat.le_trans (hfe q) (hle q)⟩

theorem raises_handlePieces (pid : Pid) (pieces : List Bytes)
    (hd : d.delivery = some (.sections handle))
    (h : ∀ q, d.status.get q + pieces.length < wordLimit) :
    d.Raises pieces.length (d.handlePieces pid pieces).value := by
  induction pieces generalizing d with
  | nil => exact ⟨d, [], rfl, fun _ ↦ Nat.le_refl _⟩
  | cons data rest ih =>
    rw [List.length_cons] at h ⊢
    obtain ⟨e, first, he, hle⟩ := raises_handlePiece pid hd
      (fun q ↦ by have := h q; omega) data
    have hk := (pass_of_handlePiece he).keeps
    obtain ⟨f, more, hf, hfe⟩ := ih (hk.delivery.trans hd) fun q ↦ by
      have h₁ := h q
      have h₂ := hle q
      omega
    have hall := handlePieces_cons_eq_ok_iff.2 ⟨e, first, more, he, hf, rfl⟩
    refine ⟨f, first ++ more, hall, fun q ↦ ?_⟩
    have h₁ := hle q
    have h₂ := hfe q
    omega

def maxRise : Nat := Section.maxSize + Packet.size + 2

structure HasRoom (d : Demux σ) (n : Nat) : Prop where
  packetCount : d.packetCount + n < wordLimit
  status : ∀ problem, d.status.get problem + n * maxRise < wordLimit

theorem raises_feed (hs : d.Sound) (hd : d.delivery = some (.sections handle)) (h : d.HasRoom 1)
    (p : Packet) : d.Raises maxRise (d.feed p).value := by
  have hroom := h.status
  rw [Nat.one_mul] at hroom
  by_cases hp : d.hasPid p.pid = true
  · obtain ⟨hpieces, hproblems⟩ := Reassembly.length_next_le (r := (d.substream p.pid).reassembly) p
    have hbuffer := (hs.substream p.pid).2.length_buffer_le
    have hsum : (d.findings p).problems.length + (d.findings p).pieces.length ≤ maxRise := by
      simp only [findings, maxRise]
      omega
    obtain ⟨e, he, hle⟩ := exists_count (d := d.advanced p) (d.findings p).problems
      fun q ↦ by
        have hq : (d.advanced p).status.get q + maxRise < wordLimit := hroom q
        omega
    have hk := keeps_count he
    obtain ⟨f, calls, hf, hfe⟩ := raises_handlePieces p.pid (d.findings p).pieces
      (hk.delivery.trans hd) fun q ↦ by
        have h₁ := hle q
        have h₂ : (d.advanced p).status.get q + maxRise < wordLimit := hroom q
        omega
    refine ⟨f.settle, calls, hs.feed_eq_ok_iff.2 ⟨h.packetCount, ?_⟩, fun q ↦ ?_⟩
    · rw [if_pos hp]
      exact ⟨e, f, he, hf, rfl⟩
    · have h₁ : e.status.get q ≤ d.status.get q + _ := hle q
      have h₂ : f.settle.status.get q ≤ _ := hfe q
      omega
  · refine ⟨{ d with packetCount := d.packetCount + 1 }, [],
      hs.feed_eq_ok_iff.2 ⟨h.packetCount, ?_⟩, fun q ↦ Nat.le_add_right _ _⟩
    rw [if_neg hp]
    exact ⟨rfl, rfl⟩

theorem Sound.packetCount_of_feed (h : d.Sound) (fed : (d.feed p).value = .ok (d', calls)) :
    d'.packetCount = d.packetCount + 1 := by
  obtain ⟨-, hfed⟩ := h.feed_eq_ok_iff.1 fed
  split at hfed
  · obtain ⟨e, f, he, hf, rfl⟩ := hfed
    exact ((keeps_count he).trans (pass_of_handlePieces hf).keeps).packetCount
  · obtain ⟨rfl, -⟩ := hfed
    rfl

end Demux

end TransportStream
