import TransportStream.Demux.Reassembly
import TransportStream.Proofs.Demux.Splitting
import TransportStream.Proofs.Packet.Content

namespace TransportStream

def Findings.map {α β : Type} (f : α → β) (found : Findings α) : Findings β where
  problems := found.problems
  pieces := found.pieces.map f

namespace Reassembly

variable (r : Reassembly)

def finished (tail : Bytes) : Findings Bytes :=
  match r.intake with
  | .idle => {}
  | .accumulating =>
    let split := Extraction.split (r.buffer ++ tail)
    if split.pending = [] then { pieces := split.pieces }
    else { problems := [.truncated], pieces := split.pieces }

def started (payload : Bytes) : Reassembly × Findings Bytes :=
  let pointer := (payload.headD 0).toNat
  let data := payload.drop 1
  if data.length < pointer then (r.abandon, {})
  else
    let found := r.finished (data.take pointer)
    let split := Extraction.split (data.drop pointer)
    (r.keep split.pending, { found with pieces := found.pieces ++ split.pieces })

def continued (payload : Bytes) : Reassembly × Findings Bytes :=
  match r.intake with
  | .idle => (r, {})
  | .accumulating =>
    let split := Extraction.split (r.buffer ++ payload)
    (r.keep split.pending, { pieces := split.pieces })

def absorbed (p : Packet) : Reassembly × Findings Bytes :=
  if p.isScrambled then (r.abandon, { problems := [.scrambled] })
  else
    match p.content with
    | none => (r, {})
    | some payload => if p.unitStart then r.started payload else r.continued payload

def next (p : Packet) : Reassembly × Findings Bytes :=
  let arrival := r.arrival p p.breakSignalled
  let accepted := r.accept p arrival
  match arrival with
  | .duplicate => (accepted, {})
  | .first | .afterBreak | .inSequence => accepted.absorbed p
  | .outOfSequence _ =>
    let (next, found) := accepted.absorbed p
    (next, { found with problems := .discontinuity :: found.problems })

variable {r} in
theorem finished_of_accumulating (h : r.intake = .accumulating) {tail data : Bytes}
    (hd : r.buffer ++ tail = data) :
    r.finished tail =
      if (Extraction.split data).pending = [] then { pieces := (Extraction.split data).pieces }
      else { problems := [.truncated], pieces := (Extraction.split data).pieces } := by
  subst hd
  unfold finished
  rw [h]

variable {r} in
theorem continued_of_accumulating (h : r.intake = .accumulating) {payload data : Bytes}
    (hd : r.buffer ++ payload = data) :
    r.continued payload =
      (r.keep (Extraction.split data).pending, { pieces := (Extraction.split data).pieces }) := by
  subst hd
  unfold continued
  rw [h]

theorem value_finish (rule : ChecksumRule) (tail : Bytes) :
    (r.finish rule tail).value = .ok ((r.finished tail).map (.ofPiece rule r.pid)) := by
  unfold finish finished
  cases r.intake with
  | idle => rfl
  | accumulating =>
    dsimp only
    rw [Traced.value_bind_of_ok (Extraction.value_ofBytes ..)]
    show (if (Extraction.split (r.buffer ++ tail)).pending = [] then _ else _ : Traced _).value = _
    split
    · rfl
    · rfl

theorem value_takeStart (rule : ChecksumRule) {payload : Bytes} (h : payload ≠ []) :
    (r.takeStart rule payload).value =
      .ok ((r.started payload).1, (r.started payload).2.map (.ofPiece rule r.pid)) := by
  obtain ⟨b, data, rfl⟩ := List.exists_cons_of_ne_nil h
  have hb : itemAt (b :: data) 0 = .ok b := rfl
  have hd : slice (b :: data) 1 (b :: data).length = .ok data :=
    slice_eq_ok_iff.2 ⟨⟨Nat.le_add_left 1 _, Nat.le_refl _⟩, by rw [List.take_length]; rfl⟩
  unfold takeStart started
  rw [Traced.value_liftM_bind_of_ok hb, Traced.value_liftM_bind_of_ok hd]
  have hdrop : (b :: data).drop 1 = data := rfl
  dsimp only [List.headD_cons]
  rw [hdrop]
  by_cases hp : data.length < b.toNat
  · rw [if_pos hp, if_pos hp]
    rfl
  · rw [if_neg hp, if_neg hp]
    have h₁ : slice data 0 b.toNat = .ok (data.take b.toNat) :=
      slice_eq_ok_iff.2 ⟨⟨Nat.zero_le _, Nat.not_lt.1 hp⟩, rfl⟩
    have h₂ : slice data b.toNat data.length = .ok (data.drop b.toNat) :=
      slice_eq_ok_iff.2 ⟨⟨Nat.not_lt.1 hp, Nat.le_refl _⟩, by rw [List.take_length]⟩
    rw [Traced.value_liftM_bind_of_ok h₁, Traced.value_bind_of_ok (r.value_finish rule _),
      Traced.value_liftM_bind_of_ok h₂, Traced.value_bind_of_ok (Extraction.value_ofBytes ..)]
    show _ = Except.ok (_, Findings.mk _ (List.map _ (_ ++ _)))
    rw [List.map_append]
    rfl

theorem value_takeMore (rule : ChecksumRule) (payload : Bytes) :
    (r.takeMore rule payload).value =
      .ok ((r.continued payload).1, (r.continued payload).2.map (.ofPiece rule r.pid)) := by
  unfold takeMore continued
  cases r.intake with
  | idle => rfl
  | accumulating => exact Traced.value_bind_of_ok (Extraction.value_ofBytes ..)

theorem value_takeContent (rule : ChecksumRule) (p : Packet) :
    (r.takeContent rule p).value =
      .ok ((r.absorbed p).1, (r.absorbed p).2.map (.ofPiece rule r.pid)) := by
  unfold takeContent absorbed
  split
  · rfl
  · rw [Traced.value_bind_of_ok p.value_payload]
    cases hc : p.content with
    | none => rfl
    | some payload =>
      cases p.unitStart with
      | true => exact value_takeStart r rule (p.content_ne_nil hc)
      | false => exact value_takeMore r rule payload

theorem value_report (p : Packet) (arrival : Arrival) : (r.report p arrival).value = .ok () := by
  cases arrival <;> rfl

theorem pid_accept (p : Packet) (arrival : Arrival) : (r.accept p arrival).pid = r.pid := by
  cases arrival <;> rfl

theorem value_feed (rule : ChecksumRule) (p : Packet) : (r.feed rule p).value =
    .ok ((r.next p).1, (r.next p).2.map (.ofPiece rule r.pid)) := by
  obtain ⟨field, hf⟩ := p.adaptationField_ok
  have hb : field.elim false (·.discontinuity) = p.breakSignalled := by
    rw [Packet.breakSignalled, hf]
  have htake := fun arrival ↦ (r.accept p arrival).value_takeContent rule p
  simp only [pid_accept] at htake
  unfold feed next
  rw [Traced.value_bind_of_ok hf, hb, Traced.value_bind_of_ok (r.value_report p _)]
  cases r.arrival p p.breakSignalled with
  | duplicate => rfl
  | first | afterBreak | inSequence => exact htake _
  | outOfSequence last => exact Traced.value_bind_of_ok (htake _)

def holding (pid : Pid) (last : Option ContinuityCounter) (data : Bytes) : Reassembly :=
  ({ pid, last } : Reassembly).keep data

theorem next_of_first {p : Packet} (h : r.last = none) :
    r.next p = { r with last := some p.counter, duplicateSeen := false }.absorbed p := by
  have ha : r.arrival p p.breakSignalled = .first := by rw [arrival, h]
  rw [next, ha]
  rfl

variable {r}

theorem next_of_inSequence {p : Packet} {last : ContinuityCounter} (h : r.last = some last)
    (hb : p.breakSignalled = false) (hl : p.layout.hasPayload = true)
    (hc : p.counter = last.next) :
    r.next p = { r with last := some p.counter, duplicateSeen := false }.absorbed p := by
  have ha : r.arrival p p.breakSignalled = .inSequence := by
    simp [arrival, h, hb, hl, ContinuityCounter.follows_iff.2 hc]
  rw [next, ha]
  rfl

theorem next_of_outOfSequence {p : Packet} {last : ContinuityCounter} (h : r.last = some last)
    (hb : p.breakSignalled = false) (hl : p.layout.hasPayload = true)
    (hc : p.counter ≠ last.next) (hd : p.counter ≠ last ∨ r.duplicateSeen = true)
    {s : Reassembly} {found : Findings Bytes}
    (habs : (holding r.pid (some p.counter) []).absorbed p = (s, found)) :
    r.next p = (s, { found with problems := .discontinuity :: found.problems }) := by
  have hf : p.counter.follows last = false := by
    rw [Bool.eq_false_iff]
    exact fun h ↦ hc (ContinuityCounter.follows_iff.1 h)
  have hn : p.counter = last → r.duplicateSeen = true := fun h ↦ hd.resolve_left (absurd h)
  have ha : r.arrival p p.breakSignalled = .outOfSequence last := by
    simpa [arrival, h, hb, hl, hf] using hn
  have hr : r.accept p (.outOfSequence last) = holding r.pid (some p.counter) [] := rfl
  rw [next, ha]
  dsimp only
  rw [hr, habs]

def run (r : Reassembly) : List Packet → Reassembly × Findings Bytes
  | [] => (r, {})
  | p :: rest =>
    let (r, found) := r.next p
    let (r, more) := r.run rest
    (r, ⟨found.problems ++ more.problems, found.pieces ++ more.pieces⟩)

theorem run_cons (p : Packet) (rest : List Packet) :
    r.run (p :: rest) =
      (((r.next p).1.run rest).1,
        ⟨(r.next p).2.problems ++ ((r.next p).1.run rest).2.problems,
          (r.next p).2.pieces ++ ((r.next p).1.run rest).2.pieces⟩) := rfl

def WellFormed (r : Reassembly) : Prop :=
  match r.intake with
  | .idle => r.buffer = []
  | .accumulating => Unfinished r.buffer

variable (r) in
theorem wellFormed_abandon : r.abandon.WellFormed := rfl

variable (r) in
theorem wellFormed_keep (data : Bytes) : (r.keep (Extraction.split data).pending).WellFormed := by
  unfold WellFormed keep
  by_cases h : (Extraction.split data).pending = []
  · simp only [h, if_true]
  · simp only [h, if_false]
    exact Extraction.unfinished_pending data h

theorem WellFormed.absorbed (h : r.WellFormed) (p : Packet) : (r.absorbed p).1.WellFormed := by
  unfold Reassembly.absorbed
  split
  · exact r.wellFormed_abandon
  · split
    · exact h
    · split
      · unfold started
        dsimp only
        split
        · exact r.wellFormed_abandon
        · exact r.wellFormed_keep _
      · unfold continued
        split
        · exact h
        · exact r.wellFormed_keep _

theorem WellFormed.accept (h : r.WellFormed) (p : Packet) (arrival : Arrival) :
    (r.accept p arrival).WellFormed := by
  cases arrival with
  | first | inSequence | duplicate => exact h
  | afterBreak | outOfSequence => exact wellFormed_abandon _

theorem WellFormed.next (h : r.WellFormed) (p : Packet) : (r.next p).1.WellFormed := by
  unfold Reassembly.next
  cases r.arrival p p.breakSignalled with
  | duplicate => exact h.accept p _
  | first | afterBreak | inSequence | outOfSequence => exact (h.accept p _).absorbed p

theorem absorbed_eq (p : Packet) : (r.absorbed p).1 =
    { r with intake := (r.absorbed p).1.intake, buffer := (r.absorbed p).1.buffer } := by
  unfold absorbed
  split
  · rfl
  · split
    · rfl
    · split
      · unfold started
        dsimp only
        split <;> rfl
      · unfold continued
        split <;> rfl

theorem pid_absorbed (p : Packet) : (r.absorbed p).1.pid = r.pid := by
  rw [absorbed_eq]

theorem last_absorbed (p : Packet) : (r.absorbed p).1.last = r.last := by
  rw [absorbed_eq]

theorem duplicateSeen_absorbed (p : Packet) :
    (r.absorbed p).1.duplicateSeen = r.duplicateSeen := by
  rw [absorbed_eq]

theorem pid_next (p : Packet) : (r.next p).1.pid = r.pid := by
  unfold next
  cases r.arrival p p.breakSignalled with
  | duplicate => rfl
  | first | afterBreak | inSequence | outOfSequence => exact pid_absorbed p

theorem problems_finished (tail : Bytes) :
    (r.finished tail).problems = [] ∨ (r.finished tail).problems = [.truncated] := by
  unfold finished
  split
  · exact .inl rfl
  · dsimp only
    split
    · exact .inl rfl
    · exact .inr rfl

theorem problems_absorbed (p : Packet) : (r.absorbed p).2.problems = [] ∨
    (r.absorbed p).2.problems = [.scrambled] ∨ (r.absorbed p).2.problems = [.truncated] := by
  unfold absorbed
  split
  · exact .inr (.inl rfl)
  · split
    · exact .inl rfl
    · split
      · unfold started
        dsimp only
        split
        · exact .inl rfl
        · exact (problems_finished _).imp_right .inr
      · unfold continued
        split
        · exact .inl rfl
        · exact .inl rfl

theorem WellFormed.length_buffer_le (h : r.WellFormed) : r.buffer.length ≤ Section.maxSize := by
  unfold WellFormed at h
  split at h
  · rw [h]
    exact Nat.zero_le _
  · exact Nat.le_of_lt h.length_lt_maxSize

theorem length_finished_le (tail : Bytes) :
    (r.finished tail).pieces.length ≤ r.buffer.length + tail.length ∧
      (r.finished tail).problems.length ≤ 1 := by
  have hs := Extraction.length_pieces_le (r.buffer ++ tail)
  rw [List.length_append] at hs
  unfold finished
  split
  · exact ⟨Nat.zero_le _, Nat.zero_le _⟩
  · dsimp only
    split
    · exact ⟨hs, Nat.zero_le _⟩
    · exact ⟨hs, Nat.le_refl _⟩

theorem length_absorbed_le (p : Packet) :
    (r.absorbed p).2.pieces.length ≤ r.buffer.length + Packet.size ∧
      (r.absorbed p).2.problems.length ≤ 1 := by
  unfold absorbed
  split
  · exact ⟨Nat.zero_le _, Nat.le_refl _⟩
  · split
    · exact ⟨Nat.zero_le _, Nat.zero_le _⟩
    · next payload hc =>
      have hl : payload.length ≤ Packet.size := by
        unfold Packet.content at hc
        split at hc
        · obtain rfl := Option.some.inj hc
          rw [List.length_drop, p.length_bytes]
          exact Nat.sub_le _ _
        · cases hc
      split
      · unfold started
        dsimp only
        split
        · exact ⟨Nat.zero_le _, Nat.zero_le _⟩
        · next hp =>
          obtain ⟨hf, hone⟩ :=
            r.length_finished_le ((payload.drop 1).take (payload.headD 0).toNat)
          have hs := Extraction.length_pieces_le ((payload.drop 1).drop (payload.headD 0).toNat)
          rw [List.length_drop, List.length_drop] at hs
          rw [List.length_take, List.length_drop] at hf
          rw [List.length_drop] at hp
          refine ⟨?_, hone⟩
          rw [List.length_append]
          omega
      · have hs := Extraction.length_pieces_le (r.buffer ++ payload)
        rw [List.length_append] at hs
        unfold continued
        split
        · exact ⟨Nat.zero_le _, Nat.zero_le _⟩
        · exact ⟨by dsimp only; omega, Nat.zero_le _⟩

theorem length_next_le (p : Packet) :
    (r.next p).2.pieces.length ≤ r.buffer.length + Packet.size ∧
      (r.next p).2.problems.length ≤ 2 := by
  have hbuffer : ∀ arrival, (r.accept p arrival).buffer.length ≤ r.buffer.length := by
    intro arrival
    cases arrival with
    | first | inSequence | duplicate => exact Nat.le_refl _
    | afterBreak | outOfSequence => exact Nat.zero_le _
  have habs : ∀ arrival, ((r.accept p arrival).absorbed p).2.pieces.length ≤
      r.buffer.length + Packet.size ∧ ((r.accept p arrival).absorbed p).2.problems.length ≤ 1 := by
    intro arrival
    have hb := hbuffer arrival
    obtain ⟨h₁, h₂⟩ := length_absorbed_le (r := r.accept p arrival) p
    exact ⟨by omega, h₂⟩
  unfold next
  cases r.arrival p p.breakSignalled with
  | duplicate => exact ⟨Nat.zero_le _, Nat.zero_le _⟩
  | first | afterBreak | inSequence =>
    exact ⟨(habs _).1, Nat.le_succ_of_le (habs _).2⟩
  | outOfSequence last => exact ⟨(habs _).1, Nat.succ_le_succ (habs _).2⟩

end Reassembly

end TransportStream
