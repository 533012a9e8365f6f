import TransportStream.Proofs.Demux.Counting

namespace TransportStream

def DemuxOptions.Passes (o : DemuxOptions) (pid : Pid) (data : Bytes) : Prop :=
  Section.diagnose o.checksums data = none ∧ o.selects (.ofBytes o.checksums data pid) = true

def DemuxOptions.callWith (o : DemuxOptions) (pid : Pid) (data : Bytes) : Call :=
  .sect (.ofBytes o.checksums data pid)

namespace Demux

variable {σ : Type} {d d' : Demux σ} {pid : Pid} {p : Packet} {calls : List Call}
  {handle : Handler σ Section}

theorem handlePieces_of_passes (pid : Pid) {pieces : List Bytes}
    (hd : d.delivery = some (.sections handle))
    (hp : ∀ data ∈ pieces, d.options.Passes pid data) :
    ∃ f, (d.handlePieces pid pieces).value = .ok (f, pieces.map (d.options.callWith pid)) ∧
      f.status = d.status := by
  induction pieces generalizing d with
  | nil => exact ⟨d, rfl, rfl⟩
  | cons data rest ih =>
    obtain ⟨hdef, hsel⟩ := hp data (List.mem_cons_self ..)
    have hpiece : (d.handlePiece pid data).value =
        .ok (d.answered (handle d.handlerState d.view (.ofBytes d.options.checksums data pid)),
          [d.options.callWith pid data]) := by
      have hnone : (Section.ofBytes d.options.checksums data pid).defect = none := hdef
      rw [handlePiece_eq, hnone]
      dsimp only
      rw [handleValid, if_pos hsel, deliver, hd]
      exact value_call ..
    obtain ⟨f, hf, hs⟩ := ih (d := d.answered
      (handle d.handlerState d.view (.ofBytes d.options.checksums data pid))) hd
      fun data hm ↦ hp data (List.mem_cons_of_mem _ hm)
    exact ⟨f, handlePieces_cons_eq_ok_iff.2 ⟨_, _, _, hpiece, hf, rfl⟩, hs⟩

structure Ready (d : Demux σ) (pid : Pid) (handle : Handler σ Section) : Prop where
  sound : d.Sound
  delivery : d.delivery = some (.sections handle)
  hasPid : d.hasPid pid = true
  spares : d.Spares pid

theorem contains_foldl_apply {changes : List FilterChange} {filter : PidSet}
    (h : filter.contains pid = true) (hr : .remove pid ∉ changes) :
    (changes.foldl FilterChange.apply filter).contains pid = true := by
  induction changes generalizing filter with
  | nil => exact h
  | cons c rest ih =>
    rw [List.mem_cons, not_or] at hr
    refine ih ?_ hr.2
    rw [DemuxView.contains_apply]
    cases c with
    | add q =>
      rw [FilterChange.decides?]
      split
      · rfl
      · exact h
    | remove q =>
      rw [FilterChange.decides?, if_neg (fun hq ↦ hr.1 (by rw [hq]))]
      exact h

theorem Ready.pass_of_feed (h : d.Ready pid handle) (fed : (d.feed p).value = .ok (d', calls))
    (hp : d.hasPid p.pid = true) :
    ∃ e f, (d.advanced p).count (d.findings p).problems = .ok e ∧
      (e.handlePieces p.pid (d.findings p).pieces).value = .ok (f, calls) ∧ f.settle = d' ∧
      Keeps (d.advanced p) f ∧ .remove pid ∉ f.view.requests := by
  obtain ⟨-, hf⟩ := h.sound.feed_eq_ok_iff.1 fed
  rw [if_pos hp] at hf
  obtain ⟨e, f, he, hpieces, hd⟩ := hf
  have hpass := pass_of_handlePieces hpieces
  have hse : e.Spares pid := Spares.of_keeps (d := d.advanced p) h.spares (keeps_count he)
  have hre : .remove pid ∉ e.view.requests := by
    obtain ⟨status, -, rfl⟩ := count_eq_ok_iff.1 he
    have hr : (d.advanced p).view.requests = [] := h.sound.requests
    rw [withStatus]
    simp [hr]
  exact ⟨e, f, he, hpieces, hd, (keeps_count he).trans hpass.keeps, hpass.not_removed hse hre⟩

theorem Sound.eq_of_feed (h : d.Sound) (fed : (d.feed p).value = .ok (d', calls))
    (hp : d.hasPid p.pid = false) :
    { d with packetCount := d.packetCount + 1 } = d' ∧ calls = [] := by
  obtain ⟨-, hf⟩ := h.feed_eq_ok_iff.1 fed
  rwa [if_neg (by rw [hp]; decide)] at hf

theorem Ready.feed (h : d.Ready pid handle) (fed : (d.feed p).value = .ok (d', calls)) :
    d'.Ready pid handle ∧ d'.options = d.options := by
  have hs := h.sound.feed fed
  cases hp : d.hasPid p.pid with
  | false =>
    obtain ⟨rfl, -⟩ := h.sound.eq_of_feed fed hp
    exact ⟨⟨hs, h.delivery, h.hasPid, h.spares⟩, rfl⟩
  | true =>
    obtain ⟨e, f, -, -, rfl, hk, hr⟩ := h.pass_of_feed fed hp
    have hspares : f.Spares pid := Spares.of_keeps (d := d.advanced p) h.spares hk
    have hfilter : f.view.filter = d.view.filter := hk.filter
    have hpid : d.view.filter.contains pid = true := h.hasPid
    rw [← hfilter] at hpid
    exact ⟨⟨hs, hk.delivery.trans h.delivery, contains_foldl_apply hpid hr, hspares⟩, hk.options⟩

theorem Ready.reassembly_of_feed (h : d.Ready pid handle)
    (fed : (d.feed p).value = .ok (d', calls)) :
    (d'.substreams.get? pid).map (·.reassembly) =
      if p.pid = pid then some ((d.substream pid).reassembly.next p).1
      else (d.substreams.get? pid).map (·.reassembly) := by
  cases hp : d.hasPid p.pid with
  | false =>
    obtain ⟨rfl, -⟩ := h.sound.eq_of_feed fed hp
    rw [if_neg]
    rintro rfl
    rw [h.hasPid] at hp
    cases hp
  | true =>
    obtain ⟨e, f, -, -, rfl, hk, hr⟩ := h.pass_of_feed fed hp
    have hget : f.settle.substreams.get? pid = f.substreams.get? pid := by
      rw [settle, FiniteMap.get?_filterKeys, if_pos]
      rw [Bool.not_eq_true', List.any_eq_false]
      intro c hc hrem
      exact hr (of_decide_eq_true hrem ▸ hc)
    rw [hget, hk.reassembly, advanced, FiniteMap.get?_insert]
    by_cases hpid : pid = p.pid
    · rw [if_pos hpid, if_pos hpid.symm, hpid]
      rfl
    · rw [if_neg hpid, if_neg (Ne.symm hpid)]

theorem Ready.filter_calls_of_feed (h : d.Ready pid handle)
    (fed : (d.feed p).value = .ok (d', calls)) (hp : p.pid ≠ pid) :
    calls.filter (·.isOn pid) = [] := by
  refine List.filter_eq_nil_iff.2 fun c hc hon ↦ ?_
  cases hf : d.hasPid p.pid with
  | false =>
    obtain ⟨-, rfl⟩ := h.sound.eq_of_feed fed hf
    cases hc
  | true =>
    obtain ⟨e, f, he, hpieces, -⟩ := h.pass_of_feed fed hf
    have hd := (keeps_count he).delivery.trans h.delivery
    exact hp (Call.eq_of_isOn ((pass_of_handlePieces hpieces).isOn hd c hc) hon)

theorem Ready.feed_of_passes (h : d.Ready pid handle) (hp : p.pid = pid)
    (hpass : ∀ data ∈ (d.findings p).pieces, d.options.Passes pid data)
    (hcount : d.packetCount + 1 < wordLimit) {status : Status}
    (hstatus : d.status.countAll (d.findings p).problems = .ok status) :
    ∃ d', (d.feed p).value =
        .ok (d', (d.findings p).pieces.map (d.options.callWith pid)) ∧
      d'.packetCount = d.packetCount + 1 ∧ d'.status = status := by
  subst hp
  have he : (d.advanced p).count (d.findings p).problems = .ok ((d.advanced p).withStatus status) :=
    count_eq_ok_iff.2 ⟨status, hstatus, rfl⟩
  obtain ⟨f, hf, hs⟩ := handlePieces_of_passes (d := (d.advanced p).withStatus status) p.pid
    h.delivery hpass
  have hk := (keeps_count he).trans (pass_of_handlePieces hf).keeps
  refine ⟨f.settle, h.sound.feed_eq_ok_iff.2 ⟨hcount, ?_⟩, hk.packetCount, hs⟩
  rw [if_pos h.hasPid]
  exact ⟨_, f, he, hf, rfl⟩

/-- How much the packets of a substream raise the count of a problem, among the packets of a
stream. -/
def countedOn (pid : Pid) (problem : Problem) (d : Demux σ) : List Packet → Nat
  | [] => 0
  | p :: rest =>
    match (d.feed p).value with
    | .ok (d', _) =>
      (if p.pid = pid then d'.status.get problem - d.status.get problem else 0) +
        countedOn pid problem d' rest
    | .error _ => 0

theorem feedAll_cons {e f : Demux σ} {more : List Call} {rest : List Packet}
    (h : (d.feed p).value = .ok (e, calls)) (h' : (e.feedAll rest).value = .ok (f, more)) :
    (d.feedAll (p :: rest)).value = .ok (f, calls ++ more) :=
  feedAll_cons_eq_ok_iff.2 ⟨e, calls, more, h, h', rfl⟩

theorem Ready.overflowsOnly_feedAll (h : d.Ready pid handle) (packets : List Packet) :
    OverflowsOnly (d.feedAll packets).value := by
  induction packets generalizing d with
  | nil => exact .ok _
  | cons p rest ih =>
    rw [Demux.feedAll, Traced.value_bind]
    refine .bind (h.sound.overflowsOnly_feed h.delivery p) ?_
    rintro ⟨e, first⟩ he
    rw [Traced.value_bind]
    exact .bind (ih (h.feed he).1) fun _ _ ↦ .ok _

theorem Ready.exists_feedAll {packets : List Packet} (h : d.Ready pid handle)
    (hr : d.HasRoom packets.length) : ∃ d' calls, (d.feedAll packets).value = .ok (d', calls) := by
  induction packets generalizing d with
  | nil => exact ⟨d, [], rfl⟩
  | cons p rest ih =>
    rw [List.length_cons] at hr
    have hp := hr.packetCount
    have hone : d.HasRoom 1 := by
      refine ⟨by omega, fun q ↦ ?_⟩
      have hq := hr.status q
      rw [Nat.succ_mul] at hq
      omega
    obtain ⟨e, first, he, hle⟩ := raises_feed h.sound h.delivery hone p
    have hrest : e.HasRoom rest.length := by
      refine ⟨by rw [h.sound.packetCount_of_feed he]; omega, fun q ↦ ?_⟩
      have hq := hr.status q
      have hl := hle q
      rw [Nat.succ_mul] at hq
      omega
    obtain ⟨f, more, hf⟩ := ih (h.feed he).1 hrest
    exact ⟨f, first ++ more, feedAll_cons he hf⟩

theorem Ready.overflow_or_exists_feedAll (h : d.Ready pid handle) (packets : List Packet) :
    (d.feedAll packets).value = .error .overflow ∧ ¬ d.HasRoom packets.length ∨
      ∃ d' calls, (d.feedAll packets).value = .ok (d', calls) := by
  cases hfed : (d.feedAll packets).value with
  | error fault =>
    obtain rfl := h.overflowsOnly_feedAll packets fault hfed
    refine .inl ⟨rfl, fun room ↦ ?_⟩
    obtain ⟨d', calls, hok⟩ := h.exists_feedAll room
    rw [hok] at hfed
    cases hfed
  | ok result => exact .inr ⟨result.1, result.2, rfl⟩

theorem Sound.packetCount_add_length_lt {packets : List Packet} (h : d.Sound)
    (hne : packets ≠ [])
    (fed : (d.feedAll packets).value = .ok (d', calls)) :
    d.packetCount + packets.length < wordLimit := by
  induction packets generalizing d calls with
  | nil => exact absurd rfl hne
  | cons p rest ih =>
    obtain ⟨e, first, more, he, hf, rfl⟩ := feedAll_cons_eq_ok_iff.1 fed
    have hlt := (h.feed_eq_ok_iff.1 he).1
    cases rest with
    | nil => exact hlt
    | cons q rest =>
      have hr := ih (h.feed he) (List.cons_ne_nil q rest) hf
      rw [h.packetCount_of_feed he] at hr
      rw [List.length_cons]
      omega

/-- What a stream leads to, if `outcome` is what reassembly does with the packets of one substream
in it. -/
structure Yields (d : Demux σ) (pid : Pid) (packets : List Packet) (d' : Demux σ)
    (calls : List Call) (outcome : Reassembly × Findings Bytes) : Prop where
  calls : calls.filter (·.isOn pid) = outcome.2.pieces.map (d.options.callWith pid)
  reassembly : (d'.substream pid).reassembly = outcome.1
  known : (d.substreams.get? pid).isSome ∨ packets.filter (·.pid = pid) ≠ [] →
    (d'.substreams.get? pid).isSome
  counted : ∀ problem, d.countedOn pid problem packets = outcome.2.problems.count problem

theorem countedOn_cons {e : Demux σ} (he : (d.feed p).value = .ok (e, calls)) (problem : Problem)
    (rest : List Packet) :
    d.countedOn pid problem (p :: rest) =
      (if p.pid = pid then e.status.get problem - d.status.get problem else 0) +
        e.countedOn pid problem rest := by
  rw [countedOn, he]

theorem filter_callWith (o : DemuxOptions) (pieces : List Bytes) :
    (pieces.map (o.callWith pid)).filter (·.isOn pid) = pieces.map (o.callWith pid) := by
  refine List.filter_eq_self.2 fun c hc ↦ ?_
  obtain ⟨data, -, rfl⟩ := List.mem_map.1 hc
  exact beq_self_eq_true pid

/-- The packets of a substream do what reassembly does with them, whatever comes in between. -/
theorem Ready.feedAll {packets : List Packet} (h : d.Ready pid handle)
    (fed : (d.feedAll packets).value = .ok (d', calls))
    (hpass : ∀ data ∈ ((d.substream pid).reassembly.run
      (packets.filter (·.pid = pid))).2.pieces, d.options.Passes pid data) :
    d.Yields pid packets d' calls
      ((d.substream pid).reassembly.run (packets.filter (·.pid = pid))) := by
  -- A packet of another substream leaves the reassembly of this one as it is, so the run is that
  -- of the filtered packets.
  induction packets generalizing d calls with
  | nil =>
    obtain ⟨rfl, rfl⟩ := Prod.mk.inj (Except.ok.inj fed)
    exact ⟨rfl, rfl, fun h ↦ h.resolve_right (fun h ↦ h rfl), fun _ ↦ rfl⟩
  | cons p rest ih =>
    obtain ⟨e, first, more, he, hf, rfl⟩ := feedAll_cons_eq_ok_iff.1 fed
    obtain ⟨hready, hopt⟩ := h.feed he
    have hr := h.reassembly_of_feed he
    by_cases hp : p.pid = pid
    · rw [if_pos hp] at hr
      have hnext : (e.substream pid).reassembly = ((d.substream pid).reassembly.next p).1 := by
        rw [reassembly_substream, hr]
        rfl
      have hfound : d.findings p = ((d.substream pid).reassembly.next p).2 := by
        rw [findings, hp]
      rw [List.filter_cons_of_pos (by simpa using hp), Reassembly.run_cons] at hpass ⊢
      rw [← hnext, ← hfound] at hpass ⊢
      obtain ⟨hcount, hcounted⟩ := h.sound.feed_eq_ok_iff.1 he
      rw [if_pos (by rw [hp]; exact h.hasPid)] at hcounted
      obtain ⟨g, -, hg, -, -⟩ := hcounted
      obtain ⟨status, (hstatus : d.status.countAll _ = .ok status), -⟩ := count_eq_ok_iff.1 hg
      obtain ⟨e', he', -, hs⟩ := h.feed_of_passes hp
        (fun data hm ↦ hpass data (List.mem_append_left _ hm)) hcount hstatus
      obtain ⟨rfl, rfl⟩ := Prod.mk.inj (Except.ok.inj (he.symm.trans he'))
      have hy := ih hready hf fun data hm ↦ by
        rw [hopt]
        exact hpass data (List.mem_append_right _ hm)
      refine ⟨?_, hy.reassembly, fun _ ↦ ?_, fun problem ↦ ?_⟩
      · rw [List.filter_append, filter_callWith, hy.calls, hopt, List.map_append]
      · refine hy.known (.inl ?_)
        obtain ⟨sub, hsub, -⟩ := Option.map_eq_some_iff.1 hr
        rw [hsub]
        rfl
      · rw [countedOn_cons he, if_pos hp, hy.counted, hs, Status.get_of_countAll hstatus,
          Nat.add_sub_cancel_left, List.count_append]
    · rw [if_neg hp] at hr
      have hsame : (e.substream pid).reassembly = (d.substream pid).reassembly := by
        rw [reassembly_substream, hr, ← reassembly_substream]
      rw [List.filter_cons_of_neg (by simpa using hp), ← hsame] at hpass ⊢
      have hy := ih hready hf (by rwa [hopt])
      refine ⟨?_, hy.reassembly, fun hk ↦ hy.known ?_, fun problem ↦ ?_⟩
      · rw [List.filter_append, h.filter_calls_of_feed he hp, List.nil_append, hy.calls, hopt]
      · have hmap := congrArg Option.isSome hr
        rw [Option.isSome_map, Option.isSome_map] at hmap
        rwa [List.filter_cons_of_neg (by simpa using hp), ← hmap] at hk
      · rw [countedOn_cons he, if_neg hp, Nat.zero_add, hy.counted]

theorem Ready.feedAll_of_passes {packets : List Packet} (h : d.Ready pid handle)
    (hp : ∀ p ∈ packets, p.pid = pid)
    (hpass : ∀ data ∈ ((d.substream pid).reassembly.run packets).2.pieces,
      d.options.Passes pid data)
    (hproblems : ∀ q ∈ ((d.substream pid).reassembly.run packets).2.problems, q = .discontinuity)
    (hlt : d.status.discontinuities +
      ((d.substream pid).reassembly.run packets).2.problems.length < wordLimit)
    (hcount : d.packetCount + packets.length < wordLimit) :
    ∃ d', (d.feedAll packets).value = .ok (d',
        ((d.substream pid).reassembly.run packets).2.pieces.map (d.options.callWith pid)) ∧
      d'.status = { d.status with
        discontinuities := d.status.discontinuities +
          ((d.substream pid).reassembly.run packets).2.problems.length } := by
  induction packets generalizing d with
  | nil => exact ⟨d, rfl, rfl⟩
  | cons p rest ih =>
    have hpid := hp p (List.mem_cons_self ..)
    have hfound : d.findings p = ((d.substream pid).reassembly.next p).2 := by
      rw [findings, hpid]
    rw [Reassembly.run_cons, ← hfound] at hpass hproblems hlt ⊢
    rw [List.length_append] at hlt
    rw [List.length_cons] at hcount
    obtain ⟨e, he, hec, hes⟩ := h.feed_of_passes hpid
      (fun data hm ↦ hpass data (List.mem_append_left _ hm)) (by omega)
      (Status.countAll_of_discontinuities
        (fun q hq ↦ hproblems q (List.mem_append_left _ hq)) (by omega))
    obtain ⟨hready, hopt⟩ := h.feed he
    have hr := h.reassembly_of_feed he
    rw [if_pos hpid] at hr
    have hnext : (e.substream pid).reassembly = ((d.substream pid).reassembly.next p).1 := by
      rw [reassembly_substream, hr]
      rfl
    rw [← hnext] at hpass hproblems hlt ⊢
    obtain ⟨f, hf, hfs⟩ := ih hready (fun p hm ↦ hp p (List.mem_cons_of_mem _ hm))
      (fun data hm ↦ by rw [hopt]; exact hpass data (List.mem_append_right _ hm))
      (fun q hq ↦ hproblems q (List.mem_append_right _ hq)) (by rw [hes]; simp only; omega)
      (by omega)
    refine ⟨f, ?_, ?_⟩
    · rw [feedAll_cons he hf, hopt, List.map_append]
    · rw [hfs, hes, List.length_append]
      simp only [Nat.add_assoc]

end Demux

end TransportStream
