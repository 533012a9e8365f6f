import TransportStream.Proofs.Demux.Passes
import TransportStream.Proofs.Demux.Reassembly

namespace TransportStream.Demux

variable {σ : Type} {d d' : Demux σ} {pid : Pid} {p : Packet} {calls : List Call}

def substream (d : Demux σ) (pid : Pid) : Substream :=
  (d.substreams.get? pid).getD { reassembly := { pid } }

theorem reassembly_substream (d : Demux σ) (pid : Pid) :
    (d.substream pid).reassembly =
      ((d.substreams.get? pid).map (·.reassembly)).getD { pid } := by
  rw [substream]
  cases d.substreams.get? pid <;> rfl

/-- The demultiplexer once it has taken in what a packet carries. -/
def advanced (d : Demux σ) (p : Packet) : Demux σ :=
  { d with
    packetCount := d.packetCount + 1
    substreams := d.substreams.insert p.pid
      { d.substream p.pid with reassembly := ((d.substream p.pid).reassembly.next p).1 } }

def findings (d : Demux σ) (p : Packet) : Findings Bytes :=
  ((d.substream p.pid).reassembly.next p).2

def stagedBy (d : Demux σ) (p : Packet) : List Staged :=
  (d.findings p).pieces.map (.ofPiece d.options.checksums p.pid)

/-- What holds of a demultiplexer between packets. -/
structure Sound (d : Demux σ) : Prop where
  requests : d.view.requests = []
  staged : d.staged = []
  reassembly : ∀ pid r, (d.substreams.get? pid).map (·.reassembly) = some r →
    r.pid = pid ∧ r.WellFormed

theorem Sound.substream (h : d.Sound) (pid : Pid) :
    (d.substream pid).reassembly.pid = pid ∧ (d.substream pid).reassembly.WellFormed := by
  unfold Demux.substream
  cases hs : d.substreams.get? pid with
  | none => exact ⟨rfl, rfl⟩
  | some sub => exact h.reassembly pid _ (by rw [hs]; rfl)

theorem count_withStaged (d : Demux σ) (items : List Staged) (problems : List Problem) :
    ({ d with staged := items } : Demux σ).count problems =
      d.count problems >>= fun e ↦ .ok { e with staged := items } := by
  unfold count
  show (d.status.countAll problems >>= _) = _
  cases d.status.countAll problems <;> rfl

theorem Sound.value_stage (h : d.Sound) (p : Packet) :
    (({ d with packetCount := d.packetCount + 1 } : Demux σ).stage p).value =
      (d.advanced p).count (d.findings p).problems >>= fun e ↦
        .ok { e with staged := d.stagedBy p } := by
  have hstaged : d.staged ++ ((d.substream p.pid).reassembly.next p).2.pieces.map
      (.ofPiece d.options.checksums (d.substream p.pid).reassembly.pid) = d.stagedBy p := by
    rw [h.staged, (h.substream p.pid).1]
    rfl
  unfold stage
  rw [Traced.value_bind_of_ok (Reassembly.value_feed ..), Traced.value_liftM]
  refine Eq.trans ?_ (count_withStaged (d.advanced p) (d.stagedBy p) _)
  rw [← hstaged]
  rfl

theorem Sound.staged_of_counted {e : Demux σ} {problems : List Problem} (h : d.Sound)
    (counted : (d.advanced p).count problems = .ok e) : e.staged = [] ∧
      d.stagedBy p = (d.findings p).pieces.map (.ofPiece e.options.checksums p.pid) := by
  have hkeeps := keeps_count counted
  refine ⟨hkeeps.staged.trans h.staged, ?_⟩
  rw [hkeeps.options]
  rfl

theorem withStaged_nil (h : d.staged = []) : ({ d with staged := [] } : Demux σ) = d :=
  congrArg (fun items ↦ { d with staged := items }) h.symm

theorem value_dispatch {e : Demux σ} {pieces : List Bytes} {items : List Staged}
    (idle : e.staged = []) (staged : items = pieces.map (.ofPiece e.options.checksums pid)) :
    (({ e with staged := items } : Demux σ).dispatch pid).value =
      (e.handlePieces pid pieces).value := by
  subst staged
  unfold dispatch
  rw [Traced.value_bind]
  show (({ e with staged := [] } : Demux σ).handleItems pid _).value >>= _ = _
  rw [withStaged_nil idle]
  show (e.handlePieces pid pieces).value >>= _ = _
  cases hv : (e.handlePieces pid pieces).value with
  | error fault => rfl
  | ok handled =>
    have hstaged := (pass_of_handlePieces hv).keeps.staged.trans idle
    exact congrArg (fun f ↦ Except.ok (f, handled.2)) (withStaged_nil hstaged)

theorem Sound.stage_dispatch_of_handled {e f : Demux σ} (h : d.Sound)
    (counted : (d.advanced p).count (d.findings p).problems = .ok e)
    (handled : (e.handlePieces p.pid (d.findings p).pieces).value = .ok (f, calls)) :
    (({ d with packetCount := d.packetCount + 1 } : Demux σ).stage p).value =
        .ok { e with staged := d.stagedBy p } ∧
      e.staged = [] ∧
      (({ e with staged := d.stagedBy p } : Demux σ).dispatch p.pid).value = .ok (f, calls) := by
  obtain ⟨hidle, hpieces⟩ := h.staged_of_counted counted
  have hstaged := (h.value_stage p).trans (bind_eq_ok_iff.2 ⟨e, counted, rfl⟩)
  exact ⟨hstaged, hidle, (value_dispatch hidle hpieces).trans handled⟩

theorem Sound.value_feed (h : d.Sound) (p : Packet) : (d.feed p).value = do
    let _ ← fit wordLimit (d.packetCount + 1)
    if d.hasPid p.pid then
      let e ← (d.advanced p).count (d.findings p).problems
      let (f, calls) ← (e.handlePieces p.pid (d.findings p).pieces).value
      return (f.settle, calls)
    else return ({ d with packetCount := d.packetCount + 1 }, []) := by
  unfold feed
  rw [Traced.value_bind, Traced.value_liftM, fit]
  split
  · show (if d.hasPid p.pid = true then _ else _ : Traced _).value = if _ then _ else _
    split
    · unfold process
      rw [Traced.value_bind, h.value_stage p]
      cases hcount : (d.advanced p).count (d.findings p).problems with
      | error fault => rfl
      | ok e =>
        obtain ⟨hidle, hstaged⟩ := h.staged_of_counted hcount
        show (dispatch _ p.pid >>= _ : Traced _).value = _
        rw [Traced.value_bind]
        exact congrArg (· >>= _) (value_dispatch hidle hstaged)
    · rfl
  · rfl

theorem Sound.feed_eq_ok_iff (h : d.Sound) :
    (d.feed p).value = .ok (d', calls) ↔ d.packetCount + 1 < wordLimit ∧
      if d.hasPid p.pid then ∃ e f, (d.advanced p).count (d.findings p).problems = .ok e ∧
        (e.handlePieces p.pid (d.findings p).pieces).value = .ok (f, calls) ∧ f.settle = d'
      else { d with packetCount := d.packetCount + 1 } = d' ∧ calls = [] := by
  rw [h.value_feed, bind_eq_ok_iff]
  constructor
  · rintro ⟨n, hn, h⟩
    refine ⟨(fit_eq_ok_iff.1 hn).1, ?_⟩
    split at h
    · next hp =>
      obtain ⟨e, he, h⟩ := bind_eq_ok_iff.1 h
      obtain ⟨⟨f, more⟩, hf, h⟩ := bind_eq_ok_iff.1 h
      obtain ⟨rfl, rfl⟩ := Prod.mk.inj (Except.ok.inj h)
      rw [if_pos hp]
      exact ⟨e, f, he, hf, rfl⟩
    · next hp =>
      obtain ⟨rfl, rfl⟩ := Prod.mk.inj (Except.ok.inj h)
      rw [if_neg hp]
      exact ⟨rfl, rfl⟩
  · rintro ⟨hlt, h⟩
    refine ⟨_, fit_eq_ok_iff.2 ⟨hlt, rfl⟩, ?_⟩
    split at h
    · next hp =>
      obtain ⟨e, f, he, hf, rfl⟩ := h
      rw [if_pos hp]
      exact bind_eq_ok_iff.2 ⟨e, he, bind_eq_ok_iff.2 ⟨(f, calls), hf, rfl⟩⟩
    · next hp =>
      obtain ⟨rfl, rfl⟩ := h
      rw [if_neg hp]
      rfl

theorem Sound.of_substreams (h : d.Sound) (hr : d'.view.requests = []) (hi : d'.staged = [])
    (hs : ∀ pid, d'.substreams.get? pid = none ∨
      (d'.substreams.get? pid).map (·.reassembly) = (d.substreams.get? pid).map (·.reassembly)) :
    d'.Sound := by
  refine ⟨hr, hi, fun pid r hp ↦ ?_⟩
  rcases hs pid with hn | he
  · rw [hn] at hp
    cases hp
  · exact h.reassembly pid r (he.symm.trans hp)

theorem get?_settle (f : Demux σ) (q : Pid) :
    f.settle.substreams.get? q = none ∨
      f.settle.substreams.get? q = f.substreams.get? q := by
  rw [settle, FiniteMap.get?_filterKeys]
  split
  · exact .inr rfl
  · exact .inl rfl

theorem Sound.reassembly_of_feed (h : d.Sound) (fed : (d.feed p).value = .ok (d', calls))
    (q : Pid) :
    d'.substreams.get? q = none ∨
      (d'.substreams.get? q).map (·.reassembly) = (d.substreams.get? q).map (·.reassembly) ∨
      q = p.pid ∧ (d'.substreams.get? q).map (·.reassembly) =
        some ((d.substream q).reassembly.next p).1 := by
  obtain ⟨-, hfed⟩ := h.feed_eq_ok_iff.1 fed
  split at hfed
  · obtain ⟨e, f, he, hf, rfl⟩ := hfed
    rcases get?_settle f q with hn | hn
    · exact .inl hn
    · have hk := (keeps_count he).trans (pass_of_handlePieces hf).keeps
      rw [hn, hk.reassembly q]
      by_cases hq : q = p.pid
      · right; right
        refine ⟨hq, ?_⟩
        rw [advanced, FiniteMap.get?_insert, if_pos hq, hq]
        rfl
      · right; left
        rw [advanced, FiniteMap.get?_insert, if_neg hq]
  · obtain ⟨rfl, -⟩ := hfed
    exact .inr (.inl rfl)

theorem Sound.idle_of_feed (h : d.Sound) (fed : (d.feed p).value = .ok (d', calls)) :
    d'.view.requests = [] ∧ d'.staged = [] := by
  obtain ⟨-, hfed⟩ := h.feed_eq_ok_iff.1 fed
  split at hfed
  · obtain ⟨e, f, he, hf, rfl⟩ := hfed
    have hkeeps := (keeps_count he).trans (pass_of_handlePieces hf).keeps
    exact ⟨rfl, hkeeps.staged.trans h.staged⟩
  · obtain ⟨rfl, -⟩ := hfed
    exact ⟨h.requests, h.staged⟩

theorem Sound.feed (h : d.Sound) (fed : (d.feed p).value = .ok (d', calls)) : d'.Sound := by
  obtain ⟨hrequests, hstaged⟩ := h.idle_of_feed fed
  refine ⟨hrequests, hstaged, fun q r hq ↦ ?_⟩
  rcases h.reassembly_of_feed fed q with hn | he | ⟨-, he⟩
  · rw [hn] at hq
    cases hq
  · exact h.reassembly q r (he.symm.trans hq)
  · obtain rfl := Option.some.inj (he.symm.trans hq)
    obtain ⟨hpid, hw⟩ := h.substream q
    exact ⟨(Reassembly.pid_next p).trans hpid, hw.next p⟩

theorem Sound.pushBlock {block : Bytes} (h : d.Sound)
    (pushed : (d.pushBlock block).value = .ok (d', calls)) : d'.Sound := by
  unfold Demux.pushBlock at pushed
  obtain ⟨packet, -, pushed⟩ := Traced.value_bind_eq_ok_iff.1 pushed
  split at pushed
  · exact h.feed pushed
  · obtain ⟨_, -, pushed⟩ := Traced.value_bind_eq_ok_iff.1 pushed
    obtain ⟨_, -, pushed⟩ := Traced.value_bind_eq_ok_iff.1 pushed
    obtain ⟨e, he, pushed⟩ := Traced.value_bind_eq_ok_iff.1 pushed
    rw [Traced.value_liftM] at he
    obtain ⟨status, -, rfl⟩ := count_eq_ok_iff.1 he
    obtain ⟨rfl, rfl⟩ := Prod.mk.inj (Except.ok.inj pushed)
    exact ⟨h.requests, h.staged, h.reassembly⟩

theorem Sound.push {data : Bytes} (h : d.Sound) (pushed : (d.push data).value = .ok (d', calls)) :
    d'.Sound := by
  fun_induction Demux.push d data generalizing d' calls with
  | case1 d data hl ih =>
    obtain ⟨⟨e, first⟩, hb, pushed⟩ := Traced.value_bind_eq_ok_iff.1 pushed
    obtain ⟨⟨f, others⟩, hr, pushed⟩ := Traced.value_bind_eq_ok_iff.1 pushed
    obtain ⟨rfl, -⟩ := Prod.mk.inj (Except.ok.inj pushed)
    exact ih e (h.pushBlock hb) hr
  | case2 =>
    obtain ⟨_, -, pushed⟩ := Traced.value_bind_eq_ok_iff.1 pushed
    obtain ⟨rfl, -⟩ := Prod.mk.inj (Except.ok.inj pushed)
    exact h
  | case3 =>
    obtain ⟨rfl, -⟩ := Prod.mk.inj (Except.ok.inj pushed)
    exact h

inductive Reachable : Demux σ → Prop
  | start (options : DemuxOptions) (state : σ) : Reachable { options, handlerState := state }
  | feed {d d' : Demux σ} {p : Packet} {calls : List Call} (before : Reachable d)
      (fed : (d.feed p).value = .ok (d', calls)) : Reachable d'
  | push {d d' : Demux σ} {data : Bytes} {calls : List Call} (before : Reachable d)
      (pushed : (d.push data).value = .ok (d', calls)) : Reachable d'
  | addPid {d : Demux σ} (before : Reachable d) (pid : Pid) : Reachable (d.addPid pid)
  | removePid {d : Demux σ} (before : Reachable d) (pid : Pid) : Reachable (d.removePid pid)
  | setFilter {d : Demux σ} (before : Reachable d) (filter : PidSet) :
      Reachable (d.setFilter filter)
  | reset {d : Demux σ} (before : Reachable d) : Reachable d.reset
  | resetPid {d : Demux σ} (before : Reachable d) (pid : Pid) : Reachable (d.resetPid pid)
  | resetStatus {d : Demux σ} (before : Reachable d) : Reachable d.resetStatus
  | setOptions {d : Demux σ} (before : Reachable d) (options : DemuxOptions) :
      Reachable (d.setOptions options)
  | setDelivery {d : Demux σ} (before : Reachable d) (delivery : Option (Delivery σ)) :
      Reachable (d.setDelivery delivery)
  | setInvalidHandler {d : Demux σ} (before : Reachable d)
      (handle : Option (Handler σ InvalidData)) : Reachable (d.setInvalidHandler handle)
  | setHandlerState {d : Demux σ} (before : Reachable d) (state : σ) :
      Reachable { d with handlerState := state }

theorem Reachable.sound (h : d.Reachable) : d.Sound := by
  induction h with
  | start options state => exact ⟨rfl, rfl, fun pid r hp ↦ by cases hp⟩
  | feed _ fed ih => exact ih.feed fed
  | push _ pushed ih => exact ih.push pushed
  | addPid _ _ ih => exact ⟨ih.requests, ih.staged, ih.reassembly⟩
  | @removePid d _ pid ih =>
    refine ih.of_substreams ih.requests ih.staged fun q ↦ ?_
    rw [Demux.removePid, FiniteMap.get?_erase]
    split
    · exact .inl rfl
    · exact .inr rfl
  | @setFilter d _ filter ih =>
    refine ih.of_substreams ih.requests ih.staged fun q ↦ ?_
    rw [Demux.setFilter, FiniteMap.get?_filterKeys]
    split
    · exact .inr rfl
    · exact .inl rfl
  | reset _ ih => exact ih.of_substreams ih.requests ih.staged fun q ↦ .inl rfl
  | @resetPid d _ pid ih =>
    refine ih.of_substreams ih.requests ih.staged fun q ↦ ?_
    rw [Demux.resetPid, FiniteMap.get?_erase]
    split
    · exact .inl rfl
    · exact .inr rfl
  | resetStatus _ ih => exact ⟨ih.requests, ih.staged, ih.reassembly⟩
  | setOptions _ _ ih => exact ⟨ih.requests, ih.staged, ih.reassembly⟩
  | setDelivery _ _ ih => exact ⟨ih.requests, ih.staged, ih.reassembly⟩
  | setInvalidHandler _ _ ih => exact ⟨ih.requests, ih.staged, ih.reassembly⟩
  | setHandlerState _ _ ih => exact ⟨ih.requests, ih.staged, ih.reassembly⟩

theorem feedAll_cons_eq_ok_iff {rest : List Packet} :
    (d.feedAll (p :: rest)).value = .ok (d', calls) ↔ ∃ e first more,
      (d.feed p).value = .ok (e, first) ∧ (e.feedAll rest).value = .ok (d', more) ∧
      first ++ more = calls := by
  rw [Demux.feedAll, Traced.value_bind_eq_ok_iff]
  constructor
  · rintro ⟨⟨e, first⟩, he, h⟩
    obtain ⟨⟨f, more⟩, hf, h⟩ := Traced.value_bind_eq_ok_iff.1 h
    obtain ⟨rfl, rfl⟩ := Prod.mk.inj (Except.ok.inj h)
    exact ⟨e, first, more, he, hf, rfl⟩
  · rintro ⟨e, first, more, he, hf, rfl⟩
    exact ⟨(e, first), he, Traced.value_bind_of_ok hf⟩

theorem Reachable.feedAll {packets : List Packet} (h : d.Reachable)
    (fed : (d.feedAll packets).value = .ok (d', calls)) : d'.Reachable := by
  induction packets generalizing d calls with
  | nil =>
    cases fed
    exact h
  | cons p rest ih =>
    obtain ⟨e, first, more, he, hf, -⟩ := feedAll_cons_eq_ok_iff.1 fed
    exact ih (h.feed he) hf

end TransportStream.Demux
