import TransportStream.Proofs.Demux.Reachable

namespace TransportStream

structure Handling where
  sect : Section
  selected : Bool
  collecting : Bool
  calls : List Call
deriving DecidableEq

namespace Demux

variable {σ : Type}

def isCollecting (d : Demux σ) : Bool :=
  match d.delivery with
  | some (.tables _) => true
  | some (.sections _) | none => false

def asSection (d : Demux σ) (pid : Pid) (data : Bytes) : Section :=
  .ofBytes d.options.checksums data pid

def handling (d : Demux σ) (pid : Pid) (data : Bytes) (calls : List Call) : Handling where
  sect := d.asSection pid data
  selected := d.options.selects (d.asSection pid data)
  collecting := d.isCollecting
  calls := calls

inductive Event
  | taken (p : Packet)
  | handled (x : Handling)
  | forgotten (lost : Pid → Bool)
  | changed

def Event.calls : Event → List Call
  | .handled x => x.calls
  | .taken _ | .forgotten _ | .changed => []

structure Moment (σ : Type) where
  demux : Demux σ
  /-- The pieces of a packet that are still to be dealt with, if it is at work on one. -/
  work : Option (Pid × List Bytes) := none

/-- One step of the work on a packet, or any change between packets that leaves the substreams alone
or forgets them. -/
inductive Step : Moment σ → Event → Moment σ → Prop
  | take {d e : Demux σ} {p : Packet} (room : d.packetCount + 1 < wordLimit)
      (filtered : d.hasPid p.pid = true)
      (counted : (d.advanced p).count (d.findings p).problems = .ok e) :
      Step ⟨d, none⟩ (.taken p) ⟨e, some (p.pid, (d.findings p).pieces)⟩
  | handle {d e : Demux σ} {pid : Pid} {data : Bytes} {rest : List Bytes} {calls : List Call}
      (done : (d.handlePiece pid data).value = .ok (e, calls)) :
      Step ⟨d, some (pid, data :: rest)⟩ (.handled (d.handling pid data calls))
        ⟨e, some (pid, rest)⟩
  | settle (d : Demux σ) (pid : Pid) :
      Step ⟨d, some (pid, [])⟩ (.forgotten fun q ↦ d.view.requests.any (FilterChange.removes q))
        ⟨d.settle, none⟩
  | forget {d e : Demux σ} {lost : Pid → Bool}
      (left : ∀ q, e.substreams.get? q = if lost q then none else d.substreams.get? q) :
      Step ⟨d, none⟩ (.forgotten lost) ⟨e, none⟩
  | change {d e : Demux σ} (same : e.substreams = d.substreams) :
      Step ⟨d, none⟩ .changed ⟨e, none⟩

inductive Run : Moment σ → List Event → Moment σ → Prop
  | nil (m : Moment σ) : Run m [] m
  | cons {m n o : Moment σ} {event : Event} {events : List Event} (step : Step m event n)
      (rest : Run n events o) : Run m (event :: events) o

namespace Run

variable {m n o : Moment σ} {event : Event} {before after : List Event}

theorem single (step : Step m event n) : Run m [event] n := .cons step (.nil n)

theorem append (h : Run m before n) (h' : Run n after o) : Run m (before ++ after) o := by
  induction h with
  | nil => exact h'
  | cons step _ ih => exact .cons step (ih h')

theorem split (h : Run m (before ++ after) o) : ∃ n, Run m before n ∧ Run n after o := by
  induction before generalizing m with
  | nil => exact ⟨m, .nil m, h⟩
  | cons event before ih =>
    cases h with
    | cons step rest =>
      obtain ⟨n, hn, ho⟩ := ih rest
      exact ⟨n, .cons step hn, ho⟩

theorem preserves {I : List Event → Moment σ → Prop} {events : List Event} (run : Run m events n)
    (start : I [] m)
    (step : ∀ past {m n : Moment σ} {event : Event}, event ∈ events → Step m event n →
      I past m → I (past ++ [event]) n) : I events n := by
  suffices h : ∀ past, I past m → I (past ++ events) n from h [] start
  clear start
  induction run with
  | nil =>
    intro past h
    rw [List.append_nil]
    exact h
  | cons first _ ih =>
    intro past h
    rw [List.append_cons]
    refine ih (fun past _ _ _ he ↦ step past (List.mem_cons_of_mem _ he)) _ ?_
    exact step past (List.mem_cons_self ..) first h

end Run

variable {d d' : Demux σ} {pid : Pid} {p : Packet} {calls : List Call}

def handlings (d : Demux σ) (pid : Pid) : List Bytes → Except Fault (Demux σ × List Handling)
  | [] => .ok (d, [])
  | data :: rest => do
    let (e, calls) ← (d.handlePiece pid data).value
    let (f, others) ← e.handlings pid rest
    return (f, d.handling pid data calls :: others)

def work (d : Demux σ) (p : Packet) : Except Fault (Demux σ × List Handling) := do
  let e ← (d.advanced p).count (d.findings p).problems
  e.handlings p.pid (d.findings p).pieces

theorem run_of_handlings {pieces : List Bytes} {handled : List Handling}
    (h : d.handlings pid pieces = .ok (d', handled)) :
    Run ⟨d, some (pid, pieces)⟩ (handled.map .handled) ⟨d', some (pid, [])⟩ := by
  induction pieces generalizing d handled with
  | nil =>
    obtain ⟨rfl, rfl⟩ := Prod.mk.inj (Except.ok.inj h)
    exact .nil _
  | cons data rest ih =>
    rw [handlings] at h
    obtain ⟨⟨e, calls⟩, h₁, h⟩ := bind_eq_ok_iff.1 h
    obtain ⟨⟨f, others⟩, h₂, h⟩ := bind_eq_ok_iff.1 h
    obtain ⟨rfl, rfl⟩ := Prod.mk.inj (Except.ok.inj h)
    exact .cons (.handle h₁) (ih h₂)

theorem exists_handlings {pieces : List Bytes}
    (h : (d.handlePieces pid pieces).value = .ok (d', calls)) :
    ∃ handled, d.handlings pid pieces = .ok (d', handled) ∧ handled.flatMap (·.calls) = calls := by
  induction pieces generalizing d calls with
  | nil =>
    obtain ⟨rfl, rfl⟩ := Prod.mk.inj (Except.ok.inj h)
    exact ⟨[], rfl, rfl⟩
  | cons data rest ih =>
    obtain ⟨e, first, others, h₁, h₂, rfl⟩ := handlePieces_cons_eq_ok_iff.1 h
    obtain ⟨handled, hrest, rfl⟩ := ih h₂
    refine ⟨d.handling pid data first :: handled, ?_, rfl⟩
    exact bind_eq_ok_iff.2 ⟨(e, first), h₁, bind_eq_ok_iff.2 ⟨(d', handled), hrest, rfl⟩⟩

theorem run_of_work {handled : List Handling} (room : d.packetCount + 1 < wordLimit)
    (filtered : d.hasPid p.pid = true) (h : d.work p = .ok (d', handled)) :
    Run ⟨d, none⟩ (.taken p :: handled.map .handled) ⟨d', some (p.pid, [])⟩ := by
  obtain ⟨e, counted, h⟩ := bind_eq_ok_iff.1 h
  exact .cons (.take room filtered counted) (run_of_handlings h)

theorem Sound.run_of_feed (h : d.Sound) (fed : (d.feed p).value = .ok (d', calls)) :
    ∃ events, Run ⟨d, none⟩ events ⟨d', none⟩ ∧ events.flatMap Event.calls = calls := by
  obtain ⟨room, hfed⟩ := h.feed_eq_ok_iff.1 fed
  split at hfed
  · next filtered =>
    obtain ⟨e, f, counted, handled, rfl⟩ := hfed
    obtain ⟨handlings, hwork, rfl⟩ := exists_handlings handled
    have hrun := run_of_work room filtered (bind_eq_ok_iff.2 ⟨e, counted, hwork⟩)
    refine ⟨_, hrun.append (.single (.settle f p.pid)), ?_⟩
    simp [Event.calls, List.flatMap_map]
  · obtain ⟨rfl, rfl⟩ := hfed
    exact ⟨[.changed], .single (.change rfl), rfl⟩

theorem Sound.run_of_pushBlock {block : Bytes} (h : d.Sound)
    (pushed : (d.pushBlock block).value = .ok (d', calls)) :
    ∃ events, Run ⟨d, none⟩ events ⟨d', none⟩ ∧ events.flatMap Event.calls = calls := by
  unfold Demux.pushBlock at pushed
  obtain ⟨packet, -, pushed⟩ := Traced.value_bind_eq_ok_iff.1 pushed
  split at pushed
  · exact h.run_of_feed pushed
  · obtain ⟨_, -, pushed⟩ := Traced.value_bind_eq_ok_iff.1 pushed
    obtain ⟨_, -, pushed⟩ := Traced.value_bind_eq_ok_iff.1 pushed
    obtain ⟨e, he, pushed⟩ := Traced.value_bind_eq_ok_iff.1 pushed
    rw [Traced.value_liftM] at he
    obtain ⟨status, -, rfl⟩ := count_eq_ok_iff.1 he
    obtain ⟨rfl, rfl⟩ := Prod.mk.inj (Except.ok.inj pushed)
    exact ⟨[.changed], .single (.change rfl), rfl⟩

theorem Sound.run_of_push {data : Bytes} (h : d.Sound)
    (pushed : (d.push data).value = .ok (d', calls)) :
    ∃ events, Run ⟨d, none⟩ events ⟨d', none⟩ ∧ events.flatMap Event.calls = calls := by
  fun_induction Demux.push d data generalizing d' calls with
  | case1 d data hl ih =>
    obtain ⟨⟨e, first⟩, hb, pushed⟩ := Traced.value_bind_eq_ok_iff.1 pushed
    obtain ⟨⟨f, others⟩, hr, pushed⟩ := Traced.value_bind_eq_ok_iff.1 pushed
    obtain ⟨rfl, rfl⟩ := Prod.mk.inj (Except.ok.inj pushed)
    obtain ⟨events, hrun, rfl⟩ := h.run_of_pushBlock hb
    obtain ⟨more, hmore, rfl⟩ := ih e (h.pushBlock hb) hr
    exact ⟨events ++ more, hrun.append hmore, List.flatMap_append⟩
  | case2 =>
    obtain ⟨_, -, pushed⟩ := Traced.value_bind_eq_ok_iff.1 pushed
    obtain ⟨rfl, rfl⟩ := Prod.mk.inj (Except.ok.inj pushed)
    exact ⟨[], .nil _, rfl⟩
  | case3 =>
    obtain ⟨rfl, rfl⟩ := Prod.mk.inj (Except.ok.inj pushed)
    exact ⟨[], .nil _, rfl⟩

def Moment.Reachable (m : Moment σ) : Prop :=
  ∃ (options : DemuxOptions) (state : σ) (events : List Event),
    Run ⟨{ options, handlerState := state }, none⟩ events m

theorem Moment.Reachable.run {m n : Moment σ} {events : List Event} (h : m.Reachable)
    (run : Run m events n) : n.Reachable := by
  obtain ⟨options, state, before, hb⟩ := h
  exact ⟨options, state, before ++ events, hb.append run⟩

theorem Reachable.moment (h : d.Reachable) : Moment.Reachable ⟨d, none⟩ := by
  induction h with
  | start options state => exact ⟨options, state, [], .nil _⟩
  | feed before fed ih =>
    obtain ⟨events, hrun, -⟩ := before.sound.run_of_feed fed
    exact ih.run hrun
  | push before pushed ih =>
    obtain ⟨events, hrun, -⟩ := before.sound.run_of_push pushed
    exact ih.run hrun
  | @removePid d _ pid ih =>
    refine ih.run (.single (@Step.forget _ _ _ (fun q ↦ decide (q = pid)) fun q ↦ ?_))
    simp [Demux.removePid, FiniteMap.get?_erase]
  | @setFilter d _ filter ih =>
    refine ih.run (.single (@Step.forget _ _ _ (fun q ↦ !filter.contains q) fun q ↦ ?_))
    simp only [Demux.setFilter, FiniteMap.get?_filterKeys]
    cases filter.contains q <;> rfl
  | reset _ ih => exact ih.run (.single (@Step.forget _ _ _ (fun _ ↦ true) fun _ ↦ rfl))
  | @resetPid d _ pid ih =>
    refine ih.run (.single (@Step.forget _ _ _ (fun q ↦ decide (q = pid)) fun q ↦ ?_))
    simp [Demux.resetPid, FiniteMap.get?_erase]
  | addPid _ _ ih => exact ih.run (.single (.change rfl))
  | resetStatus _ ih => exact ih.run (.single (.change rfl))
  | setOptions _ _ ih => exact ih.run (.single (.change rfl))
  | setDelivery _ _ ih => exact ih.run (.single (.change rfl))
  | setInvalidHandler _ _ ih => exact ih.run (.single (.change rfl))
  | setHandlerState _ _ ih => exact ih.run (.single (.change rfl))

end Demux

end TransportStream
