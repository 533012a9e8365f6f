import TransportStream.Proofs.Demux.Counting
import TransportStream.Proofs.Demux.Events
import TransportStream.Proofs.Table.Assembly

namespace TransportStream

/-- Whether the section goes to the tables: it is valid, and let through while tables are
collected. -/
structure Handling.Arrives (x : Handling) : Prop where
  valid : x.sect.defect = none
  selected : x.selected = true
  collecting : x.collecting = true

instance (x : Handling) : Decidable x.Arrives :=
  decidable_of_iff (x.sect.defect = none ∧ x.selected = true ∧ x.collecting = true)
    ⟨fun ⟨h₁, h₂, h₃⟩ ↦ ⟨h₁, h₂, h₃⟩, fun ⟨h₁, h₂, h₃⟩ ↦ ⟨h₁, h₂, h₃⟩⟩

namespace Demux

variable {σ : Type} {d e : Demux σ} {x : Handling} {pid : Pid} {data : Bytes} {calls : List Call}

def assembly? (d : Demux σ) (pid : Pid) (key : TableKey) : Option TableAssembly :=
  (d.substreams.get? pid).bind (·.tables.get? key)

def assemblyFor (d : Demux σ) (s : Section) : TableAssembly :=
  (d.assembly? s.pid s.key).getD {}

/-- What dealing with a piece does to the assemblies, and which tables the handler is called
with. -/
inductive Touches (d : Demux σ) (x : Handling) (e : Demux σ) : Prop
  | aside (other : ¬ x.Arrives) (same : e.substreams = d.substreams)
      (calls : ∀ t, .table t ∉ x.calls)
  | whole (arrives : x.Arrives) (short : x.sect.isLong = false)
      (same : e.substreams = d.substreams)
      (calls : x.calls = [.table (.single x.sect)])
  | part (arrives : x.Arrives) (long : x.sect.isLong = true)
      (stored : ∀ q k, e.assembly? q k = if q = x.sect.pid ∧ k = x.sect.key then
        some ((d.assemblyFor x.sect).received x.sect).1 else d.assembly? q k)
      (calls : x.calls = ((d.assemblyFor x.sect).received x.sect).2.toList.map .table)

theorem substreams_of_count {problems : List Problem} (h : d.count problems = .ok e) :
    e.substreams = d.substreams := by
  obtain ⟨status, -, rfl⟩ := count_eq_ok_iff.1 h
  rfl

theorem eq_of_call {α : Type} {handle : Handler σ α} {item : α} {c : Call}
    (h : (d.call pid handle item c).value = .ok (e, calls)) :
    e.substreams = d.substreams ∧ calls = [c] := by
  rw [value_call] at h
  obtain ⟨rfl, rfl⟩ := Prod.mk.inj (Except.ok.inj h)
  exact ⟨rfl, rfl⟩

theorem touches_of_handleShort {handle : Handler σ Table}
    (arrives : (d.handling pid data calls).Arrives)
    (short : (d.asSection pid data).isLong = false)
    (h : (d.handleShort pid handle (d.asSection pid data)).value = .ok (e, calls)) :
    Touches d (d.handling pid data calls) e := by
  have valid : (d.asSection pid data).defect = none := arrives.valid
  unfold handleShort at h
  rw [Table.ofSection_eq valid] at h
  obtain ⟨result, hr, h⟩ := Traced.value_bind_eq_ok_iff.1 h
  obtain rfl := Except.ok.inj hr
  obtain ⟨hs, hc⟩ := eq_of_call h
  exact .whole arrives short hs hc

theorem assembly?_of_insert {sub : Substream} {key : TableKey} {a : TableAssembly}
    (known : d.substreams.get? pid = some sub)
    (stored : e.substreams = d.substreams.insert pid { sub with tables := sub.tables.insert key a })
    (q : Pid) (k : TableKey) :
    e.assembly? q k = if q = pid ∧ k = key then some a else d.assembly? q k := by
  rw [assembly?, stored, FiniteMap.get?_insert]
  by_cases hq : q = pid
  · subst hq
    by_cases hk : k = key <;> simp [assembly?, known, FiniteMap.get?_insert, hk]
  · simp [assembly?, hq]

theorem assemblyFor_eq {sub : Substream} (known : d.substreams.get? pid = some sub)
    (data : Bytes) : d.assemblyFor (d.asSection pid data) =
      (sub.tables.get? (d.asSection pid data).key).getD {} := by
  have hpid : (d.asSection pid data).pid = pid := rfl
  rw [assemblyFor, assembly?, hpid, known]
  rfl

theorem touches_of_handleLong {handle : Handler σ Table}
    (arrives : (d.handling pid data calls).Arrives)
    (long : (d.asSection pid data).isLong = true)
    (known : (d.substreams.get? pid).isSome = true)
    (ready : (d.assemblyFor (d.asSection pid data)).Ready pid (d.asSection pid data).key)
    (h : (d.handleLong pid handle (d.asSection pid data)).value = .ok (e, calls)) :
    Touches d (d.handling pid data calls) e := by
  obtain ⟨sub, hsub⟩ := Option.isSome_iff_exists.1 known
  obtain ⟨problems, -, hreceive⟩ := ready.exists_receive (s := d.asSection pid data) arrives.valid
    d.options.watchVersions
  unfold handleLong at h
  rw [hsub] at h
  dsimp only at h
  rw [← assemblyFor_eq hsub data] at h
  obtain ⟨result, hr, h⟩ := Traced.value_bind_eq_ok_iff.1 h
  obtain rfl := Except.ok.inj (hreceive.symm.trans hr)
  obtain ⟨f, hf, h⟩ := Traced.value_bind_eq_ok_iff.1 h
  have hcalls : calls = ((d.assemblyFor (d.asSection pid data)).received
      (d.asSection pid data)).2.toList.map .table := by
    split at h
    · next hn =>
      obtain ⟨-, rfl⟩ := Prod.mk.inj (Except.ok.inj h)
      rw [hn]
      rfl
    · next t ht =>
      obtain ⟨-, rfl⟩ := eq_of_call h
      rw [ht]
      rfl
  refine .part arrives long (assembly?_of_insert hsub ?_) hcalls
  split at h
  · obtain ⟨rfl, -⟩ := Prod.mk.inj (Except.ok.inj h)
    rfl
  · exact (eq_of_call h).1

theorem touches_of_handleInvalid {defect : Section.Defect}
    (invalid : (d.asSection pid data).defect = some defect)
    (h : (d.handleInvalid { pid, data, defect }).value = .ok (e, calls)) :
    Touches d (d.handling pid data calls) e := by
  have other : ¬ (d.handling pid data calls).Arrives := by
    intro hx
    cases invalid.symm.trans hx.valid
  unfold handleInvalid at h
  obtain ⟨_, -, h⟩ := Traced.value_bind_eq_ok_iff.1 h
  obtain ⟨f, hf, h⟩ := Traced.value_bind_eq_ok_iff.1 h
  rw [Traced.value_liftM] at hf
  have hsame := substreams_of_count hf
  split at h
  · obtain ⟨rfl, rfl⟩ := Prod.mk.inj (Except.ok.inj h)
    exact .aside other hsame fun t ht ↦ by cases ht
  · obtain ⟨hs, rfl⟩ := eq_of_call h
    refine .aside other (hs.trans hsame) fun t ht ↦ ?_
    cases List.mem_singleton.1 ht

theorem touches_of_deliver (valid : (d.asSection pid data).defect = none)
    (selected : d.options.selects (d.asSection pid data) = true)
    (known : (d.substreams.get? pid).isSome = true)
    (ready : (d.assemblyFor (d.asSection pid data)).Ready pid (d.asSection pid data).key)
    (h : (d.deliver pid (d.asSection pid data)).value = .ok (e, calls)) :
    Touches d (d.handling pid data calls) e := by
  have other (hc : d.isCollecting = false) : ¬ (d.handling pid data calls).Arrives := by
    intro hx
    cases hc.symm.trans hx.collecting
  unfold deliver at h
  split at h
  · next hd =>
    obtain ⟨rfl, rfl⟩ := Prod.mk.inj (Except.ok.inj h)
    exact .aside (other (by rw [isCollecting, hd])) rfl fun t ht ↦ by cases ht
  · next handle hd =>
    obtain ⟨hs, rfl⟩ := eq_of_call h
    refine .aside (other (by rw [isCollecting, hd])) hs fun t ht ↦ ?_
    cases List.mem_singleton.1 ht
  · next handle hd =>
    have arrives : (d.handling pid data calls).Arrives :=
      ⟨valid, selected, by rw [handling, isCollecting, hd]⟩
    cases hl : (d.asSection pid data).isLong with
    | false =>
      rw [Section.isShort, hl] at h
      exact touches_of_handleShort arrives hl h
    | true =>
      rw [Section.isShort, hl] at h
      exact touches_of_handleLong arrives hl known ready h

theorem touches_of_handlePiece (known : (d.substreams.get? pid).isSome = true)
    (ready : (d.assemblyFor (d.asSection pid data)).Ready pid (d.asSection pid data).key)
    (h : (d.handlePiece pid data).value = .ok (e, calls)) :
    Touches d (d.handling pid data calls) e := by
  rw [handlePiece_eq] at h
  split at h
  · next valid =>
    unfold handleValid at h
    split at h
    · next selected => exact touches_of_deliver valid selected known ready h
    · next refused =>
      have other : ¬ (d.handling pid data calls).Arrives := fun hx ↦ refused hx.selected
      split at h
      · obtain ⟨f, hf, h⟩ := Traced.value_bind_eq_ok_iff.1 h
        rw [Traced.value_liftM] at hf
        obtain ⟨rfl, rfl⟩ := Prod.mk.inj (Except.ok.inj h)
        exact .aside other (substreams_of_count hf) fun t ht ↦ by cases ht
      · obtain ⟨rfl, rfl⟩ := Prod.mk.inj (Except.ok.inj h)
        exact .aside other rfl fun t ht ↦ by cases ht
  · next defect invalid => exact touches_of_handleInvalid invalid h

/-- What holds of a demultiplexer at any moment: a substream at work is known, and the assemblies
hold sections of their key. -/
structure Moment.Sound (m : Moment σ) : Prop where
  known : ∀ pid pieces, m.work = some (pid, pieces) → (m.demux.substreams.get? pid).isSome = true
  holds : ∀ pid key a, m.demux.assembly? pid key = some a → a.Holds pid key

theorem ready_assemblyFor (h : ∀ pid key a, d.assembly? pid key = some a → a.Holds pid key)
    (s : Section) : (d.assemblyFor s).Ready s.pid s.key := by
  unfold assemblyFor
  cases ha : d.assembly? s.pid s.key with
  | none => exact .inl rfl
  | some a => exact .inr (h _ _ a ha)

theorem assembly?_congr (h : e.substreams = d.substreams) (q : Pid) (k : TableKey) :
    e.assembly? q k = d.assembly? q k := by
  rw [assembly?, h, assembly?]

theorem assembly?_advanced (d : Demux σ) (p : Packet) (q : Pid) (k : TableKey) :
    (d.advanced p).assembly? q k = d.assembly? q k := by
  rw [assembly?, advanced, FiniteMap.get?_insert]
  split
  · next hq =>
    subst hq
    rw [assembly?, substream]
    cases d.substreams.get? p.pid <;> rfl
  · rfl

theorem assembly?_of_forgotten {lost : Pid → Bool}
    (left : ∀ q, e.substreams.get? q = if lost q then none else d.substreams.get? q)
    (q : Pid) (k : TableKey) :
    e.assembly? q k = if lost q then none else d.assembly? q k := by
  rw [assembly?, left, assembly?]
  cases lost q <;> rfl

theorem get?_settle_eq (d : Demux σ) (q : Pid) :
    d.settle.substreams.get? q =
      if d.view.requests.any (FilterChange.removes q) then none else d.substreams.get? q := by
  rw [settle, FiniteMap.get?_filterKeys]
  cases d.view.requests.any (FilterChange.removes q) <;> rfl

theorem isSome_get?_of_handlePiece (h : (d.handlePiece pid data).value = .ok (e, calls)) (q : Pid) :
    (e.substreams.get? q).isSome = (d.substreams.get? q).isSome := by
  have hk := congrArg Option.isSome ((pass_of_handlePiece h).keeps.reassembly q)
  rwa [Option.isSome_map, Option.isSome_map] at hk

theorem Touches.holds (h : d.Touches x e)
    (hd : ∀ pid key a, d.assembly? pid key = some a → a.Holds pid key) :
    ∀ pid key a, e.assembly? pid key = some a → a.Holds pid key := by
  intro pid key a ha
  cases h with
  | aside _ same _ => exact hd _ _ _ ((assembly?_congr same _ _).symm.trans ha)
  | whole _ _ same _ => exact hd _ _ _ ((assembly?_congr same _ _).symm.trans ha)
  | part arrives _ stored _ =>
    rw [stored] at ha
    split at ha
    · next hq =>
      obtain ⟨rfl, rfl⟩ := hq
      obtain rfl := Option.some.inj ha
      exact (ready_assemblyFor hd x.sect).received arrives.valid
    · exact hd _ _ _ ha

variable {m n : Moment σ} {event : Event} {events : List Event}

theorem Moment.Sound.touches {rest : List Bytes} (h : Moment.Sound ⟨d, some (pid, data :: rest)⟩)
    (done : (d.handlePiece pid data).value = .ok (e, calls)) :
    d.Touches (d.handling pid data calls) e :=
  touches_of_handlePiece (h.known pid _ rfl) (ready_assemblyFor h.holds _) done

theorem overflowsOnly_deliver (valid : (d.asSection pid data).defect = none)
    (ready : (d.assemblyFor (d.asSection pid data)).Ready pid (d.asSection pid data).key) :
    OverflowsOnly (d.deliver pid (d.asSection pid data)).value := by
  unfold deliver
  split
  · exact .ok _
  · exact overflowsOnly_call _ _ _ _
  · split
    · unfold handleShort
      rw [Traced.value_bind, Traced.value_liftM, Table.ofSection_eq valid]
      exact overflowsOnly_call _ _ _ _
    · unfold handleLong
      cases hsub : d.substreams.get? pid with
      | none => exact .ok _
      | some sub =>
        obtain ⟨problems, -, hreceive⟩ := ready.exists_receive (s := d.asSection pid data) valid
          d.options.watchVersions
        dsimp only
        rw [Traced.value_bind, ← assemblyFor_eq hsub data]
        refine .bind ?_ fun result _ ↦ ?_
        · intro fault hf
          cases hreceive.symm.trans hf
        · rw [Traced.value_bind, Traced.value_liftM]
          refine .bind (overflowsOnly_count _) fun e _ ↦ ?_
          split
          · exact .ok _
          · exact overflowsOnly_call _ _ _ _

theorem Moment.Sound.exists_handlePiece {rest : List Bytes}
    (h : Moment.Sound ⟨d, some (pid, data :: rest)⟩) :
    (∃ e calls, (d.handlePiece pid data).value = .ok (e, calls)) ∨
      (d.handlePiece pid data).value = .error .overflow := by
  have hoverflows : OverflowsOnly (d.handlePiece pid data).value :=
    overflowsOnly_of_deliver fun valid ↦ overflowsOnly_deliver valid (ready_assemblyFor h.holds _)
  cases hv : (d.handlePiece pid data).value with
  | ok r => exact .inl ⟨r.1, r.2, rfl⟩
  | error fault =>
    right
    rw [hoverflows fault hv]

theorem Moment.Sound.of_between (h : ∀ pid key a, d.assembly? pid key = some a → a.Holds pid key) :
    Moment.Sound ⟨d, none⟩ where
  known := by
    intro pid pieces hw
    cases hw
  holds := h

theorem Moment.Sound.forget {work : Option (Pid × List Bytes)} {lost : Pid → Bool}
    (h : Moment.Sound ⟨d, work⟩)
    (left : ∀ q, e.substreams.get? q = if lost q then none else d.substreams.get? q) :
    Moment.Sound ⟨e, none⟩ := by
  apply Moment.Sound.of_between
  intro pid key a ha
  rw [assembly?_of_forgotten left] at ha
  split at ha
  · cases ha
  · exact h.holds pid key a ha

theorem Moment.Sound.change (h : Moment.Sound ⟨d, none⟩) (same : e.substreams = d.substreams) :
    Moment.Sound ⟨e, none⟩ := by
  apply Moment.Sound.of_between
  intro pid key a ha
  rw [assembly?_congr same] at ha
  exact h.holds pid key a ha

theorem Moment.Sound.step (h : m.Sound) (step : Step m event n) : n.Sound := by
  cases step with
  | @take d e p room filtered counted =>
    have hs := substreams_of_count counted
    refine ⟨fun pid pieces hw ↦ ?_, fun pid key a ha ↦ ?_⟩
    · obtain ⟨rfl, -⟩ := Prod.mk.inj (Option.some.inj hw)
      rw [hs, advanced, FiniteMap.get?_insert, if_pos rfl]
      rfl
    · rw [assembly?_congr hs, assembly?_advanced] at ha
      exact h.holds pid key a ha
  | @handle d e pid data rest calls done =>
    refine ⟨fun q pieces hw ↦ ?_, (h.touches done).holds h.holds⟩
    obtain ⟨rfl, -⟩ := Prod.mk.inj (Option.some.inj hw)
    rw [isSome_get?_of_handlePiece done]
    exact h.known _ _ rfl
  | settle d pid => exact h.forget (get?_settle_eq d)
  | forget left => exact h.forget left
  | change same => exact h.change same

theorem Moment.Sound.run (h : m.Sound) (run : Run m events n) : n.Sound :=
  run.preserves (I := fun _ m ↦ m.Sound) h fun _ _ _ _ _ step h ↦ h.step step

theorem Moment.Reachable.sound (h : m.Reachable) : m.Sound := by
  obtain ⟨options, state, events, run⟩ := h
  have start : Moment.Sound ⟨({ options, handlerState := state } : Demux σ), none⟩ := by
    apply Moment.Sound.of_between
    intro pid key a ha
    cases ha
  exact start.run run

structure Settled (d : Demux σ) : Prop where
  sound : d.Sound
  moment : Moment.Sound ⟨d, none⟩

theorem Reachable.settled (h : d.Reachable) : d.Settled := ⟨h.sound, h.moment.sound⟩

theorem Settled.feed {p : Packet} (h : d.Settled) (fed : (d.feed p).value = .ok (e, calls)) :
    e.Settled := by
  obtain ⟨events, run, -⟩ := h.sound.run_of_feed fed
  exact ⟨h.sound.feed fed, h.moment.run run⟩

theorem Settled.count {problems : List Problem} (h : d.Settled)
    (counted : d.count problems = .ok e) : e.Settled := by
  obtain ⟨status, -, rfl⟩ := count_eq_ok_iff.1 counted
  exact ⟨⟨h.sound.requests, h.sound.staged, h.sound.reassembly⟩, h.moment.change rfl⟩

theorem Settled.pushBlock {block : Bytes} (h : d.Settled)
    (pushed : (d.pushBlock block).value = .ok (e, calls)) : e.Settled := by
  obtain ⟨events, run, -⟩ := h.sound.run_of_pushBlock pushed
  exact ⟨h.sound.pushBlock pushed, h.moment.run run⟩

end Demux

end TransportStream
