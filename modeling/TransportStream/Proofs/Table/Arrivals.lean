import TransportStream.Proofs.Table.Collection

namespace TransportStream

def Call.table? : Call → Option Table
  | .table t => some t
  | .sect _ | .invalid _ => none

def Table.isOf (t : Table) (pid : Pid) (key : TableKey) : Bool :=
  t.identity.any fun id ↦ decide (id.pid = pid ∧ id.key = key)

theorem Table.isOf_eq_true_iff {t : Table} {pid : Pid} {key : TableKey} :
    t.isOf pid key = true ↔ ∃ id, t.identity = some id ∧ id.pid = pid ∧ id.key = key := by
  simp [isOf, Option.any_eq_true]

namespace Demux

namespace Event

def forgets (pid : Pid) : Event → Bool
  | .forgotten lost => lost pid
  | .taken _ | .handled _ | .changed => false

/-- The section of a key of a substream that goes to the tables, if the event is its coming. -/
def arrival? (pid : Pid) (key : TableKey) : Event → Option Section
  | .handled x => if x.Arrives ∧ x.sect.pid = pid ∧ x.sect.key = key then some x.sect else none
  | .taken _ | .forgotten _ | .changed => none

def tables (pid : Pid) (key : TableKey) (event : Event) : List Table :=
  (event.calls.filterMap Call.table?).filter (·.isOf pid key)

end Event

def arrivals (pid : Pid) (key : TableKey) (events : List Event) : List Section :=
  events.filterMap (Event.arrival? pid key)

def deliveries (pid : Pid) (key : TableKey) (events : List Event) : List Table :=
  events.flatMap (Event.tables pid key)

variable {σ : Type} {d e : Demux σ} {m n : Moment σ} {event : Event} {events : List Event}
  {x : Handling} {pid : Pid} {key : TableKey}

theorem arrivals_append_singleton (past : List Event) (event : Event) :
    arrivals pid key (past ++ [event]) =
      arrivals pid key past ++ (event.arrival? pid key).toList := by
  rw [arrivals, List.filterMap_append]
  cases h : event.arrival? pid key with
  | none => rw [List.filterMap_cons_none h]; rfl
  | some s => rw [List.filterMap_cons_some h]; rfl

theorem deliveries_append_singleton (past : List Event) (event : Event) :
    deliveries pid key (past ++ [event]) = deliveries pid key past ++ event.tables pid key := by
  rw [deliveries, List.flatMap_append, List.flatMap_singleton, deliveries]

theorem mem_arrivals {s : Section} (he : event ∈ events) (h : event.arrival? pid key = some s) :
    s ∈ arrivals pid key events :=
  List.mem_filterMap.2 ⟨event, he, h⟩

theorem arrival?_eq_some_iff {s : Section} : event.arrival? pid key = some s ↔
    ∃ x : Handling, event = .handled x ∧ x.Arrives ∧ x.sect = s ∧ s.pid = pid ∧ s.key = key := by
  cases event with
  | handled x =>
    rw [Event.arrival?]
    constructor
    · intro h
      split at h
      · next hx =>
        obtain rfl := Option.some.inj h
        exact ⟨x, rfl, hx.1, rfl, hx.2⟩
      · cases h
    · rintro ⟨y, hy, arrives, rfl, hq⟩
      obtain rfl := Event.handled.inj hy
      exact if_pos ⟨arrives, hq⟩
  | taken p => simp [Event.arrival?]
  | forgotten lost => simp [Event.arrival?]
  | changed => simp [Event.arrival?]

theorem isOf_iff_of_identity {t : Table} {s : Section} (known : t.identity = some (.ofSection s)) :
    t.isOf pid key = true ↔ s.pid = pid ∧ s.key = key := by
  rw [Table.isOf_eq_true_iff, known]
  constructor
  · rintro ⟨id, hid, h⟩
    obtain rfl := Option.some.inj hid
    exact h
  · intro h
    exact ⟨_, rfl, h⟩

theorem isLong_of_key {s : Section} (valid : s.defect = none) (long : key.extension.isSome = true)
    (hk : s.key = key) : s.isLong = true := by
  rw [← Section.isSome_extension valid]
  subst hk
  exact long

theorem Touches.of_arrival (h : d.Touches x e) (long : key.extension.isSome = true)
    (ready : (d.assemblyFor x.sect).Ready x.sect.pid x.sect.key) (arrives : x.Arrives)
    (hp : x.sect.pid = pid) (hk : x.sect.key = key) :
    e.assembly? pid key = some (((d.assembly? pid key).getD {}).received x.sect).1 ∧
      (Event.handled x).tables pid key =
        (((d.assembly? pid key).getD {}).received x.sect).2.toList := by
  cases h with
  | aside other => exact absurd arrives other
  | whole _ short => cases short.symm.trans (isLong_of_key arrives.valid long hk)
  | part _ _ stored calls =>
    subst hp hk
    refine ⟨(stored _ _).trans (if_pos ⟨rfl, rfl⟩), ?_⟩
    rw [Event.tables, Event.calls, calls]
    show _ = ((d.assemblyFor x.sect).received x.sect).2.toList
    cases hr : ((d.assemblyFor x.sect).received x.sect).2 with
    | none => rfl
    | some t =>
      have hid := (ready.eq_of_received arrives.valid hr).2.2
      simp [Call.table?, (isOf_iff_of_identity hid).2]

theorem tables_eq_nil (h : ∀ t, .table t ∈ x.calls → t.isOf pid key = false) :
    (Event.handled x).tables pid key = [] := by
  apply List.filter_eq_nil_iff.2
  intro t ht hof
  obtain ⟨c, hc, hct⟩ := List.mem_filterMap.1 ht
  cases c with
  | table u =>
    obtain rfl := Option.some.inj hct
    cases (h u hc).symm.trans hof
  | sect s => cases hct
  | invalid data => cases hct

theorem Touches.of_no_arrival (h : d.Touches x e)
    (ready : (d.assemblyFor x.sect).Ready x.sect.pid x.sect.key)
    (other : ¬ (x.Arrives ∧ x.sect.pid = pid ∧ x.sect.key = key)) :
    e.assembly? pid key = d.assembly? pid key ∧ (Event.handled x).tables pid key = [] := by
  have hnot {t : Table} (arrives : x.Arrives) (hid : t.identity = some (.ofSection x.sect)) :
      t.isOf pid key = false := by
    rw [Bool.eq_false_iff]
    exact fun hof ↦ other ⟨arrives, (isOf_iff_of_identity hid).1 hof⟩
  cases h with
  | aside _ same calls =>
    exact ⟨assembly?_congr same _ _, tables_eq_nil fun t ht ↦ absurd ht (calls t)⟩
  | whole arrives _ same calls =>
    refine ⟨assembly?_congr same _ _, tables_eq_nil fun t ht ↦ hnot arrives ?_⟩
    rw [calls, List.mem_singleton] at ht
    obtain rfl := Call.table.inj ht
    rfl
  | part arrives _ stored calls =>
    constructor
    · rw [stored, if_neg]
      exact fun hq ↦ other ⟨arrives, hq.1.symm, hq.2.symm⟩
    · refine tables_eq_nil fun t ht ↦ hnot arrives ?_
      rw [calls] at ht
      obtain ⟨u, hu, hut⟩ := List.mem_map.1 ht
      obtain rfl := Call.table.inj hut
      exact (ready.eq_of_received arrives.valid (Option.mem_toList.1 hu)).2.2

theorem Step.of_arrival (step : Step m event n) (h : m.Sound)
    (long : key.extension.isSome = true) {s : Section} (arrived : event.arrival? pid key = some s) :
    n.demux.assembly? pid key = some (((m.demux.assembly? pid key).getD {}).received s).1 ∧
      event.tables pid key = (((m.demux.assembly? pid key).getD {}).received s).2.toList := by
  obtain ⟨x, rfl, arrives, rfl, hp, hk⟩ := arrival?_eq_some_iff.1 arrived
  cases step with
  | handle done =>
    exact (h.touches done).of_arrival long (ready_assemblyFor h.holds _) arrives hp hk

theorem Step.of_no_arrival (step : Step m event n) (h : m.Sound)
    (other : event.arrival? pid key = none) :
    n.demux.assembly? pid key =
        (if event.forgets pid then none else m.demux.assembly? pid key) ∧
      event.tables pid key = [] := by
  cases step with
  | take _ _ counted =>
    have hsame := assembly?_congr (substreams_of_count counted) pid key
    exact ⟨hsame.trans (assembly?_advanced _ _ _ _), rfl⟩
  | handle done =>
    refine (h.touches done).of_no_arrival (ready_assemblyFor h.holds _) fun hx ↦ ?_
    rw [Event.arrival?, if_pos hx] at other
    cases other
  | settle d => exact ⟨assembly?_of_forgotten (get?_settle_eq d) _ _, rfl⟩
  | forget left => exact ⟨assembly?_of_forgotten left _ _, rfl⟩
  | change same => exact ⟨assembly?_congr same _ _, rfl⟩

theorem Moment.Sound.ready (h : m.Sound) (pid : Pid) (key : TableKey) :
    ((m.demux.assembly? pid key).getD {}).Ready pid key := by
  cases ha : m.demux.assembly? pid key with
  | none => exact .inl rfl
  | some a => exact .inr (h.holds pid key a ha)

def tabulator : Demux Unit :=
  (addPid { options := { checksums := .ignore }, handlerState := () } .pat).setDelivery
    (some (.tables fun state _ _ ↦ { state }))

theorem reachable_tabulator : Moment.Reachable ⟨tabulator, none⟩ :=
  Reachable.moment (.setDelivery (.addPid (.start _ _) _) _)

def part (version number last : UInt8) : Section :=
  .ofBytes .ignore [0x42, 0xb0, 9, 0, 1, 0xc1 + 2 * version, number, last, 0, 0, 0, 0] .pat

def tabled (s : Section) (tables : List Table) : Handling := ⟨s, true, true, tables.map .table⟩

theorem exists_run_tabulator {p : Packet} {handled : List Handling}
    (filtered : tabulator.hasPid p.pid = true)
    (h : ((tabulator.work p).toOption.bind fun r ↦ some r.2) = some handled) :
    ∃ n, Run ⟨tabulator, none⟩ (.taken p :: handled.map .handled) n := by
  obtain ⟨⟨d, others⟩, hwork, hothers⟩ := toOption_bind_eq_some_iff.1 h
  obtain rfl := Option.some.inj hothers
  exact ⟨_, run_of_work (by decide) filtered hwork⟩

end Demux

end TransportStream
