import TransportStream.Proofs.Demux.Provenance
import TransportStream.Proofs.Table.Arrivals

namespace TransportStream.Demux

variable {σ : Type} {d e : Demux σ} {m n : Moment σ} {event : Event} {past events : List Event}
  {x : Handling} {t : Table} {pid : Pid} {data : Bytes}

def Event.follow (pid : Pid) (packets : List Packet) : Event → List Packet
  | .taken p => if p.pid = pid then packets ++ [p] else packets
  | .forgotten lost => if lost pid then [] else packets
  | .handled _ | .changed => packets

/-- The packets of a substream that were taken since it was last forgotten. -/
def since (pid : Pid) (events : List Event) : List Packet :=
  events.foldl (Event.follow pid) []

theorem since_append_singleton (pid : Pid) (past : List Event) (event : Event) :
    since pid (past ++ [event]) = event.follow pid (since pid past) := by
  rw [since, List.foldl_append]
  rfl

theorem pid_of_mem_follow {packets : List Packet} (h : ∀ p ∈ packets, p.pid = pid) :
    ∀ p ∈ event.follow pid packets, p.pid = pid := by
  cases event with
  | taken q =>
    rw [Event.follow]
    split
    · next hq =>
      intro p hp
      rcases List.mem_append.1 hp with hp | hp
      · exact h p hp
      · rw [List.mem_singleton.1 hp, hq]
    · exact h
  | forgotten lost =>
    rw [Event.follow]
    split
    · exact nofun
    · exact h
  | handled | changed => exact h

theorem pid_of_mem_since (pid : Pid) (events : List Event) :
    ∀ p ∈ since pid events, p.pid = pid := by
  have hfold : ∀ packets : List Packet, (∀ p ∈ packets, p.pid = pid) →
      ∀ p ∈ events.foldl (Event.follow pid) packets, p.pid = pid := by
    induction events with
    | nil => exact fun _ h ↦ h
    | cons event rest ih => exact fun _ h ↦ ih _ (pid_of_mem_follow h)
  exact hfold [] nofun

theorem mem_extracted_append (h : data ∈ Reassembly.extracted pid (since pid past))
    (kept : event.forgets pid = false) :
    data ∈ Reassembly.extracted pid (since pid (past ++ [event])) := by
  rw [since_append_singleton]
  cases event with
  | taken p =>
    rw [Event.follow]
    split
    · rw [Reassembly.extracted_append_singleton]
      exact List.mem_append_left _ h
    · exact h
  | forgotten lost =>
    have hlost : lost pid = false := kept
    rw [Event.follow, hlost]
    exact h
  | handled | changed => exact h

/-- Whether what is known of the substreams comes from the packets that they took since they were
last forgotten. -/
structure Moment.Accounted (m : Moment σ) (past : List Event) : Prop where
  reassembly : ∀ pid, (m.demux.substream pid).reassembly =
    (({ pid } : Reassembly).run (since pid past)).1
  work : ∀ pid pieces, m.work = some (pid, pieces) →
    ∀ data ∈ pieces, data ∈ Reassembly.extracted pid (since pid past)
  sections : ∀ pid key a, m.demux.assembly? pid key = some a →
    ∀ s ∈ a.table.sections, s.bytes ∈ Reassembly.extracted pid (since pid past)

theorem reassembly_congr (h : (e.substreams.get? pid).map (·.reassembly) =
    (d.substreams.get? pid).map (·.reassembly)) :
    (e.substream pid).reassembly = (d.substream pid).reassembly := by
  rw [reassembly_substream, reassembly_substream, h]

theorem reassembly_advanced (d : Demux σ) (p : Packet) (q : Pid) :
    ((d.advanced p).substream q).reassembly =
      if q = p.pid then ((d.substream q).reassembly.next p).1 else (d.substream q).reassembly := by
  rw [reassembly_substream, advanced, FiniteMap.get?_insert]
  split
  · next hq =>
    subst hq
    rfl
  · rw [reassembly_substream]

theorem Moment.Accounted.take {p : Packet} (h : Moment.Accounted ⟨d, none⟩ past)
    (same : e.substreams = (d.advanced p).substreams) :
    Moment.Accounted ⟨e, some (p.pid, (d.findings p).pieces)⟩ (past ++ [.taken p]) := by
  constructor
  · intro q
    rw [reassembly_congr (congrArg (fun m ↦ (m.get? q).map (·.reassembly)) same),
      reassembly_advanced, since_append_singleton, Event.follow]
    by_cases hq : q = p.pid
    · rw [if_pos hq, if_pos hq.symm, Reassembly.run_append_singleton, h.reassembly q]
    · rw [if_neg hq, if_neg (Ne.symm hq), h.reassembly q]
  · intro q pieces hw data hd
    obtain ⟨rfl, rfl⟩ := Prod.mk.inj (Option.some.inj hw)
    rw [since_append_singleton, Event.follow, if_pos rfl, Reassembly.extracted_append_singleton]
    rw [findings, h.reassembly p.pid] at hd
    exact List.mem_append_right _ hd
  · intro q key a ha s hs
    rw [assembly?_congr same, assembly?_advanced] at ha
    exact mem_extracted_append (h.sections q key a ha s hs) rfl

theorem Moment.Accounted.mem_received {rest : List Bytes} {s : Section}
    (h : Moment.Accounted ⟨d, some (pid, data :: rest)⟩ past)
    (sound : Moment.Sound ⟨d, some (pid, data :: rest)⟩)
    (valid : (d.asSection pid data).defect = none)
    (hs : s ∈ ((d.assemblyFor (d.asSection pid data)).received
      (d.asSection pid data)).1.table.sections) :
    s.bytes ∈ Reassembly.extracted pid (since pid past) := by
  have hready := ready_assemblyFor sound.holds (d.asSection pid data)
  rcases hready.mem_sections_received valid hs with rfl | hs
  · exact h.work pid _ rfl data (List.mem_cons_self ..)
  · unfold assemblyFor at hs
    cases ha : d.assembly? (d.asSection pid data).pid (d.asSection pid data).key with
    | none =>
      rw [ha] at hs
      cases hs
    | some a =>
      rw [ha] at hs
      exact h.sections pid _ a ha s hs

theorem Moment.Accounted.handle {rest : List Bytes} {calls : List Call}
    (h : Moment.Accounted ⟨d, some (pid, data :: rest)⟩ past)
    (sound : Moment.Sound ⟨d, some (pid, data :: rest)⟩)
    (done : (d.handlePiece pid data).value = .ok (e, calls)) :
    Moment.Accounted ⟨e, some (pid, rest)⟩ (past ++ [.handled (d.handling pid data calls)]) := by
  have hsince : ∀ q, since q (past ++ [.handled (d.handling pid data calls)]) = since q past :=
    fun q ↦ since_append_singleton q past _
  constructor
  · intro q
    rw [hsince, reassembly_congr ((pass_of_handlePiece done).keeps.reassembly q)]
    exact h.reassembly q
  · intro q pieces hw piece hp
    obtain ⟨rfl, rfl⟩ := Prod.mk.inj (Option.some.inj hw)
    rw [hsince]
    exact h.work _ _ rfl piece (List.mem_cons_of_mem _ hp)
  · intro q key a ha s hs
    rw [hsince]
    cases sound.touches done with
    | aside _ same =>
      rw [assembly?_congr same] at ha
      exact h.sections q key a ha s hs
    | whole _ _ same =>
      rw [assembly?_congr same] at ha
      exact h.sections q key a ha s hs
    | part arrives _ stored _ =>
      rw [stored] at ha
      split at ha
      · next hq =>
        obtain ⟨rfl, rfl⟩ := hq
        obtain rfl := Option.some.inj ha
        exact h.mem_received sound arrives.valid hs
      · exact h.sections q key a ha s hs

theorem Moment.Accounted.forget {lost : Pid → Bool} {work : Option (Pid × List Bytes)}
    (h : Moment.Accounted ⟨d, work⟩ past)
    (left : ∀ q, e.substreams.get? q = if lost q then none else d.substreams.get? q) :
    Moment.Accounted ⟨e, none⟩ (past ++ [.forgotten lost]) := by
  have hsince : ∀ q, since q (past ++ [.forgotten lost]) = if lost q then [] else since q past :=
    fun q ↦ since_append_singleton q past _
  constructor
  · intro q
    rw [hsince, reassembly_substream, left]
    cases lost q with
    | true => rfl
    | false => exact (reassembly_substream d q).symm.trans (h.reassembly q)
  · exact nofun
  · intro q key a ha s hs
    rw [assembly?_of_forgotten left] at ha
    rw [hsince]
    cases hlost : lost q with
    | true =>
      rw [hlost] at ha
      cases ha
    | false =>
      rw [hlost] at ha
      exact h.sections q key a ha s hs

theorem Moment.Accounted.change (h : Moment.Accounted ⟨d, none⟩ past)
    (same : e.substreams = d.substreams) : Moment.Accounted ⟨e, none⟩ (past ++ [.changed]) := by
  have hsince : ∀ q, since q (past ++ [.changed]) = since q past :=
    fun q ↦ since_append_singleton q past _
  constructor
  · intro q
    rw [hsince, reassembly_congr (congrArg (fun m ↦ (m.get? q).map (·.reassembly)) same)]
    exact h.reassembly q
  · exact nofun
  · intro q key a ha s hs
    rw [assembly?_congr same] at ha
    rw [hsince]
    exact h.sections q key a ha s hs

theorem Step.accounted (step : Step m event n) (h : m.Accounted past) (sound : m.Sound) :
    n.Accounted (past ++ [event]) := by
  cases step with
  | take _ _ counted => exact h.take (substreams_of_count counted)
  | handle done => exact h.handle sound done
  | settle d pid => exact h.forget (get?_settle_eq d)
  | forget left => exact h.forget left
  | change same => exact h.change same

theorem accounted_start (options : DemuxOptions) (state : σ) :
    Moment.Accounted ⟨({ options, handlerState := state } : Demux σ), none⟩ [] where
  reassembly := fun _ ↦ rfl
  work := nofun
  sections := nofun

theorem Run.accounted {options : DemuxOptions} {state : σ}
    (run : Run ⟨{ options, handlerState := state }, none⟩ events m) :
    m.Accounted events ∧ m.Sound := by
  have hsound : Moment.Sound ⟨({ options, handlerState := state } : Demux σ), none⟩ :=
    Moment.Reachable.sound ⟨options, state, [], .nil _⟩
  refine run.preserves (I := fun past m ↦ m.Accounted past ∧ m.Sound)
    ⟨accounted_start options state, hsound⟩ ?_
  rintro past m n event - step ⟨haccounted, hsound⟩
  exact ⟨step.accounted haccounted hsound, hsound.step step⟩

theorem Touches.of_table (h : d.Touches x e)
    (ready : (d.assemblyFor x.sect).Ready x.sect.pid x.sect.key) (call : .table t ∈ x.calls) :
    x.Arrives ∧ t.Valid ∧ t.isComplete = true ∧ t.identity = some (.ofSection x.sect) ∧
      ∀ s ∈ t.sections, s = x.sect ∨
        s ∈ ((d.assemblyFor x.sect).received x.sect).1.table.sections := by
  cases h with
  | aside _ _ none_called => exact absurd call (none_called t)
  | whole arrives short _ calls =>
    rw [calls, List.mem_singleton] at call
    obtain rfl := Call.table.inj call
    refine ⟨arrives, ?_, Table.isComplete_of_isShort short, rfl, fun s hs ↦ ?_⟩
    · exact (Table.valid_reserve _).fill arrives.valid rfl (Table.slots_reserve_free arrives.valid)
    · rcases Table.mem_sections_fill hs with rfl | hs
      · exact .inl rfl
      · simp [Table.reserve, Table.sections] at hs
  | part arrives _ _ calls =>
    -- The assembly keeps the table that it gives away.
    rw [calls] at call
    obtain ⟨u, hu, hut⟩ := List.mem_map.1 call
    obtain rfl := Call.table.inj hut
    obtain ⟨hkept, complete, known⟩ := ready.eq_of_received arrives.valid (Option.mem_toList.1 hu)
    have hholds := ready.received arrives.valid
    rw [hkept] at hholds ⊢
    exact ⟨arrives, hholds.valid, complete, known, fun s hs ↦ .inr hs⟩

/-- A table that the handler is called with is complete, made of valid sections of one identity, one
for each number, and each of them was extracted from packets of its substream that were taken since
that was last forgotten. -/
theorem Run.sections_of_table {options : DemuxOptions} {state : σ} {before after : List Event}
    (run : Run ⟨{ options, handlerState := state }, none⟩ (before ++ .handled x :: after) m)
    (call : .table t ∈ x.calls) :
    t.isComplete = true ∧ ∃ id, t.identity = some id ∧
      t.sections.map (·.number.toNat) = List.range (id.last.toNat + 1) ∧
      (∀ p ∈ since id.pid before, p.pid = id.pid) ∧
      ∀ s ∈ t.sections, s.defect = none ∧ Table.Identity.ofSection s = id ∧
        s.bytes ∈ Reassembly.extracted id.pid (since id.pid before) ∧
        Carried (since id.pid before) s.bytes := by
  obtain ⟨o, hbefore, hrest⟩ := run.split
  obtain ⟨haccounted, hsound⟩ := hbefore.accounted
  cases hrest with
  | cons step _ =>
    cases step with
    | @handle d e pid data rest calls done =>
      obtain ⟨arrives, valid, complete, known, hsections⟩ :=
        (hsound.touches done).of_table (ready_assemblyFor hsound.holds _) call
      refine ⟨complete, _, known, valid.numbers_of_isComplete complete known,
        pid_of_mem_since _ _, fun s hs ↦ ?_⟩
      obtain ⟨hdefect, hidentity⟩ := valid.of_mem hs
      have hextracted : s.bytes ∈ Reassembly.extracted pid (since pid before) := by
        rcases hsections s hs with rfl | hs
        · exact haccounted.work pid _ rfl data (List.mem_cons_self ..)
        · exact haccounted.mem_received hsound arrives.valid hs
      exact ⟨hdefect, Option.some.inj (hidentity.symm.trans known), hextracted,
        Reassembly.carried_of_mem_extracted hextracted⟩

def lastFirst : Packet := .leading .pat ((part 0 1 1).bytes ++ (part 0 0 1).bytes)

theorem Run.sections_of_table_pair : ∃ t : Table, t.isComplete = true ∧
    t.sections = [part 0 0 1, part 0 1 1] ∧
    ∀ s ∈ t.sections, s.defect = none ∧ Carried [lastFirst] s.bytes := by
  have hwork : ((tabulator.work lastFirst).toOption.bind fun r ↦ some r.2) =
      some [tabled (part 0 1 1) [],
        tabled (part 0 0 1) [(Table.single (part 0 1 1)).fill (part 0 0 1)]] := by
    decide +kernel
  obtain ⟨n, hrun⟩ := exists_run_tabulator (by decide +kernel) hwork
  have hstart : Step ⟨{ options := { checksums := .ignore }, handlerState := () }, none⟩ .changed
      ⟨tabulator, none⟩ := .change rfl
  obtain ⟨complete, id, hid, -, -, hsections⟩ := @Run.sections_of_table Unit n _ _ _ _
    [.changed, .taken lastFirst, .handled (tabled (part 0 1 1) [])] [] (.cons hstart hrun)
    (List.mem_singleton_self _)
  obtain rfl := Option.some.inj hid
  have hsince : since .pat [.changed, .taken lastFirst, .handled (tabled (part 0 1 1) [])] =
      [lastFirst] := by
    decide +kernel
  refine ⟨_, complete, by decide +kernel, fun s hs ↦ ?_⟩
  obtain ⟨valid, -, -, carried⟩ := hsections s hs
  exact ⟨valid, hsince ▸ carried⟩

end TransportStream.Demux
