import TransportStream.Proofs.Table.Versions

namespace TransportStream

namespace Table

variable {id : Identity} {t : Table} {s : Section} {arrived : List Section}

/-- Whether a table holds what has arrived: of the sections with one number, the first. -/
structure Gathers (t : Table) (id : Identity) (arrived : List Section) : Prop where
  valid : t.Valid
  identity : t.identity = some id
  get?_eq : ∀ number ≤ id.last, t.get? number = arrived.find? (·.number = number)

theorem gathers_reserve (id : Identity) : (reserve id).Gathers id [] where
  valid := valid_reserve id
  identity := rfl
  get?_eq := fun number _ ↦ get?_reserve id number

theorem find?_append_singleton (arrived : List Section) (s : Section) (number : UInt8) :
    (arrived ++ [s]).find? (·.number = number) =
      (arrived.find? (·.number = number)).or (if s.number = number then some s else none) := by
  rw [List.find?_append, List.find?_singleton]
  by_cases hn : s.number = number <;> simp [hn]

theorem Gathers.again (h : t.Gathers id arrived) (known : (t.get? s.number).isSome = true) :
    t.Gathers id (arrived ++ [s]) where
  valid := h.valid
  identity := h.identity
  get?_eq := by
    intro number hle
    rw [find?_append_singleton, h.get?_eq number hle]
    by_cases hn : s.number = number
    · subst hn
      rw [h.get?_eq _ hle] at known
      obtain ⟨u, hu⟩ := Option.isSome_iff_exists.1 known
      rw [hu]
      rfl
    · rw [if_neg hn, Option.or_none]

theorem Gathers.fill (h : t.Gathers id arrived) (valid : s.defect = none)
    (same : Identity.ofSection s = id) (free : t.slots[s.number.toNat]? = some none) :
    (t.fill s).Gathers id (arrived ++ [s]) where
  valid := h.valid.fill valid (same ▸ h.identity) free
  identity := h.identity
  get?_eq := by
    intro number hle
    obtain ⟨hlt, -⟩ := List.getElem?_eq_some_iff.1 free
    rw [get?_fill hlt, find?_append_singleton, ← h.get?_eq number hle]
    by_cases hn : s.number = number
    · subst hn
      rw [if_pos rfl, if_pos rfl, (get?_eq_none_iff hlt).2 free, Option.none_or]
    · rw [if_neg hn, if_neg hn, Option.or_none]

theorem Valid.isComplete_iff_get? (h : t.Valid) (identity : t.identity = some id) :
    t.isComplete = true ↔ ∀ number ≤ id.last, (t.get? number).isSome = true := by
  have hlength := h.length_slots
  rw [identity, Option.elim_some] at hlength
  rw [h.isComplete_iff]
  constructor
  · intro ⟨_, hall⟩ number hle
    have hlt : number.toNat < t.slots.length := by
      rw [hlength]
      exact Nat.lt_succ_of_le (UInt8.le_iff_toNat_le.1 hle)
    rw [get?, List.getElem?_eq_getElem hlt]
    exact hall _ (List.getElem_mem hlt)
  · intro hall
    refine ⟨List.ne_nil_of_length_pos (by omega), fun o ho ↦ ?_⟩
    obtain ⟨i, hi, rfl⟩ := List.getElem_of_mem ho
    have hle : i ≤ id.last.toNat := by omega
    have hnumber : (UInt8.ofNat i).toNat = i :=
      UInt8.toNat_ofNat_of_lt' (Nat.lt_of_le_of_lt hle id.last.toNat_lt)
    have hsome := hall (UInt8.ofNat i) (UInt8.le_iff_toNat_le.2 (by rw [hnumber]; exact hle))
    rw [get?, hnumber, List.getElem?_eq_getElem hi] at hsome
    exact hsome

theorem Gathers.isComplete_iff (h : t.Gathers id arrived) :
    t.isComplete = true ↔ ∀ number ≤ id.last, ∃ s ∈ arrived, s.number = number := by
  rw [h.valid.isComplete_iff_get? h.identity]
  refine forall_congr' fun number ↦ forall_congr' fun hle ↦ ?_
  rw [h.get?_eq number hle, List.find?_isSome]
  simp only [decide_eq_true_eq]

end Table

namespace TableAssembly

variable {a : TableAssembly} {id : Table.Identity} {arrived : List Section} {tables : List Table}
  {s : Section}

def IsFreshFor (a : TableAssembly) (id : Table.Identity) : Prop :=
  a = {} ∨ (a.table.version, a.table.applicability) ≠ (id.version, id.applicability)

inductive Collects (id : Table.Identity) : TableAssembly → List Section → List Table → Prop
  | start {a : TableAssembly} (fresh : a.IsFreshFor id) : Collects id a [] []
  | underway {t : Table} {arrived : List Section} (gathers : t.Gathers id arrived) :
      Collects id (outcome t).1 arrived (outcome t).2.toList

theorem IsFreshFor.received (h : a.IsFreshFor (.ofSection s)) :
    a.received s = outcome (.single s) := by
  rcases h with rfl | hv
  · exact received_of_other nofun rfl
  · refine received_of_other (fun same ↦ hv ?_) ?_
    · simp [Table.version, Table.applicability, same]
    · have hversion : a.sameVersion s = false := by
        rw [Bool.eq_false_iff]
        intro same
        obtain ⟨h₁, h₂⟩ := Bool.and_eq_true_iff.1 same
        exact hv (Prod.ext (eq_of_beq h₁) (eq_of_beq h₂))
      rw [hversion, Bool.and_false]

theorem received_of_gathers {t : Table} (gathers : t.Gathers (.ofSection s) arrived)
    (valid : s.defect = none) :
    (outcome t).1.received s = ((outcome t).1, none) ∧ (t.get? s.number).isSome = true ∨
      (outcome t).1.received s = outcome (t.fill s) ∧ t.slots[s.number.toNat]? = some none := by
  have hbase : (outcome t).1.base s = t := if_pos gathers.identity
  have hlt := Table.number_lt_length gathers.valid valid gathers.identity
  cases hget : t.get? s.number with
  | some known =>
    -- Whether the version has been delivered makes no difference.
    left
    refine ⟨?_, rfl⟩
    rw [received, hbase, hget]
    split <;> rfl
  | none =>
    right
    have hfree := (Table.get?_eq_none_iff hlt).1 hget
    have hpending : (outcome t).1.delivered = false := gathers.valid.isComplete_eq_false hfree
    refine ⟨?_, hfree⟩
    rw [received, hbase, hget, hpending]
    rfl

theorem Collects.received (h : Collects id a arrived tables) (valid : s.defect = none)
    (same : Table.Identity.ofSection s = id) :
    Collects id (a.received s).1 (arrived ++ [s]) (tables ++ (a.received s).2.toList) := by
  subst same
  cases h with
  | start fresh =>
    rw [fresh.received]
    exact .underway ((Table.gathers_reserve _).fill valid rfl (Table.slots_reserve_free valid))
  | underway gathers =>
    rcases received_of_gathers gathers valid with ⟨hr, hsome⟩ | ⟨hr, hfree⟩
    · rw [hr, Option.toList_none, List.append_nil]
      exact .underway (gathers.again hsome)
    · have hpending := gathers.valid.isComplete_eq_false hfree
      rw [hr, outcome_of_incomplete hpending]
      exact .underway (gathers.fill valid rfl hfree)

theorem Collects.complete_or_missing (h : Collects id a arrived tables) :
    (∀ number ≤ id.last, ∃ s ∈ arrived, s.number = number) ∧
        (∃ t, tables = [t] ∧ t.isComplete = true ∧ t.Gathers id arrived) ∨
      (∃ number ≤ id.last, ∀ s ∈ arrived, s.number ≠ number) ∧ tables = [] := by
  cases h with
  | start => exact .inr ⟨⟨id.last, UInt8.le_refl _, nofun⟩, rfl⟩
  | @underway t _ gathers =>
    cases complete : t.isComplete with
    | true =>
      rw [outcome_of_complete complete]
      exact .inl ⟨gathers.isComplete_iff.1 complete, t, rfl, complete, gathers⟩
    | false =>
      rw [outcome_of_incomplete complete]
      right
      refine ⟨?_, rfl⟩
      apply Classical.byContradiction
      intro missing
      refine Bool.eq_false_iff.1 complete (gathers.isComplete_iff.2 fun number hle ↦ ?_)
      apply Classical.byContradiction
      intro none_arrived
      exact missing ⟨number, hle, fun s hs he ↦ none_arrived ⟨s, hs, he⟩⟩

end TableAssembly

namespace Demux

variable {σ : Type} {m n : Moment σ} {event : Event} {events : List Event} {pid : Pid}
  {id : Table.Identity} {arrived : List Section} {tables : List Table}

def Moment.assembly (m : Moment σ) (id : Table.Identity) : TableAssembly :=
  (m.demux.assembly? id.pid id.key).getD {}

theorem ofSection_of_mem_arrivals {s : Section} (hs : s ∈ arrivals id.pid id.key events)
    (hversion : s.version = id.version) (happlicability : s.applicability = id.applicability)
    (hlast : s.last = id.last) : Table.Identity.ofSection s = id := by
  obtain ⟨event, -, hs⟩ := List.mem_filterMap.1 hs
  obtain ⟨x, -, -, -, hpid, hkey⟩ := arrival?_eq_some_iff.1 hs
  obtain ⟨htableId, hextension⟩ := TableKey.mk.inj hkey
  rw [Table.Identity.ofSection, hpid, htableId, hextension, hversion, happlicability, hlast]

theorem Step.collects (step : Step m event n) (h : m.Sound) (long : id.extension.isSome = true)
    (kept : event.forgets id.pid = false)
    (uniform : ∀ s, event.arrival? id.pid id.key = some s → Table.Identity.ofSection s = id)
    (hm : TableAssembly.Collects id (m.assembly id) arrived tables) :
    TableAssembly.Collects id (n.assembly id) (arrived ++ (event.arrival? id.pid id.key).toList)
      (tables ++ event.tables id.pid id.key) := by
  cases ha : event.arrival? id.pid id.key with
  | none =>
    obtain ⟨hnext, htables⟩ := step.of_no_arrival h ha
    rw [kept] at hnext
    have hsame : n.assembly id = m.assembly id := by
      rw [Moment.assembly, hnext]
      rfl
    rw [hsame, htables, Option.toList_none, List.append_nil, List.append_nil]
    exact hm
  | some s =>
    obtain ⟨hnext, htables⟩ := step.of_arrival h long ha
    obtain ⟨x, -, arrives, rfl, -⟩ := arrival?_eq_some_iff.1 ha
    have hreceived : n.assembly id = ((m.assembly id).received x.sect).1 := by
      rw [Moment.assembly, hnext]
      rfl
    rw [hreceived, htables, Option.toList_some]
    exact hm.received arrives.valid (uniform _ ha)

theorem Run.collects (run : Run m events n) (h : m.Sound) (long : id.extension.isSome = true)
    (kept : ∀ event ∈ events, event.forgets id.pid = false)
    (uniform : ∀ s ∈ arrivals id.pid id.key events, Table.Identity.ofSection s = id)
    (fresh : (m.assembly id).IsFreshFor id) :
    TableAssembly.Collects id (n.assembly id) (arrivals id.pid id.key events)
      (deliveries id.pid id.key events) := by
  refine (run.preserves (I := fun past m ↦ m.Sound ∧ TableAssembly.Collects id (m.assembly id)
    (arrivals id.pid id.key past) (deliveries id.pid id.key past)) ⟨h, .start fresh⟩ ?_).2
  rintro past m n event he step ⟨hm, hcollects⟩
  rw [arrivals_append_singleton, deliveries_append_singleton]
  refine ⟨hm.step step, step.collects hm long (kept event he) (fun s hs ↦ ?_) hcollects⟩
  exact uniform s (mem_arrivals he hs)

/-- Of sections of one version of a new table, in any order and between any others, a table is
delivered at the moment when each number has come. It holds the first section of each, and is the
only one. Meanwhile no piece of data is refused, unless a counter overflows. -/
theorem Run.delivers_when_all_arrived {tableId last : UInt8} {extension : UInt16} {version : Nat}
    {applicability : Applicability} (reachable : m.Reachable) (run : Run m events n)
    (fresh : ∀ a, m.demux.assembly? pid ⟨tableId, some extension⟩ = some a →
      (a.table.version, a.table.applicability) ≠ (version, applicability))
    (kept : ∀ event ∈ events, event.forgets pid = false)
    (uniform : ∀ s ∈ arrivals pid ⟨tableId, some extension⟩ events,
      s.version = version ∧ s.applicability = applicability ∧ s.last = last) :
    (∀ past future, events = past ++ future →
      (∀ number ≤ last, ∃ s ∈ arrivals pid ⟨tableId, some extension⟩ past, s.number = number) ∧
          (∃ t, deliveries pid ⟨tableId, some extension⟩ past = [t] ∧ t.isComplete = true ∧
            t.identity = some ⟨pid, tableId, some extension, version, applicability, last⟩ ∧
            ∀ number ≤ last, t.get? number =
              (arrivals pid ⟨tableId, some extension⟩ past).find? (·.number = number)) ∨
        (∃ number ≤ last, ∀ s ∈ arrivals pid ⟨tableId, some extension⟩ past, s.number ≠ number) ∧
          deliveries pid ⟨tableId, some extension⟩ past = []) ∧
    ∀ q data rest, n.work = some (q, data :: rest) →
      (∃ e calls, (n.demux.handlePiece q data).value = .ok (e, calls)) ∨
        (n.demux.handlePiece q data).value = .error .overflow := by
  constructor
  · rintro past future rfl
    obtain ⟨o, hpast, -⟩ := run.split
    let id : Table.Identity := ⟨pid, tableId, some extension, version, applicability, last⟩
    have hfresh : (m.assembly id).IsFreshFor id := by
      unfold Moment.assembly
      cases ha : m.demux.assembly? id.pid id.key with
      | none => exact .inl rfl
      | some a => exact .inr (fresh a ha)
    have huniform : ∀ s ∈ arrivals id.pid id.key past, Table.Identity.ofSection s = id := by
      intro s hs
      obtain ⟨hversion, happlicability, hlast⟩ := uniform s (by
        rw [arrivals, List.filterMap_append]
        exact List.mem_append_left _ hs)
      exact ofSection_of_mem_arrivals hs hversion happlicability hlast
    have hcollects := hpast.collects reachable.sound rfl
      (fun event he ↦ kept event (List.mem_append_left _ he)) huniform hfresh
    rcases hcollects.complete_or_missing with ⟨hall, t, htables, complete, gathers⟩ | hmissing
    · exact .inl ⟨hall, t, htables, complete, gathers.identity, gathers.get?_eq⟩
    · exact .inr hmissing
  · intro q data rest hw
    obtain ⟨d, work⟩ := n
    subst hw
    exact (reachable.sound.run run).exists_handlePiece

def outOfOrder : List Section := [part 0 1 1, part 0 1 1, part 0 0 1]

def outOfOrderEvents : List Event :=
  [.taken (.leading .pat (outOfOrder.flatMap (·.bytes))), .handled (tabled (part 0 1 1) []),
    .handled (tabled (part 0 1 1) []),
    .handled (tabled (part 0 0 1) [(Table.single (part 0 1 1)).fill (part 0 0 1)])]

theorem Run.delivers_when_all_arrived_pair : ∃ t, t.isComplete = true ∧
    deliveries .pat ⟨0x42, some 1⟩ outOfOrderEvents = [t] ∧
    ∀ number ≤ 1, t.get? number = outOfOrder.find? (·.number = number) := by
  have hwork : ((tabulator.work (.leading .pat (outOfOrder.flatMap (·.bytes)))).toOption.bind
      fun r ↦ some r.2) =
      some [tabled (part 0 1 1) [], tabled (part 0 1 1) [],
        tabled (part 0 0 1) [(Table.single (part 0 1 1)).fill (part 0 0 1)]] := by
    decide +kernel
  obtain ⟨n, hrun⟩ := exists_run_tabulator (by decide +kernel) hwork
  have harrivals : arrivals .pat ⟨0x42, some 1⟩ outOfOrderEvents = outOfOrder := by
    decide +kernel
  obtain ⟨h, -⟩ := @Run.delivers_when_all_arrived Unit _ n outOfOrderEvents .pat 0x42 1 1 0
    .current reachable_tabulator hrun nofun (by simp [outOfOrderEvents, Event.forgets])
    (by decide +kernel)
  rcases h _ [] (List.append_nil _).symm with ⟨-, t, ht, complete, -, hget⟩ | ⟨-, hnone⟩
  · rw [harrivals] at hget
    exact ⟨t, complete, ht, hget⟩
  · exact absurd hnone (by decide +kernel)

end Demux

end TransportStream
