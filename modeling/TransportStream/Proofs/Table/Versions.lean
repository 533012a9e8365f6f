import TransportStream.Proofs.Table.Arrivals

namespace TransportStream

theorem TableAssembly.received_of_delivered {a : TableAssembly} {s : Section}
    (delivered : a.delivered = true) (same : a.sameVersion s = true) : a.received s = (a, none) :=
  if_pos (by rw [delivered, same]; rfl)

namespace Demux

variable {σ : Type} {m n : Moment σ} {event : Event} {events : List Event} {pid : Pid}
  {key : TableKey} {a : TableAssembly}

theorem Step.keeps_delivered (step : Step m event n) (h : m.Sound)
    (long : key.extension.isSome = true) (known : m.demux.assembly? pid key = some a)
    (delivered : a.delivered = true) (kept : event.forgets pid = false)
    (same : ∀ s, event.arrival? pid key = some s → a.sameVersion s = true) :
    n.demux.assembly? pid key = some a ∧ event.tables pid key = [] := by
  cases ha : event.arrival? pid key with
  | none =>
    obtain ⟨hnext, htables⟩ := step.of_no_arrival h ha
    rw [kept] at hnext
    exact ⟨hnext.trans known, htables⟩
  | some s =>
    obtain ⟨hnext, htables⟩ := step.of_arrival h long ha
    have hr := TableAssembly.received_of_delivered delivered (same s ha)
    rw [known, Option.getD_some, hr] at hnext htables
    exact ⟨hnext, htables⟩

/-- Nothing of a delivered version changes its table, or leads to another. -/
theorem Run.keeps_delivered (run : Run m events n) (h : m.Sound)
    (long : key.extension.isSome = true) (known : m.demux.assembly? pid key = some a)
    (delivered : a.delivered = true) (kept : ∀ event ∈ events, event.forgets pid = false)
    (same : ∀ s ∈ arrivals pid key events, a.sameVersion s = true) :
    deliveries pid key events = [] := by
  refine (run.preserves (I := fun past m ↦ m.Sound ∧ m.demux.assembly? pid key = some a ∧
    deliveries pid key past = []) ⟨h, known, rfl⟩ ?_).2.2
  rintro past m n event he step ⟨hm, hknown, hnone⟩
  obtain ⟨hnext, htables⟩ := step.keeps_delivered hm long hknown delivered (kept event he)
    fun s hs ↦ same s (mem_arrivals he hs)
  refine ⟨hm.step step, hnext, ?_⟩
  rw [deliveries_append_singleton, hnone, htables]
  rfl

theorem mem_tables_of_call {x : Handling} {t : Table} (call : .table t ∈ x.calls)
    (ht : t.isOf pid key = true) : t ∈ (Event.handled x).tables pid key :=
  List.mem_filter.2 ⟨List.mem_filterMap.2 ⟨_, call, rfl⟩, ht⟩

theorem Step.assembly?_of_table {x : Handling} {t : Table} (step : Step m (.handled x) n)
    (h : m.Sound) (long : key.extension.isSome = true) (call : .table t ∈ x.calls)
    (ht : t.isOf pid key = true) :
    n.demux.assembly? pid key = some { table := t, delivered := true } := by
  have hmem := mem_tables_of_call call ht
  cases ha : (Event.handled x).arrival? pid key with
  | none =>
    rw [(step.of_no_arrival h ha).2] at hmem
    cases hmem
  | some s =>
    obtain ⟨y, -, arrives, rfl, rfl, rfl⟩ := arrival?_eq_some_iff.1 ha
    obtain ⟨hnext, htables⟩ := step.of_arrival h long ha
    rw [htables] at hmem
    have hready := h.ready y.sect.pid y.sect.key
    rw [hnext, (hready.eq_of_received arrives.valid (Option.mem_toList.1 hmem)).1]

/-- Between two tables of one key, unless the substream was forgotten, a section of the key has come
whose version differs from that of the first. -/
theorem Run.exists_other_version {before between after : List Event} {x y : Handling}
    {t u : Table} {tableId : UInt8} {extension : UInt16} (reachable : m.Reachable)
    (run : Run m (before ++ .handled x :: (between ++ .handled y :: after)) n)
    (first : .table t ∈ x.calls) (second : .table u ∈ y.calls)
    (ht : t.isOf pid ⟨tableId, some extension⟩ = true)
    (hu : u.isOf pid ⟨tableId, some extension⟩ = true)
    (kept : ∀ event ∈ between, event.forgets pid = false) :
    ∃ z : Handling, .handled z ∈ between ++ [.handled y] ∧ z.Arrives ∧ z.sect.pid = pid ∧
      z.sect.key = ⟨tableId, some extension⟩ ∧
      (z.sect.version, z.sect.applicability) ≠ (t.version, t.applicability) := by
  obtain ⟨m₁, hbefore, hrest⟩ := run.split
  cases hrest with
  | @cons _ m₂ _ _ _ hx hrest =>
    have hsound : m₁.Sound := reachable.sound.run hbefore
    have hknown := hx.assembly?_of_table hsound rfl first ht
    rw [List.append_cons] at hrest
    obtain ⟨m₃, hbetween, -⟩ := hrest.split
    apply Classical.byContradiction
    intro hsame
    have hremembered : ∀ event ∈ between ++ [.handled y], event.forgets pid = false := by
      intro event he
      rcases List.mem_append.1 he with he | he
      · exact kept event he
      · rw [List.mem_singleton.1 he]
        rfl
    have hversion : ∀ s ∈ arrivals pid ⟨tableId, some extension⟩ (between ++ [.handled y]),
        TableAssembly.sameVersion { table := t, delivered := true } s = true := by
      intro s hs
      obtain ⟨event, he, hs⟩ := List.mem_filterMap.1 hs
      obtain ⟨z, rfl, arrives, rfl, hp, hk⟩ := arrival?_eq_some_iff.1 hs
      apply Classical.byContradiction
      intro hv
      refine hsame ⟨z, he, arrives, hp, hk, fun heq ↦ hv ?_⟩
      obtain ⟨h₁, h₂⟩ := Prod.mk.inj heq
      simp [TableAssembly.sameVersion, h₁, h₂]
    -- All that has come since is of the version delivered first, so nothing is delivered.
    have hnone := hbetween.keeps_delivered (hsound.step hx) rfl hknown rfl hremembered hversion
    have hmem : u ∈ deliveries pid ⟨tableId, some extension⟩ (between ++ [.handled y]) :=
      List.mem_flatMap.2 ⟨_, List.mem_append_right _ (List.mem_singleton_self _),
        mem_tables_of_call second hu⟩
    rw [hnone] at hmem
    cases hmem

theorem Run.exists_other_version_pair : ∃ z : Handling, z.Arrives ∧ z.sect.pid = .pat ∧
    z.sect.key = ⟨0x42, some 1⟩ ∧ (z.sect.version, z.sect.applicability) ≠ (0, .current) := by
  have hwork : ((tabulator.work
      (.leading .pat ((part 0 0 0).bytes ++ (part 1 0 0).bytes))).toOption.bind fun r ↦ some r.2) =
      some [tabled (part 0 0 0) [.single (part 0 0 0)],
        tabled (part 1 0 0) [.single (part 1 0 0)]] := by
    decide +kernel
  obtain ⟨n, hrun⟩ := exists_run_tabulator (by decide +kernel) hwork
  obtain ⟨z, -, hz⟩ := @Run.exists_other_version Unit _ n .pat [_] [] [] _ _ _ _ 0x42 1
    reachable_tabulator hrun (List.mem_singleton_self _) (List.mem_singleton_self _)
    (by decide +kernel) (by decide +kernel) nofun
  exact ⟨z, hz⟩

end Demux

end TransportStream
