import TransportStream.Proofs.Table.Additions
import TransportStream.Proofs.Table.Arrivals

namespace TransportStream

def Notice.isRefusal : Notice → Bool
  | .sectionRejected .. | .shortSectionRejected .. => true
  | _ => false

namespace Traced

variable {α β : Type} {x : Traced α} {f : α → Traced β}

/-- Whether no refusal is reported on the way to a value. -/
def RefusesNothing (x : Traced α) : Prop :=
  ∀ a notices, x.run = .ok (a, notices) → ∀ n ∈ notices, n.isRefusal = false

theorem refusesNothing_pure (a : α) : (pure a : Traced α).RefusesNothing := by
  intro b notices h n hn
  obtain ⟨-, rfl⟩ := Prod.mk.inj (Except.ok.inj h)
  cases hn

theorem refusesNothing_note {n : Notice} (h : n.isRefusal = false) : (note n).RefusesNothing := by
  intro _ notices hrun m hm
  obtain ⟨-, rfl⟩ := Prod.mk.inj (Except.ok.inj hrun)
  rwa [List.mem_singleton.1 hm]

theorem refusesNothing_liftM (x : Except Fault α) : (liftM x : Traced α).RefusesNothing := by
  cases x with
  | ok a => exact refusesNothing_pure a
  | error fault => nofun

theorem RefusesNothing.bind (hx : x.RefusesNothing)
    (hf : ∀ a, x.value = .ok a → (f a).RefusesNothing) : (x >>= f).RefusesNothing := by
  intro b notices h n hn
  obtain ⟨run⟩ := x
  cases run with
  | error fault => cases h
  | ok r =>
    obtain ⟨a, before⟩ := r
    have hvalue : (⟨.ok (a, before)⟩ : Traced α).value = .ok a := rfl
    have hbefore := hx a before rfl
    cases hrun : (f a).run with
    | error fault =>
      simp [Bind.bind, andThen, hrun] at h
    | ok r =>
      obtain ⟨c, after⟩ := r
      simp [Bind.bind, andThen, hrun] at h
      obtain ⟨rfl, rfl⟩ := h
      rcases List.mem_append.1 hn with hn | hn
      · exact hbefore n hn
      · exact hf a hvalue c after hrun n hn

theorem RefusesNothing.bind_pure (hx : x.RefusesNothing) (g : α → β) :
    (x >>= fun a ↦ pure (g a)).RefusesNothing :=
  hx.bind fun _ _ ↦ refusesNothing_pure _

end Traced

open Traced

theorem Packet.refusesNothing_adaptationField (p : Packet) : p.adaptationField.RefusesNothing := by
  unfold adaptationField
  split
  · exact refusesNothing_pure _
  · exact refusesNothing_pure _
  · split
    · exact (refusesNothing_note rfl).bind_pure _
    · exact (refusesNothing_liftM _).bind_pure _
  · split
    · exact (refusesNothing_note rfl).bind_pure _
    · split
      · exact refusesNothing_pure _
      · exact (refusesNothing_liftM _).bind_pure _

theorem Packet.refusesNothing_payload (p : Packet) : p.payload.RefusesNothing := by
  unfold payload
  split
  · exact refusesNothing_pure _
  · split
    · exact (refusesNothing_note rfl).bind_pure _
    · split
      · exact (refusesNothing_note rfl).bind_pure _
      · exact (refusesNothing_liftM _).bind_pure _

theorem Extraction.refusesNothing_ofBytes (rule : ChecksumRule) (pid : Pid) (data : Bytes) :
    (Extraction.ofBytes rule pid data).RefusesNothing := by
  fun_induction Extraction.ofBytes rule pid data with
  | case1 => exact refusesNothing_pure _
  | case2 data hd ih =>
    refine (refusesNothing_liftM _).bind fun first _ ↦ ?_
    split
    · exact refusesNothing_pure _
    · split
      · exact refusesNothing_pure _
      · refine (refusesNothing_liftM _).bind fun front _ ↦ ?_
        refine (refusesNothing_liftM _).bind fun header _ ↦ ?_
        split
        · exact (refusesNothing_note rfl).bind_pure _
        · split
          · exact refusesNothing_pure _
          · refine (refusesNothing_liftM _).bind fun piece _ ↦ ?_
            exact (ih header).bind_pure _

namespace Reassembly

variable (r : Reassembly) (rule : ChecksumRule)

theorem refusesNothing_report (p : Packet) (arrival : Arrival) :
    (r.report p arrival).RefusesNothing := by
  cases arrival with
  | first | inSequence => exact refusesNothing_pure _
  | afterBreak | duplicate | outOfSequence => exact refusesNothing_note rfl

theorem refusesNothing_finish (tail : Bytes) : (r.finish rule tail).RefusesNothing := by
  unfold finish
  split
  · exact refusesNothing_pure _
  · refine (Extraction.refusesNothing_ofBytes _ _ _).bind fun split _ ↦ ?_
    split
    · exact refusesNothing_pure _
    · exact (refusesNothing_note rfl).bind_pure _

theorem refusesNothing_takeStart (payload : Bytes) :
    (r.takeStart rule payload).RefusesNothing := by
  unfold takeStart
  refine (refusesNothing_liftM _).bind fun first _ ↦ ?_
  refine (refusesNothing_liftM _).bind fun data _ ↦ ?_
  split
  · exact (refusesNothing_note rfl).bind_pure _
  · refine (refusesNothing_liftM _).bind fun tail _ ↦ ?_
    refine (r.refusesNothing_finish rule tail).bind fun finished _ ↦ ?_
    refine (refusesNothing_liftM _).bind fun rest _ ↦ ?_
    exact (Extraction.refusesNothing_ofBytes _ _ _).bind_pure _

theorem refusesNothing_takeContent (p : Packet) : (r.takeContent rule p).RefusesNothing := by
  unfold takeContent
  split
  · exact refusesNothing_pure _
  · refine p.refusesNothing_payload.bind fun payload _ ↦ ?_
    split
    · exact refusesNothing_pure _
    · split
      · exact r.refusesNothing_takeStart rule _
      · unfold takeMore
        split
        · exact refusesNothing_pure _
        · exact (Extraction.refusesNothing_ofBytes _ _ _).bind_pure _

theorem refusesNothing_feed (p : Packet) : (r.feed rule p).RefusesNothing := by
  unfold feed
  refine p.refusesNothing_adaptationField.bind fun field _ ↦ ?_
  refine (r.refusesNothing_report p _).bind fun _ _ ↦ ?_
  split
  · exact refusesNothing_pure _
  · exact refusesNothing_takeContent _ rule p
  · exact refusesNothing_takeContent _ rule p
  · exact refusesNothing_takeContent _ rule p
  · exact (refusesNothing_takeContent _ rule p).bind_pure _

end Reassembly

namespace TableAssembly

variable {a fresh : TableAssembly} {s : Section} {pid : Pid} {key : TableKey}

theorem Ready.sound_table (h : a.Ready pid key) : a.table.Sound := by
  rcases h with rfl | h
  · exact Table.sound_empty
  · exact ⟨h.valid, .inr h.present⟩

/-- Once an assembly has made way for a section, its table has a place for it if none with its
number is there. -/
theorem Ready.admits (h : a.Ready s.pid s.key) (valid : s.defect = none)
    (renewed : (if a.isReplacedBy s then {} else a) = fresh)
    (free : fresh.table.get? s.number = none) : fresh.table.Sound ∧ fresh.table.Admits s := by
  split at renewed
  · subst renewed
    exact ⟨Table.sound_empty, Table.sound_empty.admits (.inl rfl) valid rfl free⟩
  · next kept =>
    subst renewed
    refine ⟨h.sound_table, h.sound_table.admits ?_ valid rfl free⟩
    rcases h with rfl | h
    · exact .inl rfl
    · right
      rw [h.identity_eq_iff, ← Bool.and_eq_true_iff]
      simpa [isReplacedBy, h.isEmpty] using kept

theorem refusesNothing_collect (sound : a.table.Sound) (fit : a.table.Admits s) :
    (a.collect pid s).RefusesNothing := by
  unfold collect
  refine (refusesNothing_liftM _).bind fun added hadded ↦ ?_
  rw [Traced.value_liftM] at hadded
  obtain ⟨next, result, hadd, adds⟩ := sound.exists_add s
  obtain rfl := Except.ok.inj (hadd.symm.trans hadded)
  cases adds with
  | refused unfit => exact absurd fit unfit
  | filled =>
    dsimp only
    split
    · exact refusesNothing_pure _
    · exact refusesNothing_pure _

theorem refusesNothing_checkShape (watch : Bool) : (a.checkShape pid watch s).RefusesNothing := by
  unfold checkShape
  split
  · exact (refusesNothing_note rfl).bind_pure _
  · exact refusesNothing_pure _

theorem refusesNothing_renew : (a.renew pid s).RefusesNothing := by
  unfold renew
  split
  · exact (refusesNothing_note rfl).bind_pure _
  · exact refusesNothing_pure _

theorem refusesNothing_checkRepetition (watch : Bool) (known : Section) :
    (checkRepetition pid watch known s).RefusesNothing := by
  unfold checkRepetition
  split
  · exact (refusesNothing_note rfl).bind_pure _
  · exact refusesNothing_pure _

theorem Ready.refusesNothing_receive (h : a.Ready s.pid s.key) (valid : s.defect = none)
    (watch : Bool) : (a.receive s.pid watch s).RefusesNothing := by
  unfold receive
  refine (refusesNothing_checkShape watch).bind fun problems _ ↦ ?_
  split
  · exact refusesNothing_pure _
  · refine refusesNothing_renew.bind fun fresh hfresh ↦ ?_
    have renewed := Except.ok.inj (value_renew.symm.trans hfresh)
    split
    · exact (refusesNothing_checkRepetition watch _).bind_pure _
    · next free =>
      -- The table has made way and lacks the number, which is all that it is asked for.
      obtain ⟨sound, fit⟩ := h.admits valid renewed free
      exact (refusesNothing_collect sound fit).bind_pure _

theorem Ready.received_or_known (h : a.Ready s.pid s.key) (valid : s.defect = none) :
    (a.received s).1.table.get? s.number = some s ∨
      (a.received s).1 = a ∧ (a.delivered = true ∧ a.sameVersion s = true ∨
        ∃ known, a.table.get? s.number = some known) := by
  obtain ⟨hvalid, hknown⟩ := h.base s
  have hlt := Table.number_lt_length hvalid valid hknown
  unfold TableAssembly.received
  split
  · next hdelivered => exact .inr ⟨rfl, .inl (Bool.and_eq_true_iff.1 hdelivered)⟩
  · split
    · next hsome =>
      refine .inr ⟨rfl, .inr (Option.isSome_iff_exists.1 ?_)⟩
      unfold TableAssembly.base at hsome
      split at hsome
      · exact hsome
      · rw [Table.get?_reserve] at hsome
        cases hsome
    · left
      show ((a.base s).fill s).get? s.number = some s
      rw [Table.get?_fill hlt, if_pos rfl]

/-- Whether an assembly is of a substream and a key, and its table has been delivered if it is
complete and not before. -/
structure BelongsTo (a : TableAssembly) (pid : Pid) (key : TableKey) : Prop where
  nonempty : a.table.isEmpty = false
  pid : a.table.pid? = some pid
  tableId : a.table.tableId = key.tableId
  extension : a.table.extension = key.extension
  delivered : a.delivered = true ↔ a.table.isComplete = true

theorem Holds.belongsTo (h : a.Holds pid key) : a.BelongsTo pid key := by
  obtain ⟨id, hid, hpid, rfl⟩ := h.identity
  have hdelivered : a.delivered = true ↔ a.table.isComplete = true := by rw [h.delivered]
  refine ⟨h.isEmpty, ?_, ?_, ?_, hdelivered⟩
  · simp [Table.pid?, hid, hpid]
  · simp [Table.tableId, hid, Table.Identity.key]
  · simp [Table.extension, hid, Table.Identity.key]

/-- Whether an assembly receives a section without a refusal: it is part of the table then, unless
one with its number is there or its version has been delivered. -/
structure Accepts (a : TableAssembly) (watch : Bool) (s : Section) : Prop where
  refusesNothing : (a.receive s.pid watch s).RefusesNothing
  received : ∃ next problems table, (a.receive s.pid watch s).value = .ok (next, problems, table) ∧
    (next.table.get? s.number = some s ∨
      next = a ∧ (a.delivered = true ∧ a.sameVersion s = true ∨
        ∃ known, a.table.get? s.number = some known))

theorem Ready.accepts (h : a.Ready s.pid s.key) (valid : s.defect = none) (watch : Bool) :
    a.Accepts watch s := by
  obtain ⟨problems, -, hreceive⟩ := h.exists_receive valid watch
  exact ⟨h.refusesNothing_receive valid watch, _, _, _, hreceive, h.received_or_known valid⟩

end TableAssembly

namespace Demux

variable {σ : Type} {d : Demux σ} {pid : Pid} {data : Bytes} {pieces : List Bytes}

theorem refusesNothing_call {α : Type} (d : Demux σ) (pid : Pid) (handle : Handler σ α) (item : α)
    (c : Call) : (d.call pid handle item c).RefusesNothing := by
  unfold call
  dsimp only
  split
  · exact (refusesNothing_note rfl).bind_pure _
  · exact refusesNothing_pure _

theorem refusesNothing_handleInvalid (d : Demux σ) (data : InvalidData) :
    (d.handleInvalid data).RefusesNothing := by
  unfold handleInvalid
  refine (refusesNothing_note rfl).bind fun _ _ ↦ ?_
  refine (refusesNothing_liftM _).bind fun e _ ↦ ?_
  split
  · exact refusesNothing_pure _
  · exact e.refusesNothing_call _ _ _ _

theorem refusesNothing_deliver (valid : (d.asSection pid data).defect = none)
    (ready : (d.assemblyFor (d.asSection pid data)).Ready pid (d.asSection pid data).key) :
    (d.deliver pid (d.asSection pid data)).RefusesNothing := by
  unfold deliver
  split
  · exact refusesNothing_pure _
  · exact d.refusesNothing_call _ _ _ _
  · split
    · unfold handleShort
      refine (refusesNothing_liftM _).bind fun made hmade ↦ ?_
      rw [Traced.value_liftM, Table.ofSection_eq valid] at hmade
      obtain rfl := Except.ok.inj hmade
      exact d.refusesNothing_call _ _ _ _
    · unfold handleLong
      split
      · exact refusesNothing_pure _
      · next sub known =>
        dsimp only
        rw [← assemblyFor_eq known data]
        refine (ready.refusesNothing_receive valid _).bind fun received _ ↦ ?_
        refine (refusesNothing_liftM _).bind fun counted _ ↦ ?_
        split
        · exact refusesNothing_pure _
        · exact refusesNothing_call _ _ _ _ _

theorem refusesNothing_handlePiece
    (ready : (d.assemblyFor (d.asSection pid data)).Ready pid (d.asSection pid data).key) :
    (d.handlePiece pid data).RefusesNothing := by
  rw [handlePiece_eq]
  split
  · next valid =>
    unfold handleValid
    split
    · exact refusesNothing_deliver valid ready
    · split
      · exact (refusesNothing_liftM _).bind_pure _
      · exact refusesNothing_pure _
  · exact d.refusesNothing_handleInvalid _

theorem refusesNothing_handlePieces (h : Moment.Sound ⟨d, some (pid, pieces)⟩) :
    (d.handlePieces pid pieces).RefusesNothing := by
  induction pieces generalizing d with
  | nil => exact refusesNothing_pure _
  | cons data rest ih =>
    refine (refusesNothing_handlePiece (ready_assemblyFor h.holds _)).bind fun handled done ↦ ?_
    have hrest := ih (h.step (.handle done))
    rw [handlePieces, (pass_of_handlePiece done).keeps.options] at hrest
    exact hrest.bind_pure _

theorem refusesNothing_stage (d : Demux σ) (p : Packet) : (d.stage p).RefusesNothing := by
  unfold stage
  exact (Reassembly.refusesNothing_feed _ _ p).bind fun _ _ ↦ refusesNothing_liftM _

theorem refusesNothing_dispatch {items : List Staged} (h : Moment.Sound ⟨d, some (pid, pieces)⟩)
    (idle : d.staged = []) (staged : items = pieces.map (.ofPiece d.options.checksums pid)) :
    (({ d with staged := items } : Demux σ).dispatch pid).RefusesNothing := by
  subst staged
  unfold dispatch
  show (({ d with staged := [] } : Demux σ).handleItems pid _ >>= _).RefusesNothing
  rw [withStaged_nil idle]
  exact (refusesNothing_handlePieces h).bind_pure _

theorem Settled.refusesNothing_feed (h : d.Settled) (p : Packet) :
    (d.feed p).RefusesNothing := by
  unfold Demux.feed
  refine (refusesNothing_liftM _).bind fun n hn ↦ ?_
  rw [Traced.value_liftM] at hn
  obtain ⟨room, rfl⟩ := fit_eq_ok_iff.1 hn
  dsimp only
  split
  · next filtered =>
    unfold process
    refine (refusesNothing_stage _ p).bind fun held hheld ↦ ?_
    rw [h.sound.value_stage] at hheld
    obtain ⟨e, counted, hheld⟩ := bind_eq_ok_iff.1 hheld
    obtain rfl := Except.ok.inj hheld
    obtain ⟨hidle, hstaged⟩ := h.sound.staged_of_counted counted
    have hmoment := h.moment.step (.take room filtered counted)
    exact (refusesNothing_dispatch hmoment hidle hstaged).bind_pure _
  · exact refusesNothing_pure _

theorem Settled.refusesNothing_pushBlock (h : d.Settled) (block : Bytes) :
    (d.pushBlock block).RefusesNothing := by
  unfold Demux.pushBlock
  refine (refusesNothing_liftM _).bind fun packet _ ↦ ?_
  split
  · exact h.refusesNothing_feed _
  · refine (refusesNothing_liftM _).bind fun first _ ↦ ?_
    refine (refusesNothing_note rfl).bind fun _ _ ↦ ?_
    exact (refusesNothing_liftM _).bind_pure _

theorem Settled.refusesNothing_push (h : d.Settled) (data : Bytes) :
    (d.push data).RefusesNothing := by
  fun_induction Demux.push d data with
  | case1 d data hl ih =>
    refine (h.refusesNothing_pushBlock _).bind fun fed hfed ↦ ?_
    exact (ih fed.1 (h.pushBlock hfed)).bind_pure _
  | case2 => exact (refusesNothing_note rfl).bind_pure _
  | case3 => exact refusesNothing_pure _

/-- Whatever has been done to a demultiplexer, and at every moment of what comes, the tables that it
keeps are of their substream and key, hold sections, and have been delivered if they are complete.
They refuse no valid section, nor does the table of a short one, so none is reported as refused. -/
theorem Reachable.tables_accept (h : d.Reachable) :
    (∀ pid sub, d.substreams.get? pid = some sub → sub.reassembly.pid = pid) ∧
    (∀ events m, Run ⟨d, none⟩ events m →
      (∀ pid sub, m.demux.substreams.get? pid = some sub →
        ∀ key a, sub.tables.get? key = some a → a.BelongsTo pid key) ∧
      ∀ s, s.isValid = true → ∀ watch, (m.demux.assemblyFor s).Accepts watch s) ∧
    (∀ s, s.isValid = true → s.isShort = true →
      ∃ t : Table, Table.ofSection s = .ok (.ok t) ∧ t.isComplete = true ∧ t.sections = [s]) ∧
    (∀ p, (d.feed p).RefusesNothing) ∧ ∀ data, (d.push data).RefusesNothing := by
  refine ⟨?_, ?_, ?_, h.settled.refusesNothing_feed, h.settled.refusesNothing_push⟩
  · intro pid sub known
    exact (h.sound.reassembly pid _ (congrArg _ known)).1
  · intro events m hrun
    have hm := h.settled.moment.run hrun
    constructor
    · intro pid sub known key a ha
      have hassembly : m.demux.assembly? pid key = some a := by simp [assembly?, known, ha]
      exact (hm.holds pid key a hassembly).belongsTo
    · intro s valid watch
      exact (ready_assemblyFor hm.holds s).accepts (Option.isNone_iff_eq_none.1 valid) watch
  · intro s valid short
    have hvalid : s.defect = none := Option.isNone_iff_eq_none.1 valid
    have hshort : s.isLong = false := by simpa [Section.isShort] using short
    exact ⟨Table.single s, Table.ofSection_eq hvalid, Table.isComplete_of_isShort hshort,
      Table.sections_single hvalid⟩

theorem Reachable.tables_accept_pair : ∃ d calls,
    (tabulator.feed (.leading .pat (part 0 1 1).bytes)).value = .ok (d, calls) ∧
      d.assembly? .pat ⟨0x42, some 1⟩ = some { table := .single (part 0 1 1) } ∧
      (d.assemblyFor (part 0 0 1)).Accepts true (part 0 0 1) ∧
      (d.push (Packet.leading .pat (part 0 0 1).bytes).bytes).RefusesNothing := by
  have hfed : ((tabulator.feed (.leading .pat (part 0 1 1).bytes)).value.toOption.bind
      fun r ↦ r.1.assembly? .pat ⟨0x42, some 1⟩) = some { table := .single (part 0 1 1) } := by
    decide +kernel
  obtain ⟨⟨d, calls⟩, fed, hassembly⟩ := toOption_bind_eq_some_iff.1 hfed
  have reachable : Reachable d := .feed (.setDelivery (.addPid (.start _ _) _) _) fed
  obtain ⟨-, hmoments, -, -, hpush⟩ := reachable.tables_accept
  have haccepts := (hmoments [] _ (.nil _)).2 (part 0 0 1) (by decide +kernel) true
  exact ⟨d, calls, fed, hassembly, haccepts, hpush _⟩

end Demux

end TransportStream
