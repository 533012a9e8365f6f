import TransportStream.Proofs.Demux.Totality

namespace TransportStream

inductive DeliveryMode
  | nowhere
  | sections
  | tables
deriving DecidableEq, Repr

structure Setting where
  options : DemuxOptions
  mode : DeliveryMode
  catching : Bool
deriving DecidableEq, Repr

abbrev Tables := FiniteMap TableKey TableAssembly

namespace Setting

variable (x : Setting)

def collect (tables : Tables) (s : Section) : Tables × List Call :=
  let received := ((tables.get? s.key).getD {}).received s
  (tables.insert s.key received.1, received.2.toList.map .table)

/-- The tables of a substream after a piece of data, and the calls that it leads to. -/
def deal (tables : Tables) (s : Section) : Tables × List Call :=
  match s.defect with
  | some defect => (tables, if x.catching then [.invalid ⟨s.pid, s.bytes, defect⟩] else [])
  | none =>
    if x.options.selects s then
      match x.mode with
      | .nowhere => (tables, [])
      | .sections => (tables, [.sect s])
      | .tables =>
        if s.isShort then (tables, [.table (.single s)])
        else collect tables s
    else (tables, [])

def dealAll (pid : Pid) : Tables → List Bytes → Tables × List Call
  | tables, [] => (tables, [])
  | tables, data :: rest =>
    let first := x.deal tables (.ofBytes x.options.checksums data pid)
    let others := dealAll pid first.1 rest
    (others.1, first.2 ++ others.2)

def take (sub : Substream) (p : Packet) : Substream × List Call :=
  let next := sub.reassembly.next p
  let dealt := x.dealAll p.pid sub.tables next.2.pieces
  (⟨next.1, dealt.1⟩, dealt.2)

/-- A substream after packets of it, and the calls that they lead to. -/
def watch (pid : Pid) : Option Substream → List Packet → Option Substream × List Call
  | sub?, [] => (sub?, [])
  | sub?, p :: rest =>
    let first := x.take (sub?.getD { reassembly := { pid } }) p
    let others := watch pid (some first.1) rest
    (others.1, first.2 ++ others.2)

theorem watch_cons (pid : Pid) (sub? : Option Substream) (p : Packet) (rest : List Packet) :
    x.watch pid sub? (p :: rest) =
      ((x.watch pid (x.watch pid sub? [p]).1 rest).1,
        (x.watch pid sub? [p]).2 ++ (x.watch pid (x.watch pid sub? [p]).1 rest).2) := by
  rw [watch, watch, watch, List.append_nil]

variable {x} {tables : Tables} {s : Section}

theorem isOn_of_mem_deal (ready : ((tables.get? s.key).getD {}).Ready s.pid s.key) {c : Call}
    (hc : c ∈ (x.deal tables s).2) : c.isOn s.pid = true := by
  have of_identity : ∀ t : Table, t.identity = some (.ofSection s) →
      (Call.table t).isOn s.pid = true := by
    intro t ht
    rw [Call.isOn, ht]
    exact beq_self_eq_true s.pid
  unfold deal at hc
  split at hc
  · split at hc
    · obtain rfl := List.mem_singleton.1 hc
      exact beq_self_eq_true s.pid
    · cases hc
  · next valid =>
    split at hc
    · split at hc
      · cases hc
      · obtain rfl := List.mem_singleton.1 hc
        exact beq_self_eq_true s.pid
      · split at hc
        · obtain rfl := List.mem_singleton.1 hc
          exact of_identity _ rfl
        · obtain ⟨t, ht, rfl⟩ := List.mem_map.1 hc
          exact of_identity t (ready.eq_of_received valid (Option.mem_toList.1 ht)).2.2
    · cases hc

end Setting

namespace Demux

variable {σ τ : Type} {d e : Demux σ} {pid : Pid} {data : Bytes} {p : Packet} {calls : List Call}
  {sub : Substream}

def mode (d : Demux σ) : DeliveryMode :=
  match d.delivery with
  | none => .nowhere
  | some (.sections _) => .sections
  | some (.tables _) => .tables

def setting (d : Demux σ) : Setting := ⟨d.options, d.mode, d.invalidHandler.isSome⟩

theorem Keeps.setting (h : Keeps d e) : e.setting = d.setting := by
  rw [Demux.setting, mode, h.options, h.delivery, h.invalidHandler]
  rfl

structure Dealt (e : Demux σ) (pid : Pid) (sub : Substream) (calls : List Call)
    (outcome : Tables × List Call) : Prop where
  known : e.substreams.get? pid = some { sub with tables := outcome.1 }
  calls : calls = outcome.2

theorem dealt_of_handleInvalid {defect : Section.Defect}
    (invalid : (d.asSection pid data).defect = some defect)
    (known : d.substreams.get? pid = some sub)
    (h : (d.handleInvalid { pid, data, defect }).value = .ok (e, calls)) :
    Dealt e pid sub calls (d.setting.deal sub.tables (d.asSection pid data)) := by
  unfold handleInvalid at h
  obtain ⟨_, -, h⟩ := Traced.value_bind_eq_ok_iff.1 h
  obtain ⟨f, hf, h⟩ := Traced.value_bind_eq_ok_iff.1 h
  rw [Traced.value_liftM] at hf
  have hsame := substreams_of_count hf
  have hhandler := (keeps_count hf).invalidHandler
  rw [Setting.deal, invalid]
  dsimp only
  split at h
  · next hnone =>
    obtain ⟨rfl, rfl⟩ := Prod.mk.inj (Except.ok.inj h)
    rw [setting, ← hhandler, hnone]
    exact ⟨hsame ▸ known, rfl⟩
  · next handle hsome =>
    obtain ⟨hs, rfl⟩ := eq_of_call h
    rw [setting, ← hhandler, hsome]
    exact ⟨hs.trans hsame ▸ known, rfl⟩

theorem dealt_of_handleLong {handle : Handler σ Table}
    (valid : (d.asSection pid data).defect = none)
    (known : d.substreams.get? pid = some sub)
    (ready : ((sub.tables.get? (d.asSection pid data).key).getD {}).Ready pid
      (d.asSection pid data).key)
    (h : (d.handleLong pid handle (d.asSection pid data)).value = .ok (e, calls)) :
    Dealt e pid sub calls (Setting.collect sub.tables (d.asSection pid data)) := by
  obtain ⟨problems, -, hreceive⟩ := ready.exists_receive (s := d.asSection pid data) valid
    d.options.watchVersions
  unfold handleLong at h
  rw [known] at h
  obtain ⟨result, hr, h⟩ := Traced.value_bind_eq_ok_iff.1 h
  obtain rfl := Except.ok.inj (hreceive.symm.trans hr)
  obtain ⟨f, hf, h⟩ := Traced.value_bind_eq_ok_iff.1 h
  rw [Setting.collect]
  split at h
  · next hnone =>
    obtain ⟨rfl, rfl⟩ := Prod.mk.inj (Except.ok.inj h)
    rw [hnone]
    exact ⟨by rw [FiniteMap.get?_insert, if_pos rfl], rfl⟩
  · next t ht =>
    obtain ⟨hs, rfl⟩ := eq_of_call h
    rw [ht]
    exact ⟨by rw [hs, FiniteMap.get?_insert, if_pos rfl], rfl⟩

theorem dealt_of_deliver (valid : (d.asSection pid data).defect = none)
    (selected : d.options.selects (d.asSection pid data) = true)
    (known : d.substreams.get? pid = some sub)
    (ready : ((sub.tables.get? (d.asSection pid data).key).getD {}).Ready pid
      (d.asSection pid data).key)
    (h : (d.deliver pid (d.asSection pid data)).value = .ok (e, calls)) :
    Dealt e pid sub calls (d.setting.deal sub.tables (d.asSection pid data)) := by
  have hselects : d.setting.options.selects (d.asSection pid data) = true := selected
  rw [Setting.deal, valid]
  dsimp only
  rw [if_pos hselects]
  unfold deliver at h
  split at h
  · next hd =>
    have hmode : d.setting.mode = .nowhere := by rw [setting, mode, hd]
    obtain ⟨rfl, rfl⟩ := Prod.mk.inj (Except.ok.inj h)
    rw [hmode]
    exact ⟨known, rfl⟩
  · next handle hd =>
    have hmode : d.setting.mode = .sections := by rw [setting, mode, hd]
    obtain ⟨hs, rfl⟩ := eq_of_call h
    rw [hmode]
    exact ⟨hs ▸ known, rfl⟩
  · next handle hd =>
    have hmode : d.setting.mode = .tables := by rw [setting, mode, hd]
    rw [hmode]
    dsimp only
    split at h
    · next short =>
      unfold handleShort at h
      rw [Table.ofSection_eq valid] at h
      obtain ⟨result, hr, h⟩ := Traced.value_bind_eq_ok_iff.1 h
      obtain rfl := Except.ok.inj hr
      obtain ⟨hs, rfl⟩ := eq_of_call h
      rw [if_pos short]
      exact ⟨hs ▸ known, rfl⟩
    · next long =>
      rw [if_neg long]
      exact dealt_of_handleLong valid known ready h

theorem dealt_of_handlePiece (known : d.substreams.get? pid = some sub)
    (ready : ((sub.tables.get? (d.asSection pid data).key).getD {}).Ready pid
      (d.asSection pid data).key)
    (h : (d.handlePiece pid data).value = .ok (e, calls)) :
    Dealt e pid sub calls (d.setting.deal sub.tables (d.asSection pid data)) := by
  rw [handlePiece_eq] at h
  split at h
  · next valid =>
    unfold handleValid at h
    split at h
    · next selected => exact dealt_of_deliver valid selected known ready h
    · next refused =>
      have hrefused : ¬ d.setting.options.selects (d.asSection pid data) = true := refused
      have hvalid : (d.asSection pid data).defect = none := valid
      rw [Setting.deal, hvalid]
      dsimp only
      rw [if_neg hrefused]
      split at h
      · obtain ⟨f, hf, h⟩ := Traced.value_bind_eq_ok_iff.1 h
        rw [Traced.value_liftM] at hf
        obtain ⟨rfl, rfl⟩ := Prod.mk.inj (Except.ok.inj h)
        exact ⟨substreams_of_count hf ▸ known, rfl⟩
      · obtain ⟨rfl, rfl⟩ := Prod.mk.inj (Except.ok.inj h)
        exact ⟨known, rfl⟩
  · next defect invalid => exact dealt_of_handleInvalid invalid known h

theorem dealt_of_handlePieces {pieces : List Bytes} (h : Moment.Sound ⟨d, some (pid, pieces)⟩)
    (known : d.substreams.get? pid = some sub)
    (done : (d.handlePieces pid pieces).value = .ok (e, calls)) :
    Dealt e pid sub calls (d.setting.dealAll pid sub.tables pieces) ∧
      ∀ c ∈ calls, c.isOn pid = true := by
  induction pieces generalizing d sub calls with
  | nil =>
    obtain ⟨rfl, rfl⟩ := Prod.mk.inj (Except.ok.inj done)
    exact ⟨⟨known, rfl⟩, fun c hc ↦ by cases hc⟩
  | cons data rest ih =>
    obtain ⟨f, first, others, hpiece, hrest, rfl⟩ := handlePieces_cons_eq_ok_iff.1 done
    have ready := ready_assemblyFor h.holds (d.asSection pid data)
    rw [assemblyFor_eq known data] at ready
    obtain ⟨hknown, rfl⟩ := dealt_of_handlePiece known ready hpiece
    have step : Step ⟨d, some (pid, data :: rest)⟩ _ ⟨f, some (pid, rest)⟩ := .handle hpiece
    obtain ⟨⟨hlast, rfl⟩, hon⟩ := ih (h.step step) hknown hrest
    rw [(pass_of_handlePiece hpiece).keeps.setting] at hlast hon ⊢
    refine ⟨⟨hlast, rfl⟩, fun c hc ↦ ?_⟩
    rcases List.mem_append.1 hc with hc | hc
    · exact Setting.isOn_of_mem_deal ready hc
    · exact hon c hc

theorem Pass.get?_of_ne {q : Pid} (h : Pass pid d calls e) (hq : q ≠ pid) :
    e.substreams.get? q = d.substreams.get? q := by
  induction h with
  | done => rfl
  | count counted _ ih => rw [ih, substreams_of_count counted]
  | store known _ ih => rw [ih, FiniteMap.get?_insert, if_neg hq]
  | call _ _ _ ih => exact ih

/-- Whether the handlers never ask for a change of the filter. -/
def Quiet (d : Demux σ) : Prop :=
  ∀ state view c response, d.response? state view c = some response → response.requests = []

theorem Quiet.of_keeps (h : d.Quiet) (hk : Keeps d e) : e.Quiet := by
  intro state view c response hr
  refine h state view c response ?_
  rw [← hr]
  cases c <;> simp only [response?, hk.delivery, hk.invalidHandler]

theorem Pass.requests_of_quiet (h : Pass pid d calls e) (quiet : d.Quiet) :
    e.view.requests = d.view.requests := by
  induction h with
  | done => rfl
  | count counted _ ih =>
    rw [ih (quiet.of_keeps (keeps_count counted))]
    obtain ⟨status, -, rfl⟩ := count_eq_ok_iff.1 counted
    rfl
  | store known _ ih => exact ih quiet
  | call answer _ _ ih =>
    rw [ih quiet, answered, quiet _ _ _ _ answer, List.append_nil]

theorem settle_of_no_requests (h : d.view.requests = []) : d.settle = d := by
  have hview : ∀ v : DemuxView, v.requests = [] → v.settle = v := by
    rintro ⟨status, filter, requests⟩ rfl
    rfl
  have hsubstreams :
      d.substreams.filterKeys (fun q ↦ !d.view.requests.any (FilterChange.removes q)) =
        d.substreams := by
    rw [h]
    exact congrArg FiniteMap.mk (List.filter_eq_self.2 fun _ _ ↦ rfl)
  rw [settle, hview d.view h, hsubstreams]

def watch (d : Demux σ) (pid : Pid) (packets : List Packet) : Option Substream × List Call :=
  if d.hasPid pid then d.setting.watch pid (d.substreams.get? pid) packets
  else (d.substreams.get? pid, [])

structure Leads (d : Demux σ) (p : Packet) (e : Demux σ) (calls : List Call) : Prop where
  setting : e.setting = d.setting
  filter : e.filter = d.filter
  others : ∀ q, q ≠ p.pid → e.substreams.get? q = d.substreams.get? q
  own : (e.substreams.get? p.pid, calls) = d.watch p.pid [p]
  about : ∀ c ∈ calls, c.isOn p.pid = true

theorem Quiet.feed (quiet : d.Quiet) (h : d.Settled) (fed : (d.feed p).value = .ok (e, calls)) :
    e.Quiet ∧ d.Leads p e calls := by
  obtain ⟨room, hfed⟩ := h.sound.feed_eq_ok_iff.1 fed
  split at hfed
  · next filtered =>
    obtain ⟨f, g, counted, handled, rfl⟩ := hfed
    have step := Step.take room filtered counted
    have hcount := keeps_count counted
    have hpass := pass_of_handlePieces handled
    have hkeeps : Keeps (d.advanced p) g := hcount.trans hpass.keeps
    have hadvanced : (d.advanced p).Quiet := quiet
    have hrequests : g.view.requests = [] := by
      rw [hpass.requests_of_quiet (hadvanced.of_keeps hcount)]
      obtain ⟨status, -, rfl⟩ := count_eq_ok_iff.1 counted
      exact h.sound.requests
    have hsetting : f.setting = d.setting := hcount.setting
    have hknown : f.substreams.get? p.pid =
        some ⟨((d.substream p.pid).reassembly.next p).1, (d.substream p.pid).tables⟩ := by
      rw [substreams_of_count counted, advanced, FiniteMap.get?_insert, if_pos rfl]
    obtain ⟨⟨hsub, hcalls⟩, hon⟩ := dealt_of_handlePieces (h.moment.step step) hknown handled
    rw [hsetting] at hsub hcalls
    rw [settle_of_no_requests hrequests]
    refine ⟨hadvanced.of_keeps hkeeps, hkeeps.setting, hkeeps.filter, ?_, ?_, hon⟩
    · intro q hq
      rw [hpass.get?_of_ne hq, substreams_of_count counted, advanced, FiniteMap.get?_insert,
        if_neg hq]
    · rw [watch, if_pos filtered, hsub, hcalls, Setting.watch, Setting.watch, List.append_nil]
      rfl
  · next unfiltered =>
    obtain ⟨rfl, rfl⟩ := hfed
    refine ⟨quiet, rfl, rfl, fun q _ ↦ rfl, ?_, fun c hc ↦ by cases hc⟩
    rw [watch, if_neg unfiltered]

theorem Leads.watch_eq (h : d.Leads p e calls) (packets : List Packet) :
    e.watch pid packets =
      if d.hasPid pid then d.setting.watch pid (e.substreams.get? pid) packets
      else (e.substreams.get? pid, []) := by
  rw [watch, hasPid, h.filter, h.setting]
  rfl

theorem watch_of_feedAll {packets : List Packet} (h : d.Settled) (quiet : d.Quiet)
    (fed : (d.feedAll packets).value = .ok (e, calls)) :
    (e.substreams.get? pid, calls.filter (·.isOn pid)) =
      d.watch pid (packets.filter (·.pid = pid)) := by
  induction packets generalizing d calls with
  | nil =>
    obtain ⟨rfl, rfl⟩ := Prod.mk.inj (Except.ok.inj fed)
    rw [watch]
    split <;> rfl
  | cons p rest ih =>
    obtain ⟨f, first, others, hp, hrest, rfl⟩ := feedAll_cons_eq_ok_iff.1 fed
    obtain ⟨hquiet, leads⟩ := quiet.feed h hp
    have hwatch := ih (h.feed hp) hquiet hrest
    rw [leads.watch_eq] at hwatch
    rw [List.filter_append]
    by_cases hpid : p.pid = pid
    · subst hpid
      have hon : first.filter (·.isOn p.pid) = first := List.filter_eq_self.2 leads.about
      have hown := leads.own
      rw [List.filter_cons_of_pos (by simp), hon]
      rw [watch] at hown ⊢
      split at hwatch
      · next filtered =>
        rw [if_pos filtered] at hown ⊢
        rw [Setting.watch_cons, ← hown, ← hwatch]
      · next unfiltered =>
        rw [if_neg unfiltered] at hown ⊢
        obtain ⟨hknown, rfl⟩ := Prod.mk.inj hown
        rw [List.nil_append, hwatch, hknown]
    · have hnone : first.filter (·.isOn pid) = [] := by
        refine List.filter_eq_nil_iff.2 fun c hc hon ↦ hpid ?_
        exact Call.eq_of_isOn (leads.about c hc) hon
      rw [List.filter_cons_of_neg (by simpa using hpid), hnone, List.nil_append, hwatch,
        leads.others pid (Ne.symm hpid), watch]

/-- Whether two demultiplexers do the same with a substream. -/
structure Alike (d : Demux σ) (e : Demux τ) (pid : Pid) : Prop where
  setting : d.setting = e.setting
  filtered : d.hasPid pid = e.hasPid pid
  known : d.substreams.get? pid = e.substreams.get? pid

theorem Alike.watch_eq {e : Demux τ} (h : d.Alike e pid) (packets : List Packet) :
    d.watch pid packets = e.watch pid packets := by
  rw [watch, h.setting, h.filtered, h.known]
  rfl

/-- Where two demultiplexers do the same with a substream, and their handlers ask for nothing, two
streams that agree about the substream lead to the same calls about it and leave it the same,
whatever the packets of other substreams. Only a full counter can stop one of them. -/
theorem Reachable.separate {d : Demux σ} {e : Demux τ} {packets packets' : List Packet}
    (reachable : d.Reachable) (reachable' : e.Reachable) (quiet : d.Quiet) (quiet' : e.Quiet)
    (alike : d.Alike e pid)
    (same : packets.filter (·.pid = pid) = packets'.filter (·.pid = pid)) :
    (d.feedAll packets).value = .error .overflow ∧ d.FillsUpAmong packets ∨
    (e.feedAll packets').value = .error .overflow ∧ e.FillsUpAmong packets' ∨
    ∃ d' calls e' calls', (d.feedAll packets).value = .ok (d', calls) ∧
      (e.feedAll packets').value = .ok (e', calls') ∧
      calls.filter (·.isOn pid) = calls'.filter (·.isOn pid) ∧
      d'.substreams.get? pid = e'.substreams.get? pid := by
  have hsettled := reachable.settled
  have hsettled' := reachable'.settled
  rcases completes_feedAll hsettled packets with ⟨⟨d', calls⟩, fed⟩ | stopped
  · rcases completes_feedAll hsettled' packets' with ⟨⟨e', calls'⟩, fed'⟩ | stopped'
    · have hwatch : (d'.substreams.get? pid, calls.filter (·.isOn pid)) = _ :=
        watch_of_feedAll hsettled quiet fed
      have hwatch' : (e'.substreams.get? pid, calls'.filter (·.isOn pid)) = _ :=
        watch_of_feedAll hsettled' quiet' fed'
      rw [same, alike.watch_eq, ← hwatch'] at hwatch
      obtain ⟨hknown, hcalls⟩ := Prod.mk.inj hwatch
      exact .inr (.inr ⟨d', calls, e', calls', fed, fed', hcalls, hknown⟩)
    · exact .inr (.inl stopped')
  · exact .inl stopped

def stray : Packet := .leading .null [0x42, 0x30, 1, 0]

theorem quiet_tabulator : tabulator.Quiet := by
  intro state view c response h
  cases c with
  | table t =>
    obtain rfl := Option.some.inj h
    rfl
  | sect s => cases h
  | invalid data => cases h

theorem Reachable.separate_stray : ∃ d' calls e' calls',
    (tabulator.feedAll [.leading .pat (part 0 0 0).bytes]).value = .ok (d', calls) ∧
    ((tabulator.addPid .null).feedAll
      [stray, .leading .pat (part 0 0 0).bytes, stray]).value = .ok (e', calls') ∧
    calls.filter (·.isOn .pat) = calls'.filter (·.isOn .pat) ∧
    d'.substreams.get? .pat = e'.substreams.get? .pat := by
  have reachable : tabulator.Reachable := .setDelivery (.addPid (.start _ _) _) _
  have alike : tabulator.Alike (tabulator.addPid .null) .pat := ⟨rfl, by decide, rfl⟩
  have same : [Packet.leading .pat (part 0 0 0).bytes].filter (·.pid = .pat) =
      [stray, .leading .pat (part 0 0 0).bytes, stray].filter (·.pid = .pat) := by
    decide +kernel
  have done : (tabulator.feedAll [.leading .pat (part 0 0 0).bytes]).value.toOption.isSome =
      true := by
    decide +kernel
  have done' : ((tabulator.addPid .null).feedAll
      [stray, .leading .pat (part 0 0 0).bytes, stray]).value.toOption.isSome = true := by
    decide +kernel
  rcases reachable.separate (reachable.addPid .null) quiet_tabulator quiet_tabulator alike same
    with ⟨stopped, -⟩ | ⟨stopped, -⟩ | both
  · rw [stopped] at done
    cases done
  · rw [stopped] at done'
    cases done'
  · exact both

end Demux

end TransportStream
