import TransportStream.Proofs.Demux.Accounting
import TransportStream.Proofs.Demux.Separation

namespace TransportStream

structure Yield where
  problems : List Problem := []
  pieces : List (Pid × Bytes) := []

structure Reception where
  filter : PidSet
  known : Pid → Option Reassembly

namespace Reception

variable (x : Reception)

def next : Option Packet → Reception × Yield
  | none => (x, { problems := [.invalidPacket] })
  | some p =>
    if x.filter.contains p.pid then
      let next := ((x.known p.pid).getD { pid := p.pid }).next p
      ({ x with known := fun q ↦ if q = p.pid then some next.1 else x.known q },
        ⟨next.2.problems, next.2.pieces.map (p.pid, ·)⟩)
    else (x, {})

def run (x : Reception) : List (Option Packet) → Reception × Yield
  | [] => (x, {})
  | entry :: rest =>
    let first := x.next entry
    let others := first.1.run rest
    (others.1, ⟨first.2.problems ++ others.2.problems, first.2.pieces ++ others.2.pieces⟩)

end Reception

def Call.sect? : Call → Option Section
  | .sect s => some s
  | .table _ | .invalid _ => none

namespace Section

theorem diagnose_check_eq_none_iff {data : Bytes} : diagnose .check data = none ↔
    diagnose .ignore data = none ∧ ((CommonHeader.read data).isLong = false ∨
      storedChecksum data = computedChecksum data) := by
  have hcheck : checksumDefect .check data = none ↔
      storedChecksum data = computedChecksum data := by
    simp [checksumDefect]
  have hignore : checksumDefect .ignore data = none := by
    simp [checksumDefect]
  unfold diagnose
  dsimp only
  split
  · simp
  split
  · simp
  split
  · simp
  split
  · next short =>
    have hshort : (CommonHeader.read data).isLong = false := by simpa using short
    simp [hshort]
  next long =>
  have hlong : ¬ (CommonHeader.read data).isLong = false := by simpa using long
  split
  · simp
  split
  · simp
  · rw [hcheck, hignore]
    simp [hlong]

def isIntact (s : Section) : Bool :=
  s.isShort || storedChecksum s.bytes == computedChecksum s.bytes

theorem isValid_check (data : Bytes) (pid : Pid) : (ofBytes .check data pid).isValid =
    ((ofBytes .ignore data pid).isValid && (ofBytes .ignore data pid).isIntact) := by
  rw [Bool.eq_iff_iff]
  simpa [isValid, isIntact, isShort, isLong, header, ofBytes] using diagnose_check_eq_none_iff

theorem ofBytes_eq_of_isValid {rule rule' : ChecksumRule} {data : Bytes} {pid : Pid}
    (h : (ofBytes rule data pid).isValid = true) (h' : (ofBytes rule' data pid).isValid = true) :
    ofBytes rule data pid = ofBytes rule' data pid := by
  have hdefect : diagnose rule data = none := Option.isNone_iff_eq_none.1 h
  have hdefect' : diagnose rule' data = none := Option.isNone_iff_eq_none.1 h'
  simp [ofBytes, hdefect, hdefect']

end Section

namespace DemuxOptions

variable (o : DemuxOptions)

def read (x : Pid × Bytes) : Section := .ofBytes o.checksums x.2 x.1

def lets (s : Section) : Bool := s.isValid && o.selects s

/-- The sections among pieces that are let through. -/
def selection (pieces : List (Pid × Bytes)) : List Section := (pieces.map o.read).filter o.lets

/-- What is counted for a piece, changes within a version apart. -/
def noted (s : Section) : List Problem :=
  match s.defect with
  | some defect => [.ofDefect defect]
  | none => if o.selects s then [] else if s.isNext then [.notYetCurrent] else []

def tallied (y : Yield) : List Problem :=
  y.problems ++ y.pieces.flatMap fun x ↦ o.noted (o.read x)

variable {o}

theorem tallied_append (y z : Yield) (q : Problem) :
    (o.tallied ⟨y.problems ++ z.problems, y.pieces ++ z.pieces⟩).count q =
      (o.tallied y).count q + (o.tallied z).count q := by
  simp only [tallied, List.flatMap_append, List.count_append]
  omega

theorem selection_append (pieces more : List (Pid × Bytes)) :
    o.selection (pieces ++ more) = o.selection pieces ++ o.selection more := by
  rw [selection, List.map_append, List.filter_append, selection, selection]

theorem count_tallied {q : Problem}
    (packets : q ∈ [Problem.invalidPacket, .discontinuity, .scrambled, .truncated]) (y : Yield) :
    (o.tallied y).count q = y.problems.count q := by
  have hnone : ∀ s, q ∉ o.noted s := by
    intro s hq
    unfold noted at hq
    split at hq
    · next defect _ =>
      obtain rfl := List.mem_singleton.1 hq
      cases defect <;> simp [Problem.ofDefect] at packets
    · split at hq
      · cases hq
      · split at hq
        · obtain rfl := List.mem_singleton.1 hq
          simp at packets
        · cases hq
  have hpieces : (y.pieces.flatMap fun x ↦ o.noted (o.read x)).count q = 0 := by
    refine List.count_eq_zero.2 fun hq ↦ ?_
    obtain ⟨x, -, hq⟩ := List.mem_flatMap.1 hq
    exact hnone _ hq
  rw [tallied, List.count_append, hpieces, Nat.add_zero]

theorem selection_check {o' : DemuxOptions} (check : o.checksums = .check)
    (ignore : o'.checksums = .ignore) (current : o.current = o'.current) (next : o.next = o'.next)
    (pieces : List (Pid × Bytes)) :
    o.selection pieces = (o'.selection pieces).filter (·.isIntact) := by
  induction pieces with
  | nil => rfl
  | cons x rest ih =>
    have hvalid : (o.read x).isValid = ((o'.read x).isValid && (o'.read x).isIntact) := by
      unfold read
      rw [check, ignore]
      exact Section.isValid_check x.2 x.1
    have hselects : o.selects (o.read x) = o'.selects (o'.read x) := by
      unfold selects
      rw [current, next]
      rfl
    have hlets : o.lets (o.read x) = (o'.lets (o'.read x) && (o'.read x).isIntact) := by
      rw [lets, lets, hvalid, hselects, Bool.and_right_comm]
    unfold selection at ih ⊢
    rw [List.map_cons, List.map_cons, List.filter_cons, List.filter_cons, ih, hlets]
    cases hlet : o'.lets (o'.read x) with
    | false => rfl
    | true =>
      cases hintact : (o'.read x).isIntact with
      | false => simp [hintact]
      | true =>
        have hboth : (o'.read x).isValid = true := (Bool.and_eq_true_iff.1 hlet).1
        have hread : o.read x = o'.read x :=
          Section.ofBytes_eq_of_isValid (hvalid.trans (by rw [hboth, hintact]; rfl)) hboth
        simp [hintact, hread]

end DemuxOptions

namespace Setting

def lax (x : Setting) : Setting :=
  { x with options := { x.options with watchVersions := false } }

theorem dealAll_lax (x : Setting) (pid : Pid) (tables : Tables) (pieces : List Bytes) :
    x.lax.dealAll pid tables pieces = x.dealAll pid tables pieces := by
  induction pieces generalizing tables with
  | nil => rfl
  | cons data rest ih =>
    rw [dealAll, ih, dealAll]
    rfl

theorem take_lax (x : Setting) (sub : Substream) (p : Packet) :
    x.lax.take sub p = x.take sub p := by
  rw [take, dealAll_lax, take]

end Setting

theorem Setting.filterMap_deal {x : Setting} (mode : x.mode = .sections) (tables : Tables)
    (s : Section) :
    (x.deal tables s).2.filterMap Call.sect? = if x.options.lets s then [s] else [] := by
  unfold Setting.deal DemuxOptions.lets Section.isValid
  cases s.defect with
  | some defect => cases x.catching <;> rfl
  | none =>
    cases x.options.selects s with
    | false => rfl
    | true =>
      rw [mode]
      rfl

theorem Setting.filterMap_dealAll {x : Setting} (mode : x.mode = .sections) (pid : Pid)
    (tables : Tables) (pieces : List Bytes) :
    (x.dealAll pid tables pieces).2.filterMap Call.sect? =
      x.options.selection (pieces.map (pid, ·)) := by
  induction pieces generalizing tables with
  | nil => rfl
  | cons data rest ih =>
    rw [dealAll, List.filterMap_append, ih, filterMap_deal mode]
    unfold DemuxOptions.selection
    rw [List.map_cons, List.map_cons, List.filter_cons]
    show _ = if x.options.lets (.ofBytes x.options.checksums data pid) then _ else _
    split <;> rfl

namespace Demux

variable {σ τ : Type} {d e : Demux σ} {pid : Pid} {p : Packet} {data : Bytes} {calls : List Call}
  {entry : Option Packet}

def reception (d : Demux σ) : Reception :=
  ⟨d.filter, fun pid ↦ (d.substreams.get? pid).map (·.reassembly)⟩

def accept (d : Demux σ) : Option Packet → Except Fault (Demux σ × List Call)
  | some p => (d.feed p).value
  | none => do return (← d.count [.invalidPacket], [])

def acceptAll (d : Demux σ) : List (Option Packet) → Except Fault (Demux σ × List Call)
  | [] => .ok (d, [])
  | entry :: rest => do
    let (e, calls) ← d.accept entry
    let (f, more) ← e.acceptAll rest
    return (f, calls ++ more)

def entries (data : Bytes) : List (Option Packet) :=
  if h : Packet.size ≤ data.length then
    (if (data.take Packet.size).head? = some Packet.syncByte then
      some ⟨data.take Packet.size, List.length_take_of_le h⟩ else none) ::
      entries (data.drop Packet.size)
  else []
termination_by data.length
decreasing_by simp only [List.length_drop, Packet.size] at *; omega

theorem value_pushBlock {block : Bytes} (h : block.length = Packet.size) :
    (d.pushBlock block).value =
      d.accept (if block.head? = some Packet.syncByte then some ⟨block, h⟩ else none) := by
  unfold pushBlock Packet.ofBytes?
  rw [dif_pos h]
  split
  · rw [Traced.value_liftM_bind_of_ok rfl]
    rfl
  · have hfirst : itemAt block 0 = .ok ((⟨block, h⟩ : Packet).byte 0) :=
      itemAt_eq_ok_iff.2 ((⟨block, h⟩ : Packet).getElem?_bytes 0)
    rw [Traced.value_liftM_bind_of_ok rfl]
    dsimp only
    rw [Traced.value_liftM_bind_of_ok hfirst, Traced.value_bind_of_ok (Traced.value_note _),
      Traced.value_bind, Traced.value_liftM]
    rfl

theorem value_push (d : Demux σ) (data : Bytes) :
    (d.push data).value = d.acceptAll (entries data) := by
  fun_induction Demux.push d data with
  | case1 d data hl ih =>
    rw [entries, dif_pos hl, acceptAll, Traced.value_bind,
      value_pushBlock (List.length_take_of_le hl)]
    refine bind_congr fun first ↦ ?_
    rw [Traced.value_bind, ih]
    rfl
  | case2 d data hl =>
    rw [entries, dif_neg hl]
    rfl
  | case3 d data hl =>
    rw [entries, dif_neg hl]
    rfl

structure Calm (d : Demux σ) : Prop where
  quiet : d.Quiet
  settled : d.Settled

theorem Reachable.calm (h : d.Reachable) (quiet : d.Quiet) : d.Calm :=
  ⟨quiet, h.settled⟩

theorem Ends.get_status {way : PieceEnd} (h : d.Ends pid data calls e way) {q : Problem}
    (other : q ≠ .invalidVersion) :
    e.status.get q = d.status.get q + (d.options.noted (d.asSection pid data)).count q := by
  unfold DemuxOptions.noted
  cases h with
  | reported found _ counted =>
    rw [found]
    exact counted q
  | early valid long next refused counted =>
    have hselects : d.options.selects (d.asSection pid data) = false := by
      simp [DemuxOptions.selects, Section.isShort, long, next, refused]
    simp only [valid, hselects, next]
    exact counted q
  | unwanted valid long current refused _ same =>
    have next := Section.not_isNext_of_isCurrent current
    subst same
    simp [valid, next]
  | passedOn valid selected counted few =>
    have hcount := counted q
    simp only [valid, selected]
    rcases few with rfl | rfl
    · exact hcount
    · rw [hcount, List.count_singleton, if_neg (by simpa using Ne.symm other)]
      rfl

theorem Accounts.get_status {pieces : List Bytes} (h : Accounts pid d pieces calls e) {q : Problem}
    (other : q ≠ .invalidVersion) : e.status.get q = d.status.get q +
      (pieces.flatMap fun data ↦ d.options.noted (d.asSection pid data)).count q := by
  induction h with
  | done => rfl
  | @piece d e f data rest calls more handled ended others ih =>
    obtain ⟨way, ended, -⟩ := ended
    have hoptions := (pass_of_handlePiece handled).keeps.options
    have hsection : e.asSection pid = d.asSection pid := by
      unfold asSection
      rw [hoptions]
    rw [ih, ended.get_status other, hoptions, hsection, List.flatMap_cons, List.count_append]
    omega

structure Brings (d : Demux σ) (outcome : Reception × Yield) (e : Demux σ) (calls : List Call) :
    Prop where
  setting : e.setting = d.setting
  reception : e.reception = outcome.1
  status : ∀ q, q ≠ .invalidVersion →
    e.status.get q = d.status.get q + (d.options.tallied outcome.2).count q
  sections : d.mode = .sections →
    calls.filterMap Call.sect? = d.options.selection outcome.2.pieces

theorem next_reception (filtered : d.hasPid p.pid = true) :
    d.reception.next (some p) =
      (⟨d.filter, fun q ↦ if q = p.pid then some ((d.substream p.pid).reassembly.next p).1
        else (d.substreams.get? q).map (·.reassembly)⟩,
        ⟨(d.findings p).problems, (d.findings p).pieces.map (p.pid, ·)⟩) := by
  unfold Reception.next findings
  rw [reassembly_substream]
  exact if_pos filtered

theorem next_reception_of_not_filtered (unfiltered : ¬ d.hasPid p.pid = true) :
    d.reception.next (some p) = (d.reception, {}) :=
  if_neg unfiltered

theorem get_status_of_feed (settled : d.Settled)
    (fed : (d.feed p).value = .ok (e, calls)) {q : Problem} (other : q ≠ .invalidVersion) :
    e.status.get q = d.status.get q +
      (d.options.tallied (d.reception.next (some p)).2).count q := by
  obtain ⟨room, hfed⟩ := settled.sound.feed_eq_ok_iff.1 fed
  split at hfed
  · next filtered =>
    obtain ⟨f, g, counted, handled, rfl⟩ := hfed
    have hpieces := accounts_of_handlePieces
      (settled.moment.step (.take room filtered counted)) handled
    have hoptions : f.options = d.options := (keeps_count counted).options
    have hfirst : f.status.get q = d.status.get q + _ := hasCounted_of_count counted q
    have hrest : g.settle.status.get q = f.status.get q + _ := hpieces.get_status other
    rw [next_reception filtered, DemuxOptions.tallied, List.count_append, List.flatMap_map, hrest,
      hfirst]
    unfold asSection
    rw [hoptions, Nat.add_assoc]
    rfl
  · next unfiltered =>
    obtain ⟨rfl, -⟩ := hfed
    rw [next_reception_of_not_filtered unfiltered]
    rfl

theorem Leads.own_of_filtered (h : d.Leads p e calls) (filtered : d.hasPid p.pid = true) :
    e.substreams.get? p.pid = some (d.setting.take (d.substream p.pid) p).1 ∧
      calls = (d.setting.take (d.substream p.pid) p).2 := by
  have hown := h.own
  rw [watch, if_pos filtered, Setting.watch, Setting.watch, List.append_nil] at hown
  exact Prod.mk.inj hown

theorem Leads.own_of_not_filtered (h : d.Leads p e calls) (unfiltered : ¬ d.hasPid p.pid = true) :
    e.substreams.get? p.pid = d.substreams.get? p.pid ∧ calls = [] := by
  have hown := h.own
  rw [watch, if_neg unfiltered] at hown
  exact Prod.mk.inj hown

theorem Leads.reception (h : d.Leads p e calls) :
    e.reception = (d.reception.next (some p)).1 := by
  by_cases filtered : d.hasPid p.pid = true
  · obtain ⟨hown, -⟩ := h.own_of_filtered filtered
    rw [next_reception filtered, Demux.reception, h.filter]
    refine congrArg (Reception.mk _) (funext fun q ↦ ?_)
    split
    · next hq =>
      rw [hq, hown]
      rfl
    · next hq => rw [h.others q hq]
  · obtain ⟨hown, -⟩ := h.own_of_not_filtered filtered
    rw [next_reception_of_not_filtered filtered, Demux.reception, h.filter]
    refine congrArg (Reception.mk _) (funext fun q ↦ ?_)
    by_cases hq : q = p.pid
    · rw [hq, hown]
    · rw [h.others q hq]

theorem Leads.sections (h : d.Leads p e calls) (mode : d.mode = .sections) :
    calls.filterMap Call.sect? =
      d.options.selection (d.reception.next (some p)).2.pieces := by
  by_cases filtered : d.hasPid p.pid = true
  · obtain ⟨-, rfl⟩ := h.own_of_filtered filtered
    rw [next_reception filtered]
    exact Setting.filterMap_dealAll (x := d.setting) mode ..
  · obtain ⟨-, rfl⟩ := h.own_of_not_filtered filtered
    rw [next_reception_of_not_filtered filtered]
    rfl

theorem Calm.accept (calm : d.Calm) (accepted : d.accept entry = .ok (e, calls)) :
    e.Calm ∧ d.Brings (d.reception.next entry) e calls := by
  cases entry with
  | none =>
    obtain ⟨f, counted, h⟩ := bind_eq_ok_iff.1 accepted
    obtain ⟨rfl, rfl⟩ := Prod.mk.inj (Except.ok.inj h)
    have hkeeps := keeps_count counted
    have hsame := substreams_of_count counted
    refine ⟨⟨calm.quiet.of_keeps hkeeps, calm.settled.count counted⟩, hkeeps.setting, ?_, ?_, ?_⟩
    · rw [reception, hsame, hkeeps.filter]
      rfl
    · intro q _
      rw [hasCounted_of_count counted q]
      simp [DemuxOptions.tallied, Reception.next]
    · intro _
      rfl
  | some p =>
    obtain ⟨hquiet, leads⟩ := calm.quiet.feed calm.settled accepted
    exact ⟨⟨hquiet, calm.settled.feed accepted⟩, leads.setting, leads.reception,
      fun q ↦ get_status_of_feed calm.settled accepted, leads.sections⟩

theorem Calm.acceptAll {entries : List (Option Packet)} (calm : d.Calm)
    (accepted : d.acceptAll entries = .ok (e, calls)) :
    d.Brings (d.reception.run entries) e calls := by
  induction entries generalizing d calls with
  | nil =>
    obtain ⟨rfl, rfl⟩ := Prod.mk.inj (Except.ok.inj accepted)
    exact ⟨rfl, rfl, fun _ _ ↦ rfl, fun _ ↦ rfl⟩
  | cons entry rest ih =>
    obtain ⟨⟨f, first⟩, hfirst, accepted⟩ := bind_eq_ok_iff.1 accepted
    obtain ⟨⟨g, others⟩, hrest, accepted⟩ := bind_eq_ok_iff.1 accepted
    obtain ⟨rfl, rfl⟩ := Prod.mk.inj (Except.ok.inj accepted)
    obtain ⟨calm', brings⟩ := calm.accept hfirst
    have hothers := ih calm' hrest
    have hoptions : f.options = d.options := congrArg Setting.options brings.setting
    have hmode : f.mode = d.mode := congrArg Setting.mode brings.setting
    rw [brings.reception] at hothers
    refine ⟨hothers.setting.trans brings.setting, hothers.reception, fun q other ↦ ?_,
      fun mode ↦ ?_⟩
    · have hstatus := hothers.status q other
      rw [hoptions, brings.status q other] at hstatus
      rw [hstatus, Reception.run, DemuxOptions.tallied_append, Nat.add_assoc]
    · have hsections := hothers.sections (hmode.trans mode)
      rw [hoptions] at hsections
      rw [List.filterMap_append, brings.sections mode, hsections, Reception.run,
        DemuxOptions.selection_append]

/-- Whether two demultiplexers are the same but for the watch for changes within a version, and
what the handlers keep. -/
structure SameButWatch (d : Demux σ) (e : Demux τ) : Prop where
  setting : d.setting.lax = e.setting.lax
  filter : d.filter = e.filter
  known : ∀ q, d.substreams.get? q = e.substreams.get? q

theorem SameButWatch.accept {d d' : Demux σ} {e e' : Demux τ} {calls' : List Call}
    (same : d.SameButWatch e) (calm : d.Calm) (calm' : e.Calm)
    (accepted : d.accept entry = .ok (d', calls)) (accepted' : e.accept entry = .ok (e', calls')) :
    d'.SameButWatch e' ∧ calls = calls' := by
  cases entry with
  | none =>
    obtain ⟨f, counted, h⟩ := bind_eq_ok_iff.1 accepted
    obtain ⟨rfl, rfl⟩ := Prod.mk.inj (Except.ok.inj h)
    obtain ⟨f', counted', h'⟩ := bind_eq_ok_iff.1 accepted'
    obtain ⟨rfl, rfl⟩ := Prod.mk.inj (Except.ok.inj h')
    have hkeeps := keeps_count counted
    have hkeeps' := keeps_count counted'
    refine ⟨⟨?_, ?_, fun q ↦ ?_⟩, rfl⟩
    · rw [hkeeps.setting, hkeeps'.setting, same.setting]
    · rw [hkeeps.filter, hkeeps'.filter, same.filter]
    · rw [substreams_of_count counted, substreams_of_count counted', same.known]
  | some p =>
    have leads := (calm.quiet.feed calm.settled accepted).2
    have leads' := (calm'.quiet.feed calm'.settled accepted').2
    have hsetting : d'.setting.lax = e'.setting.lax := by
      rw [leads.setting, leads'.setting, same.setting]
    have hfilter : d'.filter = e'.filter := by rw [leads.filter, leads'.filter, same.filter]
    have hothers : ∀ q, q ≠ p.pid → d'.substreams.get? q = e'.substreams.get? q := by
      intro q hq
      rw [leads.others q hq, leads'.others q hq, same.known]
    have hpid : d.hasPid p.pid = e.hasPid p.pid := congrArg (·.contains p.pid) same.filter
    by_cases filtered : d.hasPid p.pid = true
    · obtain ⟨hown, rfl⟩ := leads.own_of_filtered filtered
      obtain ⟨hown', rfl⟩ := leads'.own_of_filtered (hpid ▸ filtered)
      have htake : d.setting.take (d.substream p.pid) p = e.setting.take (e.substream p.pid) p := by
        unfold substream
        rw [← Setting.take_lax, same.setting, same.known, Setting.take_lax]
      refine ⟨⟨hsetting, hfilter, fun q ↦ ?_⟩, by rw [htake]⟩
      by_cases hq : q = p.pid
      · rw [hq, hown, hown', htake]
      · exact hothers q hq
    · obtain ⟨hown, rfl⟩ := leads.own_of_not_filtered filtered
      obtain ⟨hown', rfl⟩ := leads'.own_of_not_filtered (hpid ▸ filtered)
      refine ⟨⟨hsetting, hfilter, fun q ↦ ?_⟩, rfl⟩
      by_cases hq : q = p.pid
      · rw [hq, hown, hown', same.known]
      · exact hothers q hq

theorem SameButWatch.acceptAll {d d' : Demux σ} {e e' : Demux τ} {calls' : List Call}
    {entries : List (Option Packet)} (same : d.SameButWatch e) (calm : d.Calm) (calm' : e.Calm)
    (accepted : d.acceptAll entries = .ok (d', calls))
    (accepted' : e.acceptAll entries = .ok (e', calls')) : calls = calls' := by
  induction entries generalizing d e calls calls' with
  | nil =>
    obtain ⟨-, rfl⟩ := Prod.mk.inj (Except.ok.inj accepted)
    obtain ⟨-, rfl⟩ := Prod.mk.inj (Except.ok.inj accepted')
    rfl
  | cons entry rest ih =>
    obtain ⟨⟨f, first⟩, hfirst, accepted⟩ := bind_eq_ok_iff.1 accepted
    obtain ⟨⟨g, others⟩, hrest, accepted⟩ := bind_eq_ok_iff.1 accepted
    obtain ⟨rfl, rfl⟩ := Prod.mk.inj (Except.ok.inj accepted)
    obtain ⟨⟨f', first'⟩, hfirst', accepted'⟩ := bind_eq_ok_iff.1 accepted'
    obtain ⟨⟨g', others'⟩, hrest', accepted'⟩ := bind_eq_ok_iff.1 accepted'
    obtain ⟨rfl, rfl⟩ := Prod.mk.inj (Except.ok.inj accepted')
    obtain ⟨hsame, rfl⟩ := same.accept calm calm' hfirst hfirst'
    rw [ih hsame (calm.accept hfirst).1 (calm'.accept hfirst').1 hrest hrest']

def FillsUpOver (d : Demux σ) (entries : List (Option Packet)) : Prop :=
  ∃ before entry after e calls, entries = before ++ entry :: after ∧
    d.acceptAll before = .ok (e, calls) ∧ (e.status.Full ∨ ∃ p, entry = some p ∧ e.FillsUp p)

theorem completes_accept (h : d.Settled) (entry : Option Packet) :
    Completes (d.accept entry) (d.status.Full ∨ ∃ p, entry = some p ∧ d.FillsUp p) := by
  cases entry with
  | none => exact .bind ((completes_count (List.nodup_singleton _)).mono .inl) fun _ _ ↦ .ok _
  | some p => exact (completes_feed h p).mono fun full ↦ .inr ⟨p, rfl, full⟩

theorem Settled.accept (h : d.Settled) (accepted : d.accept entry = .ok (e, calls)) :
    e.Settled := by
  cases entry with
  | none =>
    obtain ⟨f, counted, hf⟩ := bind_eq_ok_iff.1 accepted
    obtain ⟨rfl, -⟩ := Prod.mk.inj (Except.ok.inj hf)
    exact h.count counted
  | some p => exact h.feed accepted

theorem completes_acceptAll (h : d.Settled) (entries : List (Option Packet)) :
    Completes (d.acceptAll entries) (d.FillsUpOver entries) := by
  induction entries generalizing d with
  | nil => exact .ok _
  | cons entry rest ih =>
    refine .bind ((completes_accept h entry).mono fun full ↦ ?_) ?_
    · exact ⟨[], entry, rest, d, [], rfl, rfl, full⟩
    rintro ⟨e, first⟩ he
    refine .bind ((ih (h.accept he)).mono ?_) fun _ _ ↦ .ok _
    rintro ⟨before, other, after, f, more, rfl, hf, full⟩
    refine ⟨entry :: before, other, after, f, first ++ more, rfl, ?_, full⟩
    exact bind_eq_ok_iff.2 ⟨_, he, bind_eq_ok_iff.2 ⟨_, hf, rfl⟩⟩

/-- Two demultiplexers with the same filter, the same substreams and the same counts, but any
options and any handlers that ask for no changes of the filter, take a stream in the same way. The
sections delivered are those of the pieces that the options choose, and to watch for changes within
a version changes nothing but their count. Only a full counter can stop one of them. -/
theorem Reachable.options_select {d : Demux σ} {e : Demux τ} (reachable : d.Reachable)
    (reachable' : e.Reachable) (quiet : d.Quiet) (quiet' : e.Quiet) (filter : d.filter = e.filter)
    (status : d.status = e.status) (known : ∀ q, d.substreams.get? q = e.substreams.get? q)
    (entries : List (Option Packet)) :
    d.acceptAll entries = .error .overflow ∧ d.FillsUpOver entries ∨
    e.acceptAll entries = .error .overflow ∧ e.FillsUpOver entries ∨
    ∃ d' calls e' calls', d.acceptAll entries = .ok (d', calls) ∧
      e.acceptAll entries = .ok (e', calls') ∧
      d'.filter = e'.filter ∧
      (∀ q, (d'.substreams.get? q).map (·.reassembly) = (e'.substreams.get? q).map (·.reassembly)) ∧
      (∀ q ∈ [Problem.invalidPacket, .discontinuity, .scrambled, .truncated],
        d'.status.get q = e'.status.get q) ∧
      (d.mode = .sections → calls.filterMap Call.sect? =
        ((d.reception.run entries).2.pieces.map d.options.read).filter fun s ↦
          s.isValid && (s.isShort || if s.isNext then d.options.next else d.options.current)) ∧
      (d.mode = .sections → e.mode = .sections → d.options.checksums = .check →
        e.options.checksums = .ignore → d.options.current = e.options.current →
        d.options.next = e.options.next → calls.filterMap Call.sect? =
          (calls'.filterMap Call.sect?).filter fun s ↦
            s.isShort || Section.storedChecksum s.bytes == Section.computedChecksum s.bytes) ∧
      (d.setting.lax = e.setting.lax → calls = calls' ∧
        ∀ q, q ≠ .invalidVersion → d'.status.get q = e'.status.get q) := by
  have calm := reachable.calm quiet
  have calm' := reachable'.calm quiet'
  rcases completes_acceptAll calm.settled entries with ⟨⟨d', calls⟩, accepted⟩ | stopped
  swap
  · exact .inl stopped
  rcases completes_acceptAll calm'.settled entries with ⟨⟨e', calls'⟩, accepted'⟩ | stopped'
  swap
  · exact .inr (.inl stopped')
  have brings := calm.acceptAll accepted
  have brings' := calm'.acceptAll accepted'
  have hreception : d.reception = e.reception := by
    unfold reception
    rw [filter]
    exact congrArg (Reception.mk _) (funext fun q ↦ by rw [known])
  rw [← hreception] at brings'
  have hafter : d'.reception = e'.reception := brings.reception.trans brings'.reception.symm
  have hstatus : ∀ q, d.status.get q = e.status.get q := fun q ↦ by rw [status]
  refine .inr (.inr ⟨d', calls, e', calls', accepted, accepted', congrArg Reception.filter hafter,
    fun q ↦ congrFun (congrArg Reception.known hafter) q, fun q packets ↦ ?_, brings.sections,
    fun mode mode' check ignore current next ↦ ?_, fun setting ↦ ⟨?_, fun q other ↦ ?_⟩⟩)
  · have other : q ≠ .invalidVersion := by
      rintro rfl
      simp at packets
    rw [brings.status q other, brings'.status q other, hstatus, DemuxOptions.count_tallied packets,
      DemuxOptions.count_tallied packets]
  · rw [brings.sections mode, brings'.sections mode']
    exact DemuxOptions.selection_check check ignore current next _
  · exact SameButWatch.acceptAll ⟨setting, filter, known⟩ calm calm' accepted accepted'
  · have hoptions : d.setting.lax.options = e.setting.lax.options :=
      congrArg Setting.options setting
    -- What is counted does not depend on the watch.
    have htallied : d.options.tallied = e.options.tallied := by
      show d.setting.lax.options.tallied = e.setting.lax.options.tallied
      rw [hoptions]
    rw [brings.status q other, brings'.status q other, hstatus, htallied]

def sectioner (rule : ChecksumRule) : Demux Unit :=
  (addPid { options := { checksums := rule }, handlerState := () } .pat).setDelivery
    (some (.sections fun state _ _ ↦ { state }))

theorem quiet_sectioner (rule : ChecksumRule) : (sectioner rule).Quiet := by
  intro state view c response h
  cases c with
  | sect s =>
    obtain rfl := Option.some.inj h
    rfl
  | table t => cases h
  | invalid data => cases h

def junkAndPacket : Bytes :=
  List.replicate Packet.size 0 ++
    (Packet.leading .pat ([0x42, 0x30, 1, 0] ++ (part 0 0 0).bytes)).bytes

theorem Reachable.options_select_junk : ∃ d calls e calls',
    ((sectioner .check).push junkAndPacket).value = .ok (d, calls) ∧
    ((sectioner .ignore).push junkAndPacket).value = .ok (e, calls') ∧
    (calls.filterMap Call.sect?).map (·.size) = [4] ∧
    (calls'.filterMap Call.sect?).map (·.size) = [4, 12] ∧
    d.status.invalidPackets = e.status.invalidPackets ∧
    calls.filterMap Call.sect? = (calls'.filterMap Call.sect?).filter fun s ↦
      s.isShort || Section.storedChecksum s.bytes == Section.computedChecksum s.bytes := by
  have reachable (rule : ChecksumRule) : (sectioner rule).Reachable :=
    .setDelivery (.addPid (.start _ _) _) _
  have done (rule : ChecksumRule) (sizes : List Nat)
      (h : ((sectioner rule).push junkAndPacket).value.toOption.bind (fun r ↦
        some ((r.2.filterMap Call.sect?).map (·.size))) = some sizes) :
      ∃ d calls, ((sectioner rule).push junkAndPacket).value = .ok (d, calls) ∧
        (calls.filterMap Call.sect?).map (·.size) = sizes := by
    obtain ⟨⟨d, calls⟩, hd, hsizes⟩ := toOption_bind_eq_some_iff.1 h
    exact ⟨d, calls, hd, Option.some.inj hsizes⟩
  obtain ⟨d, calls, hd, hsizes⟩ := done .check [4] (by decide +kernel)
  obtain ⟨e, calls', he, hsizes'⟩ := done .ignore [4, 12] (by decide +kernel)
  have hd' := (value_push _ _).symm.trans hd
  have he' := (value_push _ _).symm.trans he
  rcases (reachable .check).options_select (reachable .ignore) (quiet_sectioner .check)
    (quiet_sectioner .ignore) rfl rfl (fun _ ↦ rfl) (entries junkAndPacket)
    with ⟨stopped, -⟩ | ⟨stopped, -⟩ |
      ⟨d₁, calls₁, e₁, calls₁', h₁, h₁', -, -, counts, -, checked, -⟩
  · cases stopped.symm.trans hd'
  · cases stopped.symm.trans he'
  · obtain ⟨rfl, rfl⟩ := Prod.mk.inj (Except.ok.inj (h₁.symm.trans hd'))
    obtain ⟨rfl, rfl⟩ := Prod.mk.inj (Except.ok.inj (h₁'.symm.trans he'))
    exact ⟨d₁, calls₁, e₁, calls₁', hd, he, hsizes, hsizes',
      counts .invalidPacket (List.mem_cons_self ..), checked rfl rfl rfl rfl rfl rfl⟩

end Demux

end TransportStream
