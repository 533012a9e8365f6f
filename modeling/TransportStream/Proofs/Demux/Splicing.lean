import Mathlib.Tactic.SplitIfs
import TransportStream.Proofs.Table.Integrity

namespace TransportStream

/-- A packet, and its substream as the packet finds it. -/
structure Visit where
  state : Reassembly
  packet : Packet

namespace Visit

variable (v : Visit)

def isIgnored : Bool :=
  v.state.arrival v.packet v.packet.breakSignalled = .duplicate

def isCounted : Bool :=
  decide (.discontinuity ∈ (v.state.next v.packet).2.problems)

def isReadable : Bool :=
  !v.isIgnored && v.packet.content.isSome

def payload : Bytes := v.packet.content.getD []

def pointer : Nat := (v.payload.headD 0).toNat

def tail : Bytes := (v.payload.drop 1).drop v.pointer

/-- The bytes that go on with what came before: those before the pointer if a section starts. -/
def share : Bytes :=
  if v.packet.unitStart then (v.payload.drop 1).take v.pointer else v.payload

structure Opens : Prop where
  readable : v.isReadable = true
  clear : v.packet.isScrambled = false
  starts : v.packet.unitStart = true
  aimed : v.pointer ≤ (v.payload.drop 1).length

/-- Whether the packet gives no sign of a loss. What is passed over may be scrambled, as it is not
looked at. -/
structure Unbroken : Prop where
  uncounted : v.isCounted = false
  unsignalled : v.packet.breakSignalled = false
  clear : v.packet.isScrambled = true → v.isIgnored = true

end Visit

/-- How data is cut out of what a substream carries: out of the bytes after the pointer of one
packet and the payloads that are read after it. In the last of them a section may start, and the
bytes before its pointer count. -/
structure Splice (log : List Visit) (data : Bytes) (first : Visit) (between : List Visit) :
    Prop where
  located : ∃ before after, log = before ++ first :: (between ++ after)
  opens : first.Opens
  whole : ∀ v ∈ (between.filter Visit.isReadable).dropLast, v.packet.unitStart = false
  within : data <:+: first.tail ++ (between.filter Visit.isReadable).flatMap Visit.share

def Spliced (log : List Visit) (data : Bytes) : Prop :=
  ∃ first between, Splice log data first between ∧ ∀ v ∈ between, v.Unbroken

/-- Whether data ends what a substream has carried in a stretch that is not over. -/
def Underway (log : List Visit) (data : Bytes) : Prop :=
  ∃ before first between, log = before ++ first :: between ∧ first.Opens ∧
    (∀ v ∈ between, v.Unbroken) ∧
    (∀ v ∈ between.filter Visit.isReadable, v.packet.unitStart = false) ∧
    data <:+ first.tail ++ (between.filter Visit.isReadable).flatMap Visit.share

theorem Spliced.append {log : List Visit} {data : Bytes} (h : Spliced log data)
    (more : List Visit) : Spliced (log ++ more) data := by
  obtain ⟨first, between, ⟨⟨before, after, rfl⟩, opens, whole, within⟩, unbroken⟩ := h
  refine ⟨first, between, ⟨⟨before, after ++ more, ?_⟩, opens, whole, within⟩, unbroken⟩
  simp

namespace Underway

variable {log : List Visit} {data piece : Bytes} {v : Visit}

theorem of_opens (h : v.Opens) : Underway (log ++ [v]) v.tail := by
  have hends : v.tail <:+ v.tail ++ [] := ⟨[], (List.append_nil v.tail).symm⟩
  refine ⟨log, v, [], rfl, h, ?_, ?_, hends⟩
  · intro w hw
    cases hw
  · intro w hw
    cases hw

theorem of_suffix (h : Underway log data) (hs : piece <:+ data) : Underway log piece := by
  obtain ⟨before, first, between, hlog, opens, unbroken, whole, ends⟩ := h
  exact ⟨before, first, between, hlog, opens, unbroken, whole, hs.trans ends⟩

theorem spliced (h : Underway log data) (hp : piece <:+: data) : Spliced log piece := by
  obtain ⟨before, first, between, rfl, opens, unbroken, whole, ends⟩ := h
  refine ⟨first, between, ⟨⟨before, [], by simp⟩, opens, fun v hv ↦ ?_, hp.trans ends.isInfix⟩,
    unbroken⟩
  exact whole v ((List.dropLast_sublist _).subset hv)

theorem pass (h : Underway log data) (unbroken : v.Unbroken) (unread : v.isReadable = false) :
    Underway (log ++ [v]) data := by
  obtain ⟨before, first, between, rfl, opens, hunbroken, whole, ends⟩ := h
  have hfilter : (between ++ [v]).filter Visit.isReadable = between.filter Visit.isReadable := by
    simp [unread]
  refine ⟨before, first, between ++ [v], by simp, opens, ?_, ?_, ?_⟩
  · rw [List.forall_mem_append]
    exact ⟨hunbroken, by simpa using unbroken⟩
  · rw [hfilter]
    exact whole
  · rw [hfilter]
    exact ends

theorem filter_append_readable {between : List Visit} (readable : v.isReadable = true) :
    (between ++ [v]).filter Visit.isReadable = between.filter Visit.isReadable ++ [v] := by
  simp [readable]

theorem take (h : Underway log data) (unbroken : v.Unbroken) (readable : v.isReadable = true)
    (whole : v.packet.unitStart = false) : Underway (log ++ [v]) (data ++ v.payload) := by
  obtain ⟨before, first, between, rfl, opens, hunbroken, hwhole, front, hfront⟩ := h
  have hshare : v.share = v.payload := by
    rw [Visit.share, whole]
    rfl
  refine ⟨before, first, between ++ [v], by simp, opens, ?_, ?_, front, ?_⟩
  · rw [List.forall_mem_append]
    exact ⟨hunbroken, by simpa using unbroken⟩
  · rw [filter_append_readable readable, List.forall_mem_append]
    exact ⟨hwhole, by simpa using whole⟩
  · rw [filter_append_readable readable, List.flatMap_append, List.flatMap_singleton, hshare,
      ← List.append_assoc, ← List.append_assoc, hfront]

theorem spliced_last (h : Underway log data) (unbroken : v.Unbroken)
    (readable : v.isReadable = true) (hp : piece <:+: data ++ v.share) :
    Spliced (log ++ [v]) piece := by
  obtain ⟨before, first, between, rfl, opens, hunbroken, whole, front, hfront⟩ := h
  refine ⟨first, between ++ [v], ⟨⟨before, [], by simp⟩, opens, ?_, ?_⟩, ?_⟩
  · rw [filter_append_readable readable, List.dropLast_concat]
    exact whole
  · rw [filter_append_readable readable, List.flatMap_append, List.flatMap_singleton,
      ← List.append_assoc, ← hfront, List.append_assoc]
    exact hp.trans (List.suffix_append _ _).isInfix
  · rw [List.forall_mem_append]
    exact ⟨hunbroken, by simpa using unbroken⟩

end Underway

namespace Reassembly

variable {r : Reassembly} {log : List Visit} {v : Visit} {p : Packet}

theorem not_signalled (h : r.arrival p true = .inSequence ∨ r.arrival p true = .duplicate) :
    False := by
  unfold arrival at h
  split at h <;> rcases h with h | h <;> cases h

theorem breakSignalled_eq_false {a : Arrival} (h : r.arrival p p.breakSignalled = a)
    (ha : a = .inSequence ∨ a = .duplicate) : p.breakSignalled = false := by
  cases hb : p.breakSignalled with
  | false => rfl
  | true =>
    rw [hb] at h
    rw [← h] at ha
    exact (not_signalled ha).elim

theorem last_next (p : Packet) : (r.next p).1.last = some p.counter := by
  have haccept : ∀ a, (r.accept p a).last = some p.counter := by
    intro a
    cases a <;> rfl
  unfold next
  cases r.arrival p p.breakSignalled with
  | duplicate => exact haccept _
  | first | afterBreak | inSequence | outOfSequence =>
    exact (last_absorbed p).trans (haccept _)

structure Explains (log : List Visit) (outcome : Reassembly × Findings Bytes) : Prop where
  buffer : outcome.1.intake = .accumulating → Underway log outcome.1.buffer
  pieces : ∀ piece ∈ outcome.2.pieces, Spliced log piece

theorem Explains.of_idle {outcome : Reassembly × Findings Bytes} (idle : outcome.1.intake = .idle)
    (none : outcome.2.pieces = []) : Explains log outcome where
  buffer := by
    intro h
    cases idle.symm.trans h
  pieces := by
    rw [none]
    exact fun _ h ↦ absurd h List.not_mem_nil

theorem Explains.keep {data : Bytes} (h : Underway log data)
    {problems : List Problem} {pieces : List Bytes}
    (hp : ∀ piece ∈ pieces, Spliced log piece ∨ piece <:+: data) :
    Explains log (r.keep (Extraction.split data).pending, ⟨problems, pieces⟩) where
  buffer _ := h.of_suffix (Extraction.suffix_pending data)
  pieces piece hpiece := (hp piece hpiece).elim id h.spliced

theorem explains_started {payload : Bytes} (content : v.packet.content = some payload)
    (processed : v.isIgnored = false) (clear : v.packet.isScrambled = false)
    (starts : v.packet.unitStart = true)
    (h : r.intake = .accumulating → Underway log r.buffer ∧ v.Unbroken) :
    Explains (log ++ [v]) (r.started payload) := by
  have hpayload : v.payload = payload := by rw [Visit.payload, content]; rfl
  have readable : v.isReadable = true := by rw [Visit.isReadable, processed, content]; rfl
  have hshare : v.share = (payload.drop 1).take (payload.headD 0).toNat := by
    rw [Visit.share, if_pos starts, Visit.pointer, hpayload]
  unfold started
  dsimp only
  split
  · exact .of_idle rfl rfl
  · next aimed =>
    have opens : v.Opens := by
      refine ⟨readable, clear, starts, ?_⟩
      rw [Visit.pointer, hpayload]
      exact Nat.not_lt.1 aimed
    have htail : v.tail = (payload.drop 1).drop (payload.headD 0).toNat := by
      rw [Visit.tail, Visit.pointer, hpayload]
    rw [← htail]
    refine .keep (.of_opens opens) fun piece hp ↦ ?_
    rcases List.mem_append.1 hp with hp | hp
    · left
      cases hintake : r.intake with
      | idle =>
        rw [finished, hintake] at hp
        cases hp
      | accumulating =>
        obtain ⟨underway, unbroken⟩ := h hintake
        refine underway.spliced_last unbroken readable ?_
        rw [hshare]
        exact mem_pieces_finished hp
    · exact .inr (Extraction.infix_of_mem_pieces hp)

theorem explains_continued {payload : Bytes} (content : v.packet.content = some payload)
    (processed : v.isIgnored = false) (starts : v.packet.unitStart = false)
    (h : r.intake = .accumulating → Underway log r.buffer ∧ v.Unbroken) :
    Explains (log ++ [v]) (r.continued payload) := by
  have hpayload : v.payload = payload := by rw [Visit.payload, content]; rfl
  have readable : v.isReadable = true := by rw [Visit.isReadable, processed, content]; rfl
  cases hintake : r.intake with
  | idle =>
    rw [continued, hintake]
    exact .of_idle hintake rfl
  | accumulating =>
    obtain ⟨underway, unbroken⟩ := h hintake
    rw [continued_of_accumulating hintake rfl, ← hpayload]
    exact .keep (underway.take unbroken readable starts) fun piece hp ↦
      .inr (Extraction.infix_of_mem_pieces hp)

theorem explains_absorbed (processed : v.isIgnored = false)
    (h : r.intake = .accumulating → Underway log r.buffer ∧ v.isCounted = false ∧
      v.packet.breakSignalled = false) : Explains (log ++ [v]) (r.absorbed v.packet) := by
  unfold absorbed
  split
  · exact .of_idle rfl rfl
  · next clear =>
    have clear : v.packet.isScrambled = false := Bool.eq_false_iff.2 clear
    have hunbroken : r.intake = .accumulating → Underway log r.buffer ∧ v.Unbroken := by
      intro hintake
      obtain ⟨underway, uncounted, unsignalled⟩ := h hintake
      refine ⟨underway, uncounted, unsignalled, fun scrambled ↦ ?_⟩
      cases clear.symm.trans scrambled
    cases content : v.packet.content with
    | none =>
      have unread : v.isReadable = false := by
        rw [Visit.isReadable, content]
        exact Bool.and_false _
      refine ⟨fun hintake ↦ ?_, fun _ hp ↦ absurd hp List.not_mem_nil⟩
      obtain ⟨underway, unbroken⟩ := hunbroken hintake
      exact underway.pass unbroken unread
    | some payload =>
      cases starts : v.packet.unitStart with
      | true => exact explains_started content processed clear starts hunbroken
      | false => exact explains_continued content processed starts hunbroken

structure Sourced (log : List Visit) (r : Reassembly) : Prop where
  fresh : r.last = none → r.intake = .idle
  buffer : r.intake = .accumulating → Underway log r.buffer

theorem Sourced.explains_duplicate (h : Sourced log r)
    (harrival : r.arrival p p.breakSignalled = .duplicate) :
    Explains (log ++ [⟨r, p⟩]) (r.next p) := by
  have hnext : r.next p = (r.accept p .duplicate, {}) := by rw [next, harrival]
  have ignored : Visit.isIgnored ⟨r, p⟩ = true := by rw [Visit.isIgnored, harrival]; rfl
  have unbroken : Visit.Unbroken ⟨r, p⟩ := by
    refine ⟨?_, breakSignalled_eq_false harrival (.inr rfl), fun _ ↦ ignored⟩
    rw [Visit.isCounted, hnext]
    rfl
  have unread : Visit.isReadable ⟨r, p⟩ = false := by
    rw [Visit.isReadable, ignored]
    rfl
  rw [hnext]
  exact ⟨fun hintake ↦ (h.buffer hintake).pass unbroken unread,
    fun _ hp ↦ absurd hp List.not_mem_nil⟩

theorem Sourced.explains_inSequence (h : Sourced log r)
    (harrival : r.arrival p p.breakSignalled = .inSequence) :
    Explains (log ++ [⟨r, p⟩]) (r.next p) := by
  have hnext : r.next p = (r.accept p .inSequence).absorbed p := by rw [next, harrival]
  have processed : Visit.isIgnored ⟨r, p⟩ = false := by rw [Visit.isIgnored, harrival]; rfl
  have uncounted : Visit.isCounted ⟨r, p⟩ = false := by
    rw [Visit.isCounted, hnext]
    rcases problems_absorbed (r := r.accept p .inSequence) p with hp | hp | hp <;>
      rw [hp] <;> rfl
  rw [hnext]
  exact explains_absorbed processed fun hintake ↦
    ⟨h.buffer hintake, uncounted, breakSignalled_eq_false harrival (.inl rfl)⟩

theorem explains_of_idle {a : Arrival} (harrival : r.arrival p p.breakSignalled = a)
    (ha : a ≠ .duplicate) (idle : (r.accept p a).intake = .idle) :
    Explains (log ++ [⟨r, p⟩]) (r.next p) := by
  have processed : Visit.isIgnored ⟨r, p⟩ = false := by
    rw [Visit.isIgnored, harrival]
    exact decide_eq_false ha
  have habsorbed : Explains (log ++ [⟨r, p⟩]) ((r.accept p a).absorbed p) :=
    explains_absorbed processed fun hintake ↦ by cases idle.symm.trans hintake
  unfold next
  rw [harrival]
  cases a with
  | duplicate => exact absurd rfl ha
  | first | afterBreak | inSequence => exact habsorbed
  | outOfSequence last => exact ⟨habsorbed.buffer, habsorbed.pieces⟩

theorem last_of_first (h : r.arrival p p.breakSignalled = .first) : r.last = none := by
  unfold arrival at h
  split at h
  · assumption
  · split_ifs at h

theorem Sourced.explains_next (h : Sourced log r) (p : Packet) :
    Explains (log ++ [⟨r, p⟩]) (r.next p) := by
  cases harrival : r.arrival p p.breakSignalled with
  | duplicate => exact h.explains_duplicate harrival
  | inSequence => exact h.explains_inSequence harrival
  | first => exact explains_of_idle harrival nofun (h.fresh (last_of_first harrival))
  | afterBreak | outOfSequence => exact explains_of_idle harrival nofun rfl

def visits (r : Reassembly) : List Packet → List Visit
  | [] => []
  | p :: rest => ⟨r, p⟩ :: (r.next p).1.visits rest

theorem Sourced.pieces_run (h : Sourced log r) (packets : List Packet) :
    ∀ piece ∈ (r.run packets).2.pieces, Spliced (log ++ r.visits packets) piece := by
  induction packets generalizing r log with
  | nil => exact fun _ hp ↦ absurd hp List.not_mem_nil
  | cons p rest ih =>
    have explains := h.explains_next p
    have sourced : Sourced (log ++ [⟨r, p⟩]) (r.next p).1 := by
      refine ⟨fun none ↦ ?_, explains.buffer⟩
      cases none.symm.trans (last_next p)
    intro piece hp
    rw [visits, List.append_cons]
    rcases List.mem_append.1 hp with hp | hp
    · exact (explains.pieces piece hp).append _
    · exact ih sourced piece hp

theorem spliced_of_mem_extracted {pid : Pid} {packets : List Packet} {piece : Bytes}
    (h : piece ∈ extracted pid packets) : Spliced (({ pid } : Reassembly).visits packets) piece :=
  (⟨fun _ ↦ rfl, fun h ↦ by cases h⟩ : Sourced [] { pid }).pieces_run packets piece h

end Reassembly

namespace Demux

variable {σ : Type} {m : Moment σ} {events : List Event} {pid : Pid} {pieces : List Bytes}
  {data : Bytes}

def passed (d : Demux σ) (p : Packet) : Demux σ := (d.advanced p).settle

theorem Run.pass {d : Demux σ} {p : Packet} (room : d.packetCount + 1 < wordLimit)
    (filtered : d.hasPid p.pid = true) (silent : d.findings p = {})
    (unasked : d.view.requests = []) :
    ∃ lost, (∀ q, lost q = false) ∧
      Run ⟨d, none⟩ [.taken p, .forgotten lost] ⟨d.passed p, none⟩ := by
  have htake := Step.take room filtered (e := d.advanced p) (by rw [silent]; rfl)
  rw [silent] at htake
  have hkept : ∀ q, (d.advanced p).view.requests.any (FilterChange.removes q) = false := by
    intro q
    show d.view.requests.any _ = false
    rw [unasked]
    rfl
  exact ⟨_, hkept, .cons htake (.single (.settle _ _))⟩

theorem Run.exists_of_third (first second third : Packet) (data : Bytes)
    (pids : first.pid = .pat ∧ second.pid = .pat ∧ third.pid = .pat)
    (silent : tabulator.findings first = {} ∧ (tabulator.passed first).findings second = {})
    (brings : ((tabulator.passed first).passed second).findings third = ⟨[], [data]⟩) :
    ∃ events m, Run ⟨{ options := { checksums := .ignore }, handlerState := () }, none⟩ events m ∧
      m.work = some (.pat, [data]) ∧ since .pat events = [first, second, third] := by
  have hstart : Step ⟨{ options := { checksums := .ignore }, handlerState := () }, none⟩ .changed
      ⟨tabulator, none⟩ := .change rfl
  obtain ⟨lost, hlost, hfirst⟩ := Run.pass (d := tabulator) (p := first) (by decide)
    (by rw [pids.1]; decide) silent.1 rfl
  obtain ⟨lost', hlost', hsecond⟩ := Run.pass (d := tabulator.passed first) (p := second)
    (show 1 + 1 < wordLimit by decide) (by rw [pids.2.1]; rfl) silent.2 rfl
  have hthird := Step.take (d := (tabulator.passed first).passed second) (p := third)
    (show 2 + 1 < wordLimit by decide) (by rw [pids.2.2]; rfl) (by rw [brings]; rfl)
  refine ⟨_, _, .cons hstart ((hfirst.append hsecond).append (.single hthird)), ?_, ?_⟩
  · rw [brings, pids.2.2]
  · simp only [since, List.cons_append, List.nil_append, List.foldl_cons, List.foldl_nil,
      Event.follow, hlost, hlost', pids, if_true]
    rfl

/-- Every piece that a packet has brought is cut out of what its substream has carried, since it was
last forgotten, from one packet on in which a section starts. After that packet none was counted as
a discontinuity or signalled one, and none was scrambled but those that were passed over. -/
theorem Run.exists_splice {options : DemuxOptions} {state : σ}
    (run : Run ⟨{ options, handlerState := state }, none⟩ events m)
    (due : m.work = some (pid, pieces)) (mem : data ∈ pieces) :
    ∃ first between,
      Splice (({ pid } : Reassembly).visits (since pid events)) data first between ∧
      ∀ v ∈ between, v.isCounted = false ∧ v.packet.breakSignalled = false ∧
        (v.packet.isScrambled = true → v.isIgnored = true) := by
  obtain ⟨first, between, hsplice, unbroken⟩ :=
    Reassembly.spliced_of_mem_extracted (run.accounted.1.work pid pieces due data mem)
  exact ⟨first, between, hsplice, fun v hv ↦
    ⟨(unbroken v hv).uncounted, (unbroken v hv).unsignalled, (unbroken v hv).clear⟩⟩

def spread : Bytes := [0x42, 0x30, 197] ++ List.replicate 197 0

def scrambled (p : Packet) : Packet where
  bytes := p.bytes.modify 3 (withBits · 6 2 2)
  length_bytes := by rw [List.length_modify, p.length_bytes]

/-- The start of a section, the packet once more but scrambled, and the rest of the section. -/
def repeated : List Packet :=
  let start := Packet.leading .pat (spread.take 183)
  [start, scrambled start,
    (Packet.payloadOnly .pat ContinuityCounter.zero.next).withPayload (spread.drop 183)]

theorem Run.exists_splice_repeated : ∃ first between,
    Splice (({ pid := .pat } : Reassembly).visits repeated) spread first between ∧
    ∀ v ∈ between, v.isCounted = false ∧ v.packet.breakSignalled = false ∧
      (v.packet.isScrambled = true → v.isIgnored = true) := by
  obtain ⟨events, m, run, due, hsince⟩ := Run.exists_of_third repeated[0] repeated[1]
    repeated[2] spread (by decide +kernel) (by decide +kernel) (by decide +kernel)
  have h := run.exists_splice due (List.mem_singleton_self spread)
  rwa [hsince] at h

theorem exists_visits_repeated : ∃ v₀ v₁ v₂ : Visit,
    ({ pid := .pat } : Reassembly).visits repeated = [v₀, v₁, v₂] ∧ v₀.tail.length = 183 ∧
      v₁.packet.isScrambled = true ∧ v₁.isReadable = false ∧ v₂.packet.unitStart = false :=
  ⟨_, _, _, rfl, by decide +kernel, by decide +kernel, by decide +kernel, by decide +kernel⟩

/-- A section may be spliced around a scrambled packet, which is passed over as a repetition. -/
theorem scrambled_between :
    (tabulator.feedAll repeated).value.toOption.map (·.2) =
      some [.table (.single (.ofBytes .ignore spread .pat))] ∧
    ¬ ∃ first between,
      Splice (({ pid := .pat } : Reassembly).visits repeated) spread first between ∧
      ∀ v ∈ between, v.isCounted = false ∧ v.packet.breakSignalled = false ∧
        v.packet.isScrambled = false := by
  refine ⟨by decide +kernel, ?_⟩
  rintro ⟨first, between, ⟨⟨before, after, located⟩, opens, -, within⟩, clear⟩
  obtain ⟨v₀, v₁, v₂, hvisits, hlength, scrambled, unread, goes_on⟩ := exists_visits_repeated
  rw [hvisits] at located
  match before, between with
  | [], [] =>
    -- The first packet alone does not hold the section.
    obtain ⟨rfl, -⟩ := List.cons.inj located
    have hle := within.length_le
    rw [List.filter_nil, List.flatMap_nil, List.append_nil, hlength] at hle
    exact absurd hle (by decide +kernel)
  | [], w :: _ =>
    obtain ⟨-, located⟩ := List.cons.inj located
    obtain ⟨rfl, -⟩ := List.cons.inj located
    cases scrambled.symm.trans (clear v₁ (List.mem_cons_self ..)).2.2
  | [_], _ =>
    obtain ⟨-, located⟩ := List.cons.inj located
    obtain ⟨rfl, -⟩ := List.cons.inj located
    cases unread.symm.trans opens.readable
  | [_, _], _ =>
    obtain ⟨-, located⟩ := List.cons.inj located
    obtain ⟨-, located⟩ := List.cons.inj located
    obtain ⟨rfl, -⟩ := List.cons.inj located
    cases goes_on.symm.trans opens.starts
  | _ :: _ :: _ :: more, _ =>
    have hlen := congrArg List.length located
    simp only [List.length_cons, List.length_append, List.length_nil] at hlen
    omega

end Demux

end TransportStream
