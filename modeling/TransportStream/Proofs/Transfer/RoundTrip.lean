import TransportStream.Proofs.Demux.Delivery
import TransportStream.Proofs.Transfer.Resumption
import TransportStream.Section.Builder

namespace TransportStream

/-- Whether a section is one that the options let through, and cannot be taken for stuffing. -/
structure DemuxOptions.Accepts (o : DemuxOptions) (s : Section) : Prop where
  valid : Section.diagnose o.checksums s.bytes = none
  selected : o.selects s = true
  tableId_ne : s.tableId ≠ Extraction.stuffingMark

theorem isSection_of_diagnose {rule : ChecksumRule} {data : Bytes}
    (h : Section.diagnose rule data = none)
    (ht : (CommonHeader.read data).tableId ≠ Extraction.stuffingMark) : IsSection data := by
  unfold Section.diagnose at h
  dsimp only at h
  split at h
  · cases h
  · next hl =>
    split at h
    · cases h
    · next hm =>
      split at h
      · cases h
      · next he =>
        have hsize : declaredSize data = data.length := Decidable.not_not.1 he
        have hmax : declaredSize data ≤ Section.maxSize := Nat.not_lt.1 hm
        refine ⟨fun hh ↦ ht ?_, Nat.not_lt.1 hl, hsize, by omega⟩
        cases data with
        | nil => cases hh
        | cons b rest => exact Option.some.inj hh

namespace DemuxOptions.Accepts

variable {o : DemuxOptions} {s : Section} {sections : List Section}

theorem isSection (h : o.Accepts s) : IsSection s.bytes :=
  isSection_of_diagnose h.valid h.tableId_ne

theorem passes (h : o.Accepts s) (pid : Pid) : o.Passes pid s.bytes :=
  ⟨h.valid, h.selected⟩

end DemuxOptions.Accepts

namespace SectionPacker

theorem pid_of_mem_fillAll {z : SectionPacker} {shares : List (Share UInt8)} {p : Packet}
    (h : p ∈ (z.fillAll shares).1) : p.pid = z.pid := by
  induction shares generalizing z with
  | nil => cases h
  | cons share rest ih =>
    rcases List.mem_cons.1 h with rfl | h
    · exact pid_fill z _ _
    · have hp := ih h
      exact hp

theorem carries_packCalls (z : SectionPacker) {calls : List (List Section)}
    (h : ∀ s ∈ calls.flatten, s.bytes ≠ []) :
    Carries 0 calls.flatten 0 (shares 0 (calls.flatMap (batches z.stuffing))) := by
  rw [← flatten_flatMap_batches z.stuffing] at h ⊢
  exact carries_shares _ h

theorem carries_pack (z : SectionPacker) {sections : List Section}
    (h : ∀ s ∈ sections, s.bytes ≠ []) :
    Carries 0 sections 0 (shares 0 (batches z.stuffing sections)) := by
  have hc := carries_shares (n := 0) (batches z.stuffing sections)
  rw [flatten_batches] at hc
  exact hc h

end SectionPacker

namespace Demux

open SectionPacker

variable {σ : Type} {d : Demux σ} {z : SectionPacker} {handle : Handler σ Section}

def listener (pid : Pid) : Demux Unit :=
  (addPid { handlerState := () } pid).setDelivery (some (.sections fun state _ _ ↦ { state }))

theorem listener_spares (pid : Pid) : (listener pid).Spares pid := by
  intro state view c response h
  cases c with
  | table t => cases h
  | invalid data => cases h
  | sect s =>
    obtain rfl := Option.some.inj h
    exact List.not_mem_nil

def blank (n : Nat) : Section :=
  .ofBytes .check (Section.encodeShort 0x42 false (List.replicate n 0)) .pat

def blankPacker : SectionPacker := { pid := .pat, stuffing := .never }

theorem listener_accepts : ∀ s ∈ [blank 300, blank 300], (listener .pat).options.Accepts s := by
  have h : (listener .pat).options.Accepts (blank 300) :=
    ⟨by decide +kernel, by decide +kernel, by decide +kernel⟩
  simpa using h

/-- Whatever a demultiplexer has been through, packed sections are all delivered, and their
substream is at rest after them. What was under way is lost, which shows at most once. Only a
counter without room for what may come can overflow. -/
theorem Reachable.feedAll_pack {sections : List Section} {packets : List Packet}
    (reachable : d.Reachable) (filtered : d.hasPid z.pid = true)
    (delivery : d.delivery = some (.sections handle)) (spares : d.Spares z.pid)
    (nonempty : sections ≠ []) (accepted : ∀ s ∈ sections, d.options.Accepts s)
    (first : ∀ sub, d.substreams.get? z.pid = some sub →
      sub.reassembly.last ≠ some z.counter ∨ sub.reassembly.duplicateSeen = true)
    (interleaved : packets.filter (·.pid = z.pid) = (z.pack sections).1) :
    (d.feedAll packets).value = .error .overflow ∧ ¬ d.HasRoom packets.length ∨
    ∃ d' calls, (d.feedAll packets).value = .ok (d', calls) ∧
      calls.filter (·.isOn z.pid) =
        sections.map (fun s ↦ .sect (.ofBytes d.options.checksums s.bytes z.pid)) ∧
      (∃ sub, d'.substreams.get? z.pid = some sub ∧ sub.reassembly.intake = .idle ∧
        sub.reassembly.buffer = []) ∧
      d.countedOn z.pid .discontinuity packets + d.countedOn z.pid .truncated packets ≤ 1 ∧
      ∀ problem, problem ≠ .discontinuity → problem ≠ .truncated →
        d.countedOn z.pid problem packets = 0 := by
  have hsec : ∀ s ∈ sections, IsSection s.bytes := fun s hs ↦ (accepted s hs).isSection
  have hready : d.Ready z.pid handle := ⟨reachable.sound, delivery, filtered, spares⟩
  have hlast : (d.substream z.pid).reassembly.last ≠ some z.counter ∨
      (d.substream z.pid).reassembly.duplicateSeen = true := by
    unfold substream
    cases hsub : d.substreams.get? z.pid with
    | none => exact .inl nofun
    | some sub => exact first sub hsub
  have hcarries := z.carries_pack fun s hs ↦ (hsec s hs).ne_nil
  obtain ⟨problems, hproblems, hidle, hbuffer, hfound⟩ :=
    (reachable.sound.substream z.pid).2.run_all hcarries nonempty hlast hsec
  rw [← z.pack_eq, ← interleaved] at hidle hbuffer hfound
  rcases hready.overflow_or_exists_feedAll packets with overflow | ⟨d', calls, hfed⟩
  · exact .inl overflow
  have hy := hready.feedAll hfed fun data hm ↦ by
    rw [hfound] at hm
    obtain ⟨s, hs, rfl⟩ := List.mem_map.1 hm
    exact (accepted s hs).passes z.pid
  have hcounted := hy.counted
  rw [hfound] at hcounted
  refine .inr ⟨d', calls, hfed, ?_, ?_, ?_, ?_⟩
  · rw [hy.calls, hfound, List.map_map]
    rfl
  · have hne : packets.filter (·.pid = z.pid) ≠ [] := by
      intro he
      rw [he] at hfound
      have hnil : [] = sections.map (·.bytes) := congrArg Findings.pieces hfound
      exact nonempty (List.map_eq_nil_iff.1 hnil.symm)
    obtain ⟨sub, hsub⟩ := Option.isSome_iff_exists.1 (hy.known (.inr hne))
    have hr := hy.reassembly
    rw [reassembly_substream, hsub] at hr
    have hsr : sub.reassembly = _ := hr
    exact ⟨sub, hsub, by rw [hsr, hidle], by rw [hsr, hbuffer]⟩
  · rw [hcounted, hcounted]
    show problems.count .discontinuity + problems.count .truncated ≤ 1
    rcases hproblems with rfl | rfl | rfl <;> decide
  · intro problem h₁ h₂
    rw [hcounted]
    refine List.count_eq_zero.2 fun hm ↦ ?_
    rcases hproblems with rfl | rfl | rfl
    · cases hm
    · exact h₁ (List.mem_singleton.1 hm)
    · exact h₂ (List.mem_singleton.1 hm)

def cutOff : Packet := .leading .pat ((blank 300).bytes.take 183)

def latePacker : SectionPacker := { blankPacker with counter := { val := 7 } }

def latePackets : List Packet := (latePacker.pack [blank 300, blank 300]).1

/-- A section is under way when the packed ones come. It is lost, which shows as a discontinuity. -/
theorem Reachable.feedAll_pack_blank : ∃ d more d' calls,
    ((listener .pat).feed cutOff).value = .ok (d, more) ∧
    (d.substreams.get? .pat).map (fun sub ↦
      (sub.reassembly.intake, sub.reassembly.buffer.length)) = some (.accumulating, 183) ∧
    (d.feedAll latePackets).value = .ok (d', calls) ∧
    calls.filter (·.isOn .pat) = [.sect (blank 300), .sect (blank 300)] ∧
    (∃ sub, d'.substreams.get? .pat = some sub ∧ sub.reassembly.intake = .idle ∧
      sub.reassembly.buffer = []) ∧
    d.countedOn .pat .discontinuity latePackets = 1 ∧
    ∀ problem, problem ≠ .discontinuity → d.countedOn .pat problem latePackets = 0 := by
  have started : ((listener .pat).feed cutOff).value.toOption.bind (fun r ↦
      (r.1.substreams.get? .pat).bind fun sub ↦
        some (sub.reassembly.last, (sub.reassembly.intake, sub.reassembly.buffer.length),
          r.1.packetCount, r.1.status, r.1.countedOn .pat .discontinuity latePackets)) =
      some (some .zero, (.accumulating, 183), 1, {}, 1) := by
    decide +kernel
  obtain ⟨⟨d, more⟩, fed, started⟩ := toOption_bind_eq_some_iff.1 started
  obtain ⟨sub, known, started⟩ := Option.bind_eq_some_iff.1 started
  simp only [Option.some.injEq, Prod.mk.injEq] at started
  obtain ⟨last, underway, count, status, lost⟩ := started
  have listening : (listener .pat).Reachable := .setDelivery (.addPid (.start {} ()) .pat) _
  have attentive : (listener .pat).Ready .pat _ :=
    ⟨listening.sound, rfl, by decide, listener_spares .pat⟩
  obtain ⟨ready, hoptions⟩ := attentive.feed fed
  have hlength : latePackets.length = 4 := by decide +kernel
  have hroom : d.HasRoom latePackets.length := by
    rw [hlength]
    refine ⟨by rw [count]; decide, fun problem ↦ ?_⟩
    rw [status]
    cases problem <;> decide
  have first : ∀ sub', d.substreams.get? .pat = some sub' →
      sub'.reassembly.last ≠ some latePacker.counter ∨ sub'.reassembly.duplicateSeen = true := by
    intro sub' known'
    obtain rfl := Option.some.inj (known.symm.trans known')
    rw [last]
    exact .inl (by decide)
  have accepted := listener_accepts
  rw [← hoptions] at accepted
  have interleaved : latePackets.filter (·.pid = latePacker.pid) =
      (latePacker.pack [blank 300, blank 300]).1 := by
    decide +kernel
  have h := (listening.feed fed).feedAll_pack ready.hasPid ready.delivery ready.spares
    (List.cons_ne_nil _ _) accepted first interleaved
  obtain ⟨d', calls, fedAll, delivered, idle, once, others⟩ := h.resolve_left fun h ↦ h.2 hroom
  rw [hoptions] at delivered
  refine ⟨d, more, d', calls, fed, ?_, fedAll, delivered, idle, lost, fun problem other ↦ ?_⟩
  · rw [known, Option.map_some, underway.1, underway.2]
  · by_cases truncated : problem = .truncated
    · have hone : d.countedOn .pat .discontinuity latePackets +
          d.countedOn .pat .truncated latePackets ≤ 1 := once
      rw [truncated]
      omega
    · exact others problem other truncated

structure Fresh (d : Demux σ) : Prop where
  substreams : d.substreams = .empty
  status : d.status = {}
  requests : d.view.requests = []
  staged : d.staged = []
  packetCount : d.packetCount = 0

/-- Of packed sections with lost packets, those come all of whose packets are kept, and the gaps are
counted, as long as the packets can be. -/
theorem Fresh.feedAll_pick {batches : List (List Section)} {keep : List Bool} (fresh : d.Fresh)
    (filtered : d.hasPid z.pid = true) (delivery : d.delivery = some (.sections handle))
    (spares : d.Spares z.pid) (accepted : ∀ s ∈ batches.flatten, d.options.Accepts s)
    (choice : keep.length = (z.packCalls batches).1.length)
    (detected : ∀ lost ∈ gaps none keep, lost % 16 ≠ 0 ∧ lost % 16 ≠ 15) :
    (d.feedAll (pick keep (z.packCalls batches).1)).value = .error .overflow ∧
      wordLimit ≤ (pick keep (z.packCalls batches).1).length ∨
    ∃ d', (d.feedAll (pick keep (z.packCalls batches).1)).value = .ok (d',
        (batches.flatten.zipIdx.filter fun s ↦ intact (z.holdings batches) keep s.2).map
          fun s ↦ .sect (.ofBytes d.options.checksums s.1.bytes z.pid)) ∧
      d'.status = { discontinuities := (gaps none keep).length } := by
  have hsec : ∀ s ∈ batches.flatten, IsSection s.bytes := fun s hs ↦ (accepted s hs).isSection
  have hready : d.Ready z.pid handle := by
    refine ⟨⟨fresh.requests, fresh.staged, fun pid r hr ↦ ?_⟩, delivery, filtered, spares⟩
    rw [fresh.substreams] at hr
    cases hr
  have hsub : (d.substream z.pid).reassembly = { pid := z.pid } := by
    rw [reassembly_substream, fresh.substreams]
    rfl
  have hcarries := z.carries_packCalls fun s hs ↦ (hsec s hs).ne_nil
  have htracks : Tracks z batches.flatten 0 true none { pid := z.pid } :=
    ⟨fun _ ↦ rfl, nofun, nofun, fun _ _ ↦ rfl, fun _ ↦ rfl⟩
  have hpack := z.packCalls_eq 0 batches
  have hlen : keep.length =
      (shares 0 (batches.flatMap (SectionPacker.batches z.stuffing))).length := by
    rw [choice, hpack, fillTagged, length_fillAll, List.length_map]
  have hrun := Reassembly.run_pick hcarries htracks hsec hlen detected
  rw [← hpack, ← hsub] at hrun
  have hgaps := length_gaps_le none choice
  by_cases room : wordLimit ≤ (pick keep (z.packCalls batches).1).length
  · left
    rcases hready.overflow_or_exists_feedAll (pick keep (z.packCalls batches).1) with
      ⟨overflow, -⟩ | ⟨d', calls, hfed⟩
    · exact ⟨overflow, room⟩
    · have hlt := hready.sound.packetCount_add_length_lt
        (List.ne_nil_of_length_pos (Nat.lt_of_lt_of_le (by decide) room)) hfed
      omega
  have hpid : ∀ p ∈ pick keep (z.packCalls batches).1, p.pid = z.pid := by
    intro p hp
    rw [hpack] at hp
    exact pid_of_mem_fillAll (mem_of_mem_pick hp)
  obtain ⟨d', hfed, hstatus⟩ := hready.feedAll_of_passes hpid
    (fun data hm ↦ by
      rw [hrun] at hm
      obtain ⟨s, hs, rfl⟩ := List.mem_map.1 hm
      obtain ⟨⟨t, i⟩, ht, rfl⟩ := List.mem_map.1 hs
      exact (accepted t (List.fst_mem_of_mem_zipIdx (List.mem_filter.1 ht).1)).passes z.pid)
    (fun q hq ↦ by
      rw [hrun] at hq
      exact (List.mem_replicate.1 hq).2)
    (by
      rw [hrun, fresh.status]
      simp only [List.length_replicate]
      omega)
    (by rw [fresh.packetCount]; omega)
  refine .inr ⟨d', ?_, ?_⟩
  · rw [hfed, hrun]
    simp only [survivors, List.map_map, Bool.true_or, Bool.true_and]
    rfl
  · rw [hstatus, hrun, fresh.status]
    simp only [List.length_replicate, Nat.zero_add]

theorem Fresh.feedAll_pick_blank :
    ∃ d', ((listener .pat).feedAll
        (pick [true, true, false, true] (blankPacker.packCalls [[blank 300, blank 300]]).1)).value =
        .ok (d', [.sect (blank 300)]) ∧
      d'.status = { discontinuities := 1 } := by
  have hintact : [[blank 300, blank 300]].flatten.zipIdx.filter (fun s ↦
      intact (blankPacker.holdings [[blank 300, blank 300]]) [true, true, false, true] s.2) =
        [(blank 300, 0)] := by
    decide +kernel
  have h := @Fresh.feedAll_pick Unit (listener .pat) blankPacker _ [[blank 300, blank 300]]
    [true, true, false, true] ⟨rfl, rfl, rfl, rfl, rfl⟩ (by decide) rfl (listener_spares .pat)
    listener_accepts (by decide +kernel) (by decide)
  rw [hintact] at h
  exact h.resolve_left fun h ↦ absurd h.2 (by decide +kernel)

end Demux

end TransportStream
