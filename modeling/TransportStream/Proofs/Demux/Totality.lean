import Mathlib.Data.List.Nodup
import TransportStream.Proofs.Demux.Delivery
import TransportStream.Proofs.Table.Arrivals

namespace TransportStream

namespace Section

def inspectChecksum (rule : ChecksumRule) (data : Bytes) : Except Fault (Option Defect) := do
  let cut ← minus data.length checksumSize
  let computed := Checksum.ofBytes (← slice data 0 cut)
  let stored := BitVec.ofNat 32 (Bytes.toNat (← slice data cut data.length))
  return if rule = .check ∧ stored ≠ computed then some (.wrongChecksum stored computed) else none

/-- `diagnose` with every access to the data checked. -/
def inspect (rule : ChecksumRule) (data : Bytes) : Except Fault (Option Defect) :=
  if data.length < CommonHeader.size then return some (.tooShort data.length CommonHeader.size)
  else do
    let header ← CommonHeader.ofBytes (← slice data 0 CommonHeader.size)
    if maxSize < header.totalSize then return some (.tooLong header.totalSize)
    else if header.totalSize ≠ data.length then
      return some (.lengthMismatch header.totalSize data.length)
    else if !header.isLong then return none
    else if data.length < minLongSize then return some (.tooShort data.length minLongSize)
    else do
      let second ← TableHeader.ofBytes (← slice data CommonHeader.size data.length)
      if second.last < second.number then
        return some (.numberAboveLast second.number second.last)
      else inspectChecksum rule data

theorem inspectChecksum_eq (rule : ChecksumRule) {data : Bytes} (h : checksumSize ≤ data.length) :
    inspectChecksum rule data = .ok (checksumDefect rule data) := by
  have hcontent : slice data 0 (data.length - checksumSize) =
      .ok (data.take (data.length - checksumSize)) :=
    slice_eq_ok_iff.2 ⟨⟨Nat.zero_le _, Nat.sub_le _ _⟩, rfl⟩
  have hstored : slice data (data.length - checksumSize) data.length =
      .ok (data.drop (data.length - checksumSize)) :=
    slice_eq_ok_iff.2 ⟨⟨Nat.sub_le _ _, Nat.le_refl _⟩, by rw [List.take_length]⟩
  exact bind_eq_ok_iff.2 ⟨_, minus_eq_ok_iff.2 ⟨h, rfl⟩,
    bind_eq_ok_iff.2 ⟨_, hcontent, bind_eq_ok_iff.2 ⟨_, hstored, rfl⟩⟩⟩

theorem exists_commonHeader {data : Bytes} (h : CommonHeader.size ≤ data.length) :
    slice data 0 CommonHeader.size = .ok (data.take CommonHeader.size) ∧
      CommonHeader.ofBytes (data.take CommonHeader.size) = .ok (CommonHeader.read data) := by
  refine ⟨slice_eq_ok_iff.2 ⟨⟨Nat.zero_le _, h⟩, rfl⟩, CommonHeader.ofBytes_eq_ok_iff.2 ?_⟩
  match data, h with
  | _ :: _ :: _ :: _, _ => exact ⟨rfl, rfl⟩

theorem exists_tableHeader {data : Bytes} (h : longHeaderSize ≤ data.length) :
    slice data CommonHeader.size data.length = .ok (data.drop CommonHeader.size) ∧
      TableHeader.ofBytes (data.drop CommonHeader.size) =
        .ok (TableHeader.read (data.drop CommonHeader.size)) := by
  have hsize : TableHeader.size ≤ (data.drop CommonHeader.size).length := by
    rw [List.length_drop]
    exact Nat.le_sub_of_add_le' h
  refine ⟨slice_eq_ok_iff.2 ⟨⟨?_, Nat.le_refl _⟩, by rw [List.take_length]⟩,
    TableHeader.ofBytes_eq_ok_iff.2 ⟨hsize, rfl⟩⟩
  exact Nat.le_trans (Nat.le_add_right _ _) h

theorem inspect_eq (rule : ChecksumRule) (data : Bytes) :
    inspect rule data = .ok (diagnose rule data) := by
  unfold inspect diagnose
  dsimp only
  split
  · rfl
  next hsize =>
  obtain ⟨hslice, hheader⟩ := exists_commonHeader (Nat.not_lt.1 hsize)
  refine bind_eq_ok_iff.2 ⟨_, hslice, bind_eq_ok_iff.2 ⟨_, hheader, ?_⟩⟩
  split
  · rfl
  split
  · rfl
  split
  · rfl
  split
  · rfl
  next hlong =>
  have hmin : minLongSize ≤ data.length := Nat.not_lt.1 hlong
  obtain ⟨hslice, hsecond⟩ := exists_tableHeader (Nat.le_trans (Nat.le_add_right _ _) hmin)
  refine bind_eq_ok_iff.2 ⟨_, hslice, bind_eq_ok_iff.2 ⟨_, hsecond, ?_⟩⟩
  split
  · rfl
  · exact inspectChecksum_eq rule (Nat.le_trans (Nat.le_add_left _ _) hmin)

end Section

namespace Status

variable {s : Status} {problems : List Problem}

theorem countAll_of_nodup (once : problems.Nodup)
    (room : ∀ q ∈ problems, s.get q + 1 < wordLimit) : ∃ t, s.countAll problems = .ok t := by
  induction problems generalizing s with
  | nil => exact ⟨s, rfl⟩
  | cons p rest ih =>
    obtain ⟨hp, hrest⟩ := List.nodup_cons.1 once
    have hcount : s.count p = .ok (s.set (s.get p + 1) p) :=
      count_eq_ok_iff.2 ⟨room p (List.mem_cons_self ..), rfl⟩
    rw [countAll_cons, hcount]
    refine ih hrest fun q hq ↦ ?_
    rw [get_set, if_neg (by rintro rfl; exact hp hq)]
    exact room q (List.mem_cons_of_mem _ hq)

def Full (s : Status) : Prop := ∃ problem, wordLimit ≤ s.get problem + 1

theorem exists_countAll (once : problems.Nodup) (room : ¬ s.Full) :
    ∃ t, s.countAll problems = .ok t :=
  countAll_of_nodup once fun q _ ↦ Nat.not_le.1 fun h ↦ room ⟨q, h⟩

end Status

namespace Reassembly

variable {r : Reassembly}

theorem nodup_problems (p : Packet) : (r.next p).2.problems.Nodup := by
  have habs : ∀ a, ((r.accept p a).absorbed p).2.problems.Nodup ∧
      .discontinuity ∉ ((r.accept p a).absorbed p).2.problems := by
    intro a
    rcases problems_absorbed (r := r.accept p a) p with h | h | h <;> rw [h] <;> decide
  unfold next
  cases r.arrival p p.breakSignalled with
  | duplicate => exact .nil
  | first | afterBreak | inSequence => exact (habs _).1
  | outOfSequence last => exact List.nodup_cons.2 ⟨(habs _).2, (habs _).1⟩

end Reassembly

namespace Demux

variable {σ : Type} {d e : Demux σ} {pid : Pid} {data : Bytes} {p : Packet}

theorem exists_count_of_nodup {problems : List Problem} (once : problems.Nodup)
    (room : ¬ d.status.Full) :
    ∃ e, d.count problems = .ok e ∧ ∀ q, e.status.get q ≤ d.status.get q + 1 := by
  obtain ⟨t, ht⟩ := Status.exists_countAll once room
  refine ⟨d.withStatus t, count_eq_ok_iff.2 ⟨t, ht, rfl⟩, fun q ↦ ?_⟩
  have hq : t.get q = d.status.get q + problems.count q := Status.get_of_countAll ht q
  have hle : problems.count q ≤ 1 := List.nodup_iff_count_le_one.1 once q
  show t.get q ≤ _
  omega

theorem completes_count {problems : List Problem} (once : problems.Nodup) :
    Completes (d.count problems) d.status.Full :=
  .of_overflowsOnly (overflowsOnly_count problems) fun room ↦
    (exists_count_of_nodup once room).imp fun _ he ↦ he.1

theorem Raises.of_eq {n : Nat} (d : Demux σ) (calls : List Call) :
    d.Raises n (.ok (d, calls)) :=
  ⟨d, calls, rfl, fun _ ↦ Nat.le_add_right _ _⟩

theorem raises_call_of_le {α : Type} (hle : ∀ q, e.status.get q ≤ d.status.get q + 1)
    (pid : Pid) (f : Handler σ α) (item : α) (c : Call) :
    d.Raises 1 (e.call pid f item c).value :=
  ⟨_, _, value_call .., hle⟩

theorem raises_deliver (valid : (d.asSection pid data).defect = none)
    (ready : (d.assemblyFor (d.asSection pid data)).Ready pid (d.asSection pid data).key)
    (room : ¬ d.status.Full) : d.Raises 1 (d.deliver pid (d.asSection pid data)).value := by
  unfold deliver
  split
  · exact .of_eq d []
  · exact raises_call ..
  · split
    · unfold handleShort
      rw [Traced.value_liftM_bind_of_ok (Table.ofSection_eq valid)]
      exact raises_call ..
    · unfold handleLong
      cases hsub : d.substreams.get? pid with
      | none => exact .of_eq d []
      | some sub =>
        obtain ⟨problems, hproblems, hreceive⟩ :=
          ready.exists_receive (s := d.asSection pid data) valid d.options.watchVersions
        have once : problems.Nodup := by
          rcases hproblems with rfl | rfl <;> decide
        obtain ⟨e, he, hle⟩ := exists_count_of_nodup once room
        have hpid : (d.asSection pid data).pid = pid := rfl
        rw [assemblyFor_eq hsub data, hpid] at hreceive
        dsimp only
        rw [Traced.value_bind_of_ok hreceive, Traced.value_liftM_bind_of_ok he]
        dsimp only
        split
        · exact ⟨_, _, rfl, hle⟩
        · exact ⟨_, _, value_call .., hle⟩

theorem raises_handleInvalid (room : ¬ d.status.Full) (invalid : InvalidData) :
    d.Raises 1 (d.handleInvalid invalid).value := by
  obtain ⟨e, he, hle⟩ :=
    exists_count_of_nodup (List.nodup_singleton (.ofDefect invalid.defect)) room
  unfold handleInvalid
  rw [Traced.value_bind_of_ok (Traced.value_note _), Traced.value_liftM_bind_of_ok he]
  split
  · exact ⟨e, [], rfl, hle⟩
  · exact raises_call_of_le hle ..

theorem handlePiece_of_room
    (ready : (d.assemblyFor (d.asSection pid data)).Ready pid (d.asSection pid data).key)
    (room : ¬ d.status.Full) : d.Raises 1 (d.handlePiece pid data).value := by
  rw [handlePiece_eq]
  split
  · next valid =>
    unfold handleValid
    split
    · exact raises_deliver valid ready room
    · split
      · obtain ⟨e, he, hle⟩ := exists_count_of_nodup (List.nodup_singleton .notYetCurrent) room
        rw [Traced.value_liftM_bind_of_ok he]
        exact ⟨e, [], rfl, hle⟩
      · exact .of_eq d []
  · exact raises_handleInvalid room _

theorem Moment.Sound.completes_handlePiece {rest : List Bytes}
    (h : Moment.Sound ⟨d, some (pid, data :: rest)⟩) :
    Completes (d.handlePiece pid data).value d.status.Full := by
  have ready := ready_assemblyFor h.holds (d.asSection pid data)
  refine .of_overflowsOnly ?_ fun room ↦ ?_
  · exact overflowsOnly_of_deliver fun valid ↦ overflowsOnly_deliver valid ready
  · obtain ⟨e, calls, he, -⟩ := handlePiece_of_room ready room
    exact ⟨_, he⟩

inductive FillsUp (d : Demux σ) (p : Packet) : Prop
  | packets (full : wordLimit ≤ d.packetCount + 1)
  | problems (full : d.status.Full)
  | pieces {e : Demux σ} {handled : List Handling} {rest : List Bytes} (full : e.status.Full)
      (run : Run ⟨d, none⟩ (.taken p :: handled.map .handled) ⟨e, some (p.pid, rest)⟩)

theorem completes_handlePieces (pieces : List Bytes) (h : Moment.Sound ⟨d, some (pid, pieces)⟩) :
    Completes (d.handlePieces pid pieces).value
      (∃ (handled : List Handling) (e : Demux σ) (rest : List Bytes), e.status.Full ∧
        Run ⟨d, some (pid, pieces)⟩ (handled.map .handled) ⟨e, some (pid, rest)⟩) := by
  induction pieces generalizing d with
  | nil => exact .ok _
  | cons data rest ih =>
    rw [value_handlePieces_cons]
    refine .bind (h.completes_handlePiece.mono fun full ↦ ⟨[], d, _, full, .nil _⟩) ?_
    rintro ⟨e, first⟩ he
    have step : Step ⟨d, some (pid, data :: rest)⟩ _ ⟨e, some (pid, rest)⟩ := .handle he
    refine .bind ((ih (h.step step)).mono ?_) fun _ _ ↦ .ok _
    rintro ⟨handled, f, left, full, run⟩
    exact ⟨d.handling pid data first :: handled, f, left, full, .cons step run⟩

theorem completes_feed (h : d.Settled) (p : Packet) :
    Completes (d.feed p).value (d.FillsUp p) := by
  rw [h.sound.value_feed]
  refine .bind ?_ fun n hn ↦ ?_
  · refine .of_overflowsOnly (.fit _ _) fun room ↦ ?_
    exact ⟨_, fit_eq_ok_iff.2 ⟨Nat.not_le.1 fun full ↦ room (.packets full), rfl⟩⟩
  · split
    · next filtered =>
      have hcount : Completes ((d.advanced p).count (d.findings p).problems) d.status.Full :=
        completes_count (Reassembly.nodup_problems p)
      refine .bind (hcount.mono .problems) fun e he ↦ ?_
      have step := Step.take (fit_eq_ok_iff.1 hn).1 filtered he
      refine .bind ((completes_handlePieces _ (h.moment.step step)).mono ?_) fun _ _ ↦ .ok _
      rintro ⟨handled, f, rest, full, run⟩
      exact .pieces full (.cons step run)
    · exact .ok _

def FillsUpAmong (d : Demux σ) (packets : List Packet) : Prop :=
  ∃ before p after e calls, packets = before ++ p :: after ∧
    (d.feedAll before).value = .ok (e, calls) ∧ e.FillsUp p

theorem completes_feedAll (h : d.Settled) (packets : List Packet) :
    Completes (d.feedAll packets).value (d.FillsUpAmong packets) := by
  induction packets generalizing d with
  | nil => exact .ok _
  | cons p rest ih =>
    rw [feedAll, Traced.value_bind]
    refine .bind ((completes_feed h p).mono fun full ↦ ⟨[], p, rest, d, [], rfl, rfl, full⟩) ?_
    rintro ⟨e, first⟩ he
    rw [Traced.value_bind]
    refine .bind ((ih (h.feed he)).mono ?_) fun _ _ ↦ .ok _
    rintro ⟨before, q, after, f, more, rfl, hf, full⟩
    exact ⟨p :: before, q, after, f, first ++ more, rfl, feedAll_cons he hf, full⟩

def FillsUpIn (d : Demux σ) (data : Bytes) : Prop :=
  ∃ n p e calls, p.bytes = (data.drop (n * Packet.size)).take Packet.size ∧
    (d.push (data.take (n * Packet.size))).value = .ok (e, calls) ∧ e.FillsUp p

theorem push_nil : (d.push []).value = .ok (d, []) := by
  rw [push, dif_neg (by decide)]
  rfl

theorem push_of_pushBlock {block rest : Bytes} {calls more : List Call} {f : Demux σ}
    (hlen : block.length = Packet.size) (hblock : (d.pushBlock block).value = .ok (e, calls))
    (hrest : (e.push rest).value = .ok (f, more)) :
    (d.push (block ++ rest)).value = .ok (f, calls ++ more) := by
  rw [push, dif_pos (by rw [List.length_append, hlen]; exact Nat.le_add_right _ _),
    List.take_left' hlen, List.drop_left' hlen, Traced.value_bind_of_ok hblock,
    Traced.value_bind_of_ok hrest]
  rfl

theorem completes_pushBlock (h : d.Settled) (p : Packet) :
    Completes (d.pushBlock p.bytes).value (d.FillsUp p) := by
  unfold pushBlock Packet.ofBytes?
  rw [dif_pos p.length_bytes]
  by_cases hsync : p.bytes.head? = some Packet.syncByte
  · rw [if_pos hsync, Traced.value_liftM_bind_of_ok rfl]
    exact completes_feed h p
  · rw [if_neg hsync, Traced.value_liftM_bind_of_ok rfl]
    dsimp only
    have hfirst : itemAt p.bytes 0 = .ok (p.byte 0) := itemAt_eq_ok_iff.2 (p.getElem?_bytes 0)
    rw [Traced.value_liftM_bind_of_ok hfirst,
      Traced.value_bind_of_ok (Traced.value_note _), Traced.value_bind, Traced.value_liftM]
    exact .bind ((completes_count (List.nodup_singleton _)).mono .problems) fun _ _ ↦ .ok _

theorem completes_push (h : d.Settled) (data : Bytes) :
    Completes (d.push data).value (d.FillsUpIn data) := by
  fun_induction Demux.push d data with
  | case1 d data hl ih =>
    have hlen : (data.take Packet.size).length = Packet.size := List.length_take_of_le hl
    rw [Traced.value_bind]
    refine .bind ((completes_pushBlock h ⟨_, hlen⟩).mono ?_) ?_
    · intro full
      exact ⟨0, ⟨_, hlen⟩, d, [], rfl, push_nil, full⟩
    · rintro ⟨e, first⟩ he
      rw [Traced.value_bind]
      refine .bind ((ih e (h.pushBlock he)).mono ?_) fun _ _ ↦ .ok _
      -- Blocks of the rest are blocks of the data, one further on.
      rintro ⟨n, p, f, more, hp, hf, full⟩
      have hsucc : (n + 1) * Packet.size = Packet.size + n * Packet.size := by
        rw [Nat.succ_mul, Nat.add_comm]
      refine ⟨n + 1, p, f, first ++ more, ?_, ?_, full⟩
      · rw [hp, hsucc, List.drop_drop]
      · rw [hsucc, List.take_add]
        exact push_of_pushBlock hlen he hf
  | case2 => exact .ok _
  | case3 => exact .ok _

/-- A packet, and data of any length, are dealt with in every state, whatever the handlers answer
and whether or not they panic, unless a counter has no room. The checks of the pieces on the way
read nothing beyond them. -/
theorem Reachable.completes (h : d.Reachable) :
    (∀ p, Completes (d.feed p).value (d.FillsUp p)) ∧
    (∀ data, Completes (d.push data).value (d.FillsUpIn data)) ∧
    ∀ pid data, Section.inspect d.options.checksums data = .ok (d.asSection pid data).defect :=
  ⟨completes_feed h.settled, completes_push h.settled,
    fun _ _ ↦ Section.inspect_eq ..⟩

theorem Reachable.completes_part : tabulator.Reachable ∧
    (∃ r, (tabulator.feed (.leading .pat (part 0 0 0).bytes)).value = .ok r) ∧
    Completes (tabulator.push [0]).value (tabulator.FillsUpIn [0]) := by
  have reachable : tabulator.Reachable := .setDelivery (.addPid (.start _ _) _) _
  refine ⟨reachable, ?_, reachable.completes.2.1 [0]⟩
  rcases reachable.completes.1 (.leading .pat (part 0 0 0).bytes) with done | ⟨stopped, -⟩
  · exact done
  · have hvalue : (tabulator.feed (.leading .pat (part 0 0 0).bytes)).value.toOption.isSome =
        true := by
      decide +kernel
    rw [stopped] at hvalue
    cases hvalue

end Demux

end TransportStream
