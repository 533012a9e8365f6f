import TransportStream.Proofs.Listing.Course

namespace TransportStream

namespace RingSession

variable {s t : RingSession}

theorem reader_tryOpen (s : RingSession) (minimum : Nat) :
    (s.tryOpen minimum).reader = s.reader := by
  unfold tryOpen
  split <;> rfl

theorem work_writer_tryOpen (s : RingSession) (minimum : Nat) :
    (s.tryOpen minimum).writer.work = 0 := by
  unfold tryOpen
  split <;> rfl

def supplied (s : RingSession) (slots packets : List Packet) (e : BitrateEstimator) :
    RingSession :=
  { s with writer := .idle }.after (s.ring.extend slots packets e) { reader := !packets.isEmpty }

theorem reader_supplied (s : RingSession) (slots packets : List Packet) (e : BitrateEstimator) :
    (s.supplied slots packets e).reader = s.reader ∨
      (s.supplied slots packets e).reader = s.reader.tell := by
  have hreader : (s.supplied slots packets e).reader =
      if !packets.isEmpty then s.reader.tell else s.reader := rfl
  rw [hreader]
  split
  · exact .inr rfl
  · exact .inl rfl

structure Gets (s t : RingSession) (batch : Batch) : Prop where
  bitrate : batch.bitrate = s.ring.bitrate
  start : batch.packets <+: s.ring.contents
  ended : batch.packets = [] → s.ring.contents = [] ∧ s.ring.ended = true
  reader : t.reader = .idle
  count : t.ring.count + batch.packets.length = s.ring.count
  work_le : t.writer.work ≤ s.writer.work + batch.packets.length

theorem tryRead_of_canRead {room : Nat} (hv : s.ring.Valid) (hs : s.ring.stopped = false)
    (hroom : 0 < room) (hcan : s.ring.canRead room = true) :
    ∃ t batch, s.tryRead room = .ok (t, some batch) ∧ s.Gets t batch := by
  have hread := tryRead_eq hv room
  rw [if_pos hcan] at hread
  have hn : s.ring.batchCount room = min s.ring.count room := by
    rw [PacketRing.batchCount, hs]
    rfl
  have hlength : (s.ring.contents.take (s.ring.batchCount room)).length =
      s.ring.batchCount room := by
    rw [List.length_take, PacketRing.length_contents hv]
    exact Nat.min_eq_left (s.ring.batchCount_le room)
  refine ⟨_, _, hread, rfl, List.take_prefix _ _, fun hempty ↦ ?_, rfl, ?_, ?_⟩
  · have hzero : s.ring.batchCount room = 0 := by
      rw [← hlength]
      exact List.length_eq_zero_iff.2 hempty
    have hcount : s.ring.count = 0 := by omega
    refine ⟨List.length_eq_zero_iff.1 ((PacketRing.length_contents hv).trans hcount), ?_⟩
    simpa [PacketRing.canRead, hcount, hs, Nat.ne_of_gt hroom] using hcan
  · rw [hlength]
    exact Nat.sub_add_cancel (s.ring.batchCount_le room)
  · -- the writer is told only when packets are taken
    rw [hlength]
    show RingWriter.work (if decide (0 < s.ring.batchCount room) then s.writer.tell
      else s.writer) ≤ _
    split
    · next hpos =>
      have htell := s.writer.work_tell_le
      have hpos := of_decide_eq_true hpos
      omega
    · exact Nat.le_add_right _ _

end RingSession

namespace TableListing

open BitrateEstimator RingHistory RingSession

variable {l : TableListing} {file : Bytes} {h : RingHistory} {s : RingSession}

theorem ahead_next {position : Nat} {data : Bytes} (hf : l.feeder = .next position data) :
    l.ahead = data ++ l.file := by
  unfold Feeder.next at hf
  unfold ahead
  split at hf <;> rw [hf]

theorem Sound.of_step (hs : Sound file l h) (rest : Bytes) {f : Feeder} {taken : Bool}
    (hne : l.feeder ≠ .done) (hne' : f ≠ .done)
    (hstep : h = { h with session := s } ∨ Step h { h with session := s })
    (hring : s.ring = { l.session.ring with windowTaken := taken })
    (hreader : s.reader = l.session.reader) (hfits : f.Fits s)
    (hahead : packetsOf { l with file := rest, feeder := f, session := s }.ahead =
      packetsOf l.ahead) :
    Sound file { l with file := rest, feeder := f, session := s } { h with session := s } where
  reachable := by
    rcases hstep with heq | hstep
    · rw [← heq]
      exact hs.reachable
    · exact hs.reachable.step hstep
  session := rfl
  flowing := by
    rw [hring]
    exact hs.flowing
  undeclared := by
    rw [hring]
    exact hs.undeclared
  estimator := by
    rw [hring]
    exact hs.estimator
  packets := by
    rw [hahead]
    exact hs.packets
  feeder := hfits
  ended := by
    rw [hring]
    exact hs.ended.trans (iff_of_false hne hne')
  reader room told hr := hs.reader room told (hreader ▸ hr)
  demux := hs.demux
  bitrate hr := by
    rw [hring]
    exact hs.bitrate hr
  finished hfin := absurd (hs.finished hfin).2 hne

theorem Sound.read (hs : Sound file l h) {left : Bytes} (hf : l.feeder = .reading left)
    (most : Nat) : Advances file l (.feeder most) := by
  have hvalue : (l.move (.feeder most)).value = .ok (l.readFile left most) := by
    rw [move, moveFeeder, hf]
    rfl
  obtain ⟨hlt, hidle, htaken⟩ : Feeder.Fits l.session (.reading left) := hf ▸ hs.feeder
  have hne : l.feeder ≠ .done := by rw [hf]; nofun
  have hahead : l.ahead = left ++ l.file := by rw [ahead, hf]
  have hsame : h = { h with session := l.session } := by rw [← hs.session]
  have hold : l.feeder.work = 3 * left.length + 3 := by rw [hf, Feeder.work]
  by_cases hfile : l.file = []
  · rw [readFile, if_pos hfile] at hvalue
    have hpackets : packetsOf [] = packetsOf l.ahead := by
      rw [hahead, hfile, List.append_nil, packetsOf_of_lt hlt, packetsOf_nil]
    refine .inl ⟨_, _, hvalue, hs.of_step _ hne nofun (.inl hsame) rfl rfl hidle hpackets,
      .inr ?_⟩
    have hnew : Feeder.closing.work = 2 := rfl
    simp only [work]
    omega
  · let n := min (max most 1) (bufferSize - left.length)
    have hpos : 0 < n := by
      have hbuffer : Packet.size < bufferSize := by decide
      omega
    have hfilepos := List.length_pos_iff.2 hfile
    have hread : (l.move (.feeder most)).value = .ok { l with
        file := l.file.drop n, feeder := .next 0 (left ++ l.file.take n) } := by
      rw [hvalue, readFile, if_neg hfile]
    refine .inl ⟨_, _, hread, hs.of_step _ hne (Feeder.next_ne_done _ _) (.inl hsame) rfl rfl
      (Feeder.fits_next _ _ hidle htaken) ?_, .inr ?_⟩
    · rw [ahead_next rfl, hahead, List.append_assoc, List.take_append_drop]
    · have hnew := Feeder.work_next 0 (left ++ l.file.take n)
      rw [List.length_append, List.length_take] at hnew
      simp only [work, List.length_drop]
      omega

theorem Sound.offer (hs : Sound file l h) {position : Nat} {data : Bytes}
    (hf : l.feeder = .offering position data) (most : Nat) : Advances file l (.feeder most) := by
  obtain ⟨hle, hidle, htaken⟩ : Feeder.Fits l.session (.offering position data) := hf ▸ hs.feeder
  have hne : l.feeder ≠ .done := by rw [hf]; nofun
  let t : RingSession := { l.session with ring := { l.session.ring with windowTaken := true } }
  have hacquire : l.session.acquire 1 = .ok (t.tryOpen 1) := acquire_of_not_taken htaken 1
  have hvalue : (l.move (.feeder most)).value =
      .ok { l with session := t.tryOpen 1, feeder := .filling position data } := by
    rw [move, moveFeeder, hf, Traced.value_liftM_bind_of_ok hacquire]
    rfl
  have hring : (t.tryOpen 1).ring = t.ring := ring_tryOpen t 1
  have hstep : Step h { h with session := t.tryOpen 1 } := .acquire (hs.session ▸ hacquire)
  have hvalid : t.ring.Valid := ⟨hs.valid.1, hs.valid.2, hs.valid.3⟩
  have hahead : l.ahead = data ++ l.file := by rw [ahead, hf]
  refine .inl ⟨_, _, hvalue, hs.of_step _ hne nofun (.inr hstep) hring (reader_tryOpen t 1)
    ⟨hle, awaits_tryOpen hvalid hs.flowing⟩ ?_, .inr ?_⟩
  · rw [hahead, ahead]
  · have hold : l.feeder.work = 3 * data.length + 3 := by rw [hf, Feeder.work]
    have hnew : (Feeder.filling position data).work = 3 * data.length + 1 := rfl
    simp only [work, hring, reader_tryOpen, work_writer_tryOpen]
    show _ + 3 * l.session.ring.count + l.session.reader.work + _ < _
    omega

theorem Sound.waitOn (hs : Sound file l h) {position : Nat} {data : Bytes} {told : Bool}
    (hf : l.feeder = .filling position data) (hw : l.session.writer = .waiting 1 told)
    (most : Nat) : Advances file l (.feeder most) := by
  have hne : l.feeder ≠ .done := by rw [hf]; nofun
  obtain ⟨hle, -⟩ : Feeder.Fits l.session (.filling position data) := hf ▸ hs.feeder
  have hvalue : (l.move (.feeder most)).value = .ok { l with session := l.session.wakeWriter } := by
    rw [move, moveFeeder, hf]
    dsimp only
    rw [hw]
    rfl
  cases told with
  | false =>
    have hsame : l.session.wakeWriter = l.session := by
      unfold RingSession.wakeWriter
      rw [hw]
    rw [hsame] at hvalue
    exact .inl ⟨l, h, hvalue, hs, .inl ⟨rfl, .inr ⟨⟨position, data, hf⟩, hw⟩⟩⟩
  | true =>
    have hopen : l.session.wakeWriter = l.session.tryOpen 1 := by
      unfold RingSession.wakeWriter
      rw [hw]
    have hring := ring_tryOpen l.session 1
    have hstep : Step h { h with session := l.session.tryOpen 1 } := by
      rw [← hopen, ← hs.session]
      exact .wakeWriter
    rw [hopen] at hvalue
    refine .inl ⟨_, _, hvalue, hs.of_step _ hne hne (.inr hstep) hring (reader_tryOpen _ _)
      (hf ▸ ⟨hle, awaits_tryOpen hs.valid hs.flowing⟩) rfl, .inr ?_⟩
    have hold : l.session.writer.work = 1 := by rw [hw, RingWriter.work]
    simp only [work, hring, reader_tryOpen, work_writer_tryOpen]
    omega

theorem Sound.close (hs : Sound file l h) (hf : l.feeder = .closing) (most : Nat) :
    Advances file l (.feeder most) := by
  have hne : l.feeder ≠ .done := by rw [hf]; nofun
  have hvalue : (l.move (.feeder most)).value =
      .ok { l with session := l.session.finish, feeder := .done } := by
    rw [move, moveFeeder, hf]
    rfl
  have hidle : l.session.writer = .idle :=
    show Feeder.Fits l.session .closing from hf ▸ hs.feeder
  have hstep : Step h { h with session := l.session.finish } := hs.session ▸ .finish
  have hahead : l.ahead = [] := by rw [ahead, hf]
  have hsound : Sound file { l with session := l.session.finish, feeder := .done }
      { h with session := l.session.finish } :=
    { reachable := hs.reachable.step hstep
      session := rfl
      flowing := hs.flowing
      undeclared := hs.undeclared
      estimator := hs.estimator
      packets := by
        have hpackets := hs.packets
        rw [hahead] at hpackets
        exact hpackets
      feeder := hidle
      ended := iff_of_true rfl rfl
      reader := fun room told hr ↦ by
        obtain ⟨told', hr'⟩ := RingReader.eq_waiting_of_tell hr
        exact hs.reader room told' hr'
      demux := hs.demux
      bitrate := hs.bitrate
      finished := fun hfin ↦ absurd (hs.finished hfin).2 hne }
  refine .inl ⟨_, _, hvalue, hsound, .inr ?_⟩
  have hold : l.feeder.work = 2 := by rw [hf, Feeder.work]
  have hnew : Feeder.done.work = 0 := rfl
  have hreader := l.session.reader.work_tell_le
  simp only [work]
  show _ + l.session.writer.work + 3 * l.session.ring.count + l.session.reader.tell.work + _ < _
  omega

theorem Sound.write_publish (hs : Sound file l h) {w : PacketWindow} {packets : List Packet}
    (hopen : l.session.Open w.packets.length false false w)
    (hle : packets.length ≤ w.packets.length) : ∃ t slots,
    l.session.write 0 packets = .ok t ∧
    (∀ e, (standard.feedAll (h.published ++ packets)).value = .ok e → Reachable { h with
      session := l.session.supplied slots packets e, published := h.published ++ packets }) ∧
    (t.publish packets.length).value =
      (standard.feedAll (h.published ++ packets)).value >>= fun e ↦
        .ok (l.session.supplied slots packets e, some packets.length) := by
  obtain ⟨w', slots, hwrite, hfront, -, hpublish⟩ := hopen.write_publish hle
  have hmeasure : l.session.ring.measure packets =
      (standard.feedAll (h.published ++ packets)).value := by
    rw [PacketRing.measure, if_pos hs.undeclared, feedAll_append,
      Traced.value_bind_of_ok hs.estimator]
  rw [hmeasure] at hpublish
  refine ⟨_, slots, hwrite, fun e he ↦ ?_, hpublish⟩
  rw [he] at hpublish
  have hwritten : Step h { h with session := { l.session with writer := .writing w' } } :=
    @Step.write h 0 packets _ (by rw [hs.session]; exact hwrite)
  have hpublished := (hs.reachable.step hwritten).step (Step.publish rfl hpublish)
  rw [hfront] at hpublished
  exact hpublished

theorem Sound.of_publish (hs : Sound file l h) {slots packets : List Packet}
    {e : BitrateEstimator} {stop : Nat} {rest : Bytes} (hne : l.feeder ≠ .done)
    (hreachable : Reachable { h with
      session := l.session.supplied slots packets e, published := h.published ++ packets })
    (he : (standard.feedAll (h.published ++ packets)).value = .ok e)
    (hahead : packetsOf l.ahead = packets ++ packetsOf (rest ++ l.file)) :
    Sound file
      { l with session := l.session.supplied slots packets e, feeder := .next stop rest }
      { h with
        session := l.session.supplied slots packets e, published := h.published ++ packets } where
  reachable := hreachable
  session := rfl
  flowing := hs.flowing
  undeclared := hs.undeclared
  estimator := he
  packets := by
    rw [ahead_next rfl, List.append_assoc, ← hahead]
    exact hs.packets
  feeder := Feeder.fits_next stop rest rfl rfl
  ended := hs.ended.trans (iff_of_false hne (Feeder.next_ne_done stop rest))
  reader room told hr := by
    rcases l.session.reader_supplied slots packets e with heq | heq
    · exact hs.reader room told (heq ▸ hr)
    · obtain ⟨told', hr'⟩ := RingReader.eq_waiting_of_tell (heq ▸ hr)
      exact hs.reader room told' hr'
  demux := hs.demux
  bitrate hreceived := by
    -- the ring holds what was published and not received, so nothing was published now
    have hcontents := hs.reachable.sound.received_append
    rw [hreceived, List.append_assoc, List.append_right_eq_self] at hcontents
    obtain ⟨rfl, -⟩ := List.append_eq_nil_iff.1 hcontents
    rw [List.append_nil] at hreceived he
    rw [hs.bitrate hreceived, PacketRing.bitrate, PacketRing.bitrate]
    obtain rfl := Except.ok.inj (he.symm.trans hs.estimator)
    rfl
  finished hfin := absurd (hs.finished hfin).2 hne

theorem Sound.fill (hs : Sound file l h) {position : Nat} {data : Bytes} {w : PacketWindow}
    (hf : l.feeder = .filling position data) (hne : w.packets ≠ [])
    (hopen : l.session.Open w.packets.length false false w) (most : Nat) :
    Advances file l (.feeder most) := by
  obtain ⟨hle, -⟩ : Feeder.Fits l.session (.filling position data) := hf ▸ hs.feeder
  have hnotdone : l.feeder ≠ .done := by rw [hf]; nofun
  obtain ⟨packets, stop, rest, htaken, htakes⟩ := value_takeBlocks w.packets.length position data
  obtain ⟨t, slots, hwrite, hreachable, hpublish⟩ := hs.write_publish hopen htakes.length_le
  have hahead : packetsOf l.ahead = packets ++ packetsOf (rest ++ l.file) := by
    rw [ahead, hf]
    exact htakes.packetsOf_eq l.file
  have hvalue : (l.move (.feeder most)).value =
      (standard.feedAll (h.published ++ packets)).value >>= fun e ↦ .ok { l with
        session := l.session.supplied slots packets e, feeder := .next stop rest } := by
    rw [move, moveFeeder, hf]
    dsimp only
    rw [hopen.writer]
    dsimp only
    rw [fillWindow, if_neg hne, Traced.value_bind_of_ok htaken]
    dsimp only
    rw [Traced.value_liftM_bind_of_ok hwrite, Traced.value_bind, hpublish]
    cases (standard.feedAll (h.published ++ packets)).value <;> rfl
  cases he : (standard.feedAll (h.published ++ packets)).value with
  | error fault =>
    refine .inr ⟨⟨fault, by rw [hvalue, he]; rfl⟩, h.published ++ packets, ?_, .inl fun e hok ↦ ?_⟩
    · rw [← hs.packets, hahead, ← List.append_assoc]
      exact List.prefix_append _ _
    · rw [he] at hok
      cases hok
  | ok e =>
    rw [he] at hvalue
    refine .inl ⟨_, _, hvalue, hs.of_publish hnotdone (hreachable e he) he hahead, .inr ?_⟩
    have hold : l.feeder.work = 3 * data.length + 1 := by rw [hf, Feeder.work]
    have hnew := Feeder.work_next stop rest
    have hsize : Packet.size = 188 := rfl
    have hshorter := htakes.shorter
    have hprogress := htakes.progress (List.length_pos_iff.2 hne) hle
    have hreader : (l.session.supplied slots packets e).reader.work ≤
        1 + l.session.reader.work := by
      rcases l.session.reader_supplied slots packets e with hr | hr
      · rw [hr]
        omega
      · have htell := l.session.reader.work_tell_le
        rw [hr]
        omega
    rw [hsize] at hshorter hprogress
    simp only [work]
    show _ + 0 + 3 * (l.session.ring.count + packets.length) + _ + _ < _
    omega

theorem Sound.advances_feeder (hs : Sound file l h) (most : Nat) :
    Advances file l (.feeder most) := by
  cases hf : l.feeder with
  | reading left => exact hs.read hf most
  | offering position data => exact hs.offer hf most
  | filling position data =>
    obtain ⟨-, hawaits⟩ : Feeder.Fits l.session (.filling position data) := hf ▸ hs.feeder
    rcases hawaits with ⟨told, hw⟩ | ⟨w, hne, hopen⟩
    · exact hs.waitOn hf hw most
    · exact hs.fill hf hne hopen most
  | closing => exact hs.close hf most
  | done =>
    have hvalue : (l.move (.feeder most)).value = .ok l := by
      rw [move, moveFeeder, hf]
      rfl
    exact .inl ⟨l, h, hvalue, hs, .inl ⟨rfl, .inl hf⟩⟩

structure Looks (l : TableListing) : Prop where
  finished : l.finished = false
  reader : l.session.reader = .idle ∨ l.session.reader = .waiting batchSize true

theorem Looks.work_reader (hl : l.Looks) : l.session.reader.work = 1 := by
  rcases hl.reader with hr | hr <;> rw [hr, RingReader.work]

theorem Looks.value_move (hl : l.Looks) : (l.move .printer).value =
    l.session.tryRead batchSize >>= fun (session, batch) ↦
      match batch with
      | none => .ok { l with session }
      | some batch => (takeBatch { l with session } batch).value := by
  rw [move, movePrinter, if_neg (by rw [hl.finished]; nofun)]
  rcases hl.reader with hr | hr
  · rw [hr]
    dsimp only
    rw [Traced.value_bind, Traced.value_liftM]
    refine congrArg _ (funext fun (session, batch) ↦ ?_)
    cases batch <;> rfl
  · have hlook : l.session.wakeReader = l.session.tryRead batchSize := by
      unfold RingSession.wakeReader
      rw [hr]
    rw [hr]
    dsimp only
    rw [hlook, Traced.value_bind, Traced.value_liftM]
    refine congrArg _ (funext fun (session, batch) ↦ ?_)
    cases batch <;> rfl

theorem Sound.of_look (hs : Sound file l h) {batch : Option Batch} {received : List Packet}
    {d : Demux (List String)} {bitrate : Nat} (finished : Bool)
    (hread : l.session.tryRead batchSize = .ok (s, batch))
    (hstep : Step h { h with session := s, received := received })
    (hd : ∃ calls, (demultiplexer.feedAll received).value = .ok (d, calls))
    (hb : received = h.published → bitrate = l.session.ring.bitrate)
    (hfin : finished = true → received = h.published ∧ l.feeder = .done) :
    Sound file { l with session := s, demux := d, bitrate := bitrate, finished := finished }
      { h with session := s, received := received } := by
  have hlook := afterLook_of_tryRead hs.valid hread
  exact
    { reachable := hs.reachable.step hstep
      session := rfl
      flowing := hlook.stopped.trans hs.flowing
      undeclared := hlook.declaredBitrate.trans hs.undeclared
      estimator := by
        rw [hlook.estimator]
        exact hs.estimator
      packets := hs.packets
      feeder := hs.feeder.tryRead hs.valid hread
      ended := by
        rw [hlook.ended]
        exact hs.ended
      reader := fun room told hr ↦ by
        rcases hlook.reader with heq | heq
        · rw [heq] at hr
          cases hr
        · rw [heq] at hr
          cases hr
          rfl
      demux := hd
      bitrate := by
        rw [PacketRing.bitrate, hlook.declaredBitrate, hlook.estimator]
        exact hb
      finished := hfin }

theorem Sound.returns (hs : Sound file l h) (hl : l.Looks) {batch : Batch}
    (hread : l.session.tryRead batchSize = .ok (s, some batch)) :
    h.session.Returns batchSize s batch := by
  rw [hs.session]
  rcases hl.reader with hr | hr
  · exact .inl ⟨hr, hread⟩
  · refine .inr ⟨hr, ?_⟩
    rw [RingSession.wakeReader, hr]
    exact hread

theorem Sound.takeEnd (hs : Sound file l h) (hl : l.Looks) {batch : Batch}
    (hread : l.session.tryRead batchSize = .ok (s, some batch)) (hgets : l.session.Gets s batch)
    (hempty : batch.packets = []) : Advances file l .printer := by
  have hmove : (l.move .printer).value = .ok { l with session := s, finished := true } := by
    rw [hl.value_move, hread]
    show Traced.value (takeBatch _ batch) = _
    rw [takeBatch, if_pos hempty]
    rfl
  have hstep := Step.read (hs.returns hl hread)
  rw [hempty, List.append_nil] at hstep
  obtain ⟨hnone, hended⟩ := hgets.ended hempty
  have hreceived : h.received = h.published := by
    have hcontents := hs.reachable.sound.received_append
    rwa [hs.session, hnone, List.append_nil] at hcontents
  refine .inl ⟨_, _, hmove, hs.of_look true hread hstep hs.demux hs.bitrate
    fun _ ↦ ⟨hreceived, hs.ended.1 hended⟩, .inr ?_⟩
  have hcount := hgets.count
  have hwork := hgets.work_le
  have hold := hl.work_reader
  have hnew : s.reader.work = 1 := by rw [hgets.reader, RingReader.work]
  simp only [work, hl.finished, Bool.false_eq_true, if_true, if_false]
  omega

theorem Sound.takeSome (hs : Sound file l h) (hl : l.Looks) {batch : Batch}
    (hread : l.session.tryRead batchSize = .ok (s, some batch)) (hgets : l.session.Gets s batch)
    (hsome : batch.packets ≠ []) : Advances file l .printer := by
  obtain ⟨calls, hdemux⟩ := hs.demux
  have hmove : (l.move .printer).value = (l.demux.feedAll batch.packets).value >>= fun r ↦
      .ok { l with session := s, demux := r.1, bitrate := batch.bitrate } := by
    rw [hl.value_move, hread]
    show Traced.value (takeBatch _ batch) = _
    rw [takeBatch, if_neg hsome, Traced.value_bind]
    rfl
  have hfed : (demultiplexer.feedAll (h.received ++ batch.packets)).value =
      (l.demux.feedAll batch.packets).value >>= fun r ↦ .ok (r.1, calls ++ r.2) := by
    rw [Demux.feedAll_append, Traced.value_bind_of_ok hdemux, Traced.value_bind]
    rfl
  cases hd : (l.demux.feedAll batch.packets).value with
  | error fault =>
    rw [hd] at hmove hfed
    refine .inr ⟨⟨fault, hmove⟩, h.received ++ batch.packets, ?_, .inr fun r hr ↦ ?_⟩
    · have hcontents := hs.reachable.sound.received_append
      rw [hs.session] at hcontents
      rw [← hs.packets, ← hcontents, List.append_assoc, List.prefix_append_right_inj]
      exact hgets.start.trans (List.prefix_append _ _)
    · rw [hfed] at hr
      cases hr
  | ok r =>
    rw [hd] at hmove hfed
    have hstep := Step.read (hs.returns hl hread)
    refine .inl ⟨_, _, hmove, hs.of_look l.finished hread hstep ⟨_, hfed⟩
      (fun _ ↦ hgets.bitrate) (fun hfin ↦ ?_), .inr ?_⟩
    · rw [hl.finished] at hfin
      cases hfin
    · have hpos := List.length_pos_iff.2 hsome
      have hcount := hgets.count
      have hwork := hgets.work_le
      have hold := hl.work_reader
      have hnew : s.reader.work = 1 := by rw [hgets.reader, RingReader.work]
      simp only [work]
      omega

theorem Sound.sleep (hs : Sound file l h) (hl : l.Looks)
    (hcan : l.session.ring.canRead batchSize = false) : Advances file l .printer := by
  have hread := tryRead_eq hs.valid batchSize
  rw [if_neg (by rw [hcan]; nofun)] at hread
  have hvalue := hl.value_move
  rw [hread] at hvalue
  have hstep : Step h { h with
      session := { l.session with reader := .waiting batchSize false } } := by
    rcases hl.reader with hr | hr
    · refine @Step.wait h batchSize _ (hs.session ▸ hr) ?_
      rw [hs.session]
      exact hread
    · refine .waitAgain (hs.session ▸ hr) ?_
      rw [hs.session, RingSession.wakeReader, hr]
      exact hread
  refine .inl ⟨_, _, hvalue, hs.of_look _ hread hstep hs.demux hs.bitrate hs.finished, .inr ?_⟩
  have hold := hl.work_reader
  have hnew : (RingReader.waiting batchSize false).work = 0 := rfl
  simp only [work]
  omega

theorem Sound.look (hs : Sound file l h) (hl : l.Looks) : Advances file l .printer := by
  cases hcan : l.session.ring.canRead batchSize with
  | false => exact hs.sleep hl hcan
  | true =>
    obtain ⟨t, batch, hread, hgets⟩ := tryRead_of_canRead hs.valid hs.flowing (by decide) hcan
    by_cases hempty : batch.packets = []
    · exact hs.takeEnd hl hread hgets hempty
    · exact hs.takeSome hl hread hgets hempty

theorem Sound.advances_printer (hs : Sound file l h) : Advances file l .printer := by
  have hidles (hvalue : (l.move .printer).value = .ok l) (hidle : l.Idles .printer) :
      Advances file l .printer := .inl ⟨l, h, hvalue, hs, .inl ⟨rfl, hidle⟩⟩
  cases hfin : l.finished with
  | true =>
    refine hidles ?_ (.inl hfin)
    rw [move, movePrinter, if_pos hfin]
    rfl
  | false =>
    cases hr : l.session.reader with
    | idle => exact hs.look ⟨hfin, .inl hr⟩
    | waiting room told =>
      obtain rfl := hs.reader room told hr
      cases told with
      | true => exact hs.look ⟨hfin, .inr hr⟩
      | false =>
        refine hidles ?_ (.inr hr)
        rw [move, movePrinter, if_neg (by rw [hfin]; nofun), hr]
        dsimp only
        rw [RingSession.wakeReader, hr]
        rfl

theorem Sound.advances (hs : Sound file l h) (turn : Turn) : Advances file l turn := by
  cases turn with
  | feeder most => exact hs.advances_feeder most
  | printer => exact hs.advances_printer

/-- The sides do not wait for each other before the end. -/
theorem Sound.finished_of_idles (hs : Sound file l h) {most : Nat} (hf : l.Idles (.feeder most))
    (hp : l.Idles .printer) : l.finished = true := by
  refine hp.resolve_right fun hr ↦ ?_
  have hsettled : l.session.Settled := hs.session ▸ hs.reachable.settled
  rcases hf with hdone | ⟨-, hw⟩
  · have hread := hsettled.reader batchSize hr
    rw [PacketRing.canRead, hs.ended.2 hdone, Bool.or_true, Bool.true_or] at hread
    cases hread
  · exact hsettled.writer_ne hs.valid hr hw

end TableListing

end TransportStream
