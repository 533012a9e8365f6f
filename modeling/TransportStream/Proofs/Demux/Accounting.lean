import TransportStream.Proofs.Demux.Provenance
import TransportStream.Proofs.Demux.Totality

namespace TransportStream

namespace Reassembly

variable {r : Reassembly} {p : Packet} {piece : Bytes}

theorem isPiece_finished {tail : Bytes} (h : piece ∈ (r.finished tail).pieces) : IsPiece piece := by
  unfold finished at h
  split at h
  · cases h
  · dsimp only at h
    split at h
    · exact Extraction.isPiece_of_mem h
    · exact Extraction.isPiece_of_mem h

theorem isPiece_absorbed (h : piece ∈ (r.absorbed p).2.pieces) : IsPiece piece := by
  unfold absorbed at h
  split at h
  · cases h
  · split at h
    · cases h
    · split at h
      · unfold started at h
        dsimp only at h
        split at h
        · cases h
        · rcases List.mem_append.1 h with h | h
          · exact isPiece_finished h
          · exact Extraction.isPiece_of_mem h
      · unfold continued at h
        split at h
        · cases h
        · exact Extraction.isPiece_of_mem h

theorem isPiece_next (h : piece ∈ (r.next p).2.pieces) : IsPiece piece := by
  unfold next at h
  cases harrival : r.arrival p p.breakSignalled with
  | duplicate =>
    rw [harrival] at h
    cases h
  | first | afterBreak | inSequence | outOfSequence =>
    rw [harrival] at h
    exact isPiece_absorbed h

theorem flatten_finished_prefix (r : Reassembly) (tail : Bytes) :
    (r.finished tail).pieces.flatten <+: r.buffer ++ tail := by
  unfold finished
  split
  · exact List.nil_prefix
  · dsimp only
    split
    · exact Extraction.flatten_pieces_prefix _
    · exact Extraction.flatten_pieces_prefix _

theorem flatten_started_sublist (r : Reassembly) (payload : Bytes) :
    (r.started payload).2.pieces.flatten.Sublist (r.buffer ++ payload.drop 1) := by
  unfold started
  dsimp only
  split
  · exact List.nil_sublist _
  · have hfront := (r.flatten_finished_prefix
      ((payload.drop 1).take (payload.headD 0).toNat)).sublist
    have hrest := (Extraction.flatten_pieces_prefix
      ((payload.drop 1).drop (payload.headD 0).toNat)).sublist
    have h := hfront.append hrest
    rwa [List.append_assoc, List.take_append_drop, ← List.flatten_append] at h

theorem flatten_absorbed_sublist (r : Reassembly) (p : Packet) :
    (r.absorbed p).2.pieces.flatten.Sublist (r.buffer ++ p.sectionData) := by
  unfold absorbed Packet.sectionData
  split
  · exact List.nil_sublist _
  · cases p.content with
    | none => exact List.nil_sublist _
    | some payload =>
      cases p.unitStart with
      | true => exact r.flatten_started_sublist payload
      | false =>
        show (r.continued payload).2.pieces.flatten.Sublist (r.buffer ++ payload)
        unfold continued
        split
        · exact List.nil_sublist _
        · exact (Extraction.flatten_pieces_prefix _).sublist

theorem flatten_next_sublist (r : Reassembly) (p : Packet) :
    (r.next p).2.pieces.flatten.Sublist (r.buffer ++ p.sectionData) := by
  have habsorbed : ∀ arrival, ((r.accept p arrival).absorbed p).2.pieces.flatten.Sublist
      (r.buffer ++ p.sectionData) := by
    intro arrival
    refine ((r.accept p arrival).flatten_absorbed_sublist p).trans ?_
    cases arrival with
    | first | inSequence | duplicate => exact List.Sublist.refl _
    | afterBreak | outOfSequence => exact (List.nil_sublist _).append (List.Sublist.refl _)
  unfold next
  cases r.arrival p p.breakSignalled with
  | duplicate => exact List.nil_sublist _
  | first | afterBreak | inSequence | outOfSequence => exact habsorbed _

end Reassembly

namespace Section

variable {rule : ChecksumRule} {data : Bytes} {defect : Defect}

theorem diagnose_of_isSection (h : IsSection data) (rule : ChecksumRule) :
    diagnose rule data =
      if !(CommonHeader.read data).isLong then none
      else if data.length < minLongSize then some (.tooShort data.length minLongSize)
      else if (TableHeader.read (data.drop CommonHeader.size)).last <
          (TableHeader.read (data.drop CommonHeader.size)).number then
        some (.numberAboveLast (TableHeader.read (data.drop CommonHeader.size)).number
          (TableHeader.read (data.drop CommonHeader.size)).last)
      else checksumDefect rule data := by
  have hsize : ¬ data.length < CommonHeader.size := Nat.not_lt.2 h.size_le
  have hdeclared : (CommonHeader.read data).totalSize = data.length := h.declaredSize_eq
  have hmax : ¬ maxSize < data.length := Nat.not_lt.2 h.length_le
  unfold diagnose
  dsimp only
  rw [hdeclared, if_neg hsize, if_neg hmax, if_neg (not_not.2 rfl)]

/-- What can be wrong with a piece. Its length is never other than it declares. -/
inductive PieceDefect (data : Bytes) : Defect → Prop
  | tooShort (long : (CommonHeader.read data).isLong = true) (short : data.length < 12) :
      PieceDefect data (.tooShort data.length 12)
  | tooLong (oversized : Oversized data) : PieceDefect data (.tooLong (declaredSize data))
  | numberAboveLast {number last : UInt8} (above : last < number) :
      PieceDefect data (.numberAboveLast number last)
  | wrongChecksum {stored computed : BitVec 32} (differ : stored ≠ computed) :
      PieceDefect data (.wrongChecksum stored computed)

theorem pieceDefect_of_diagnose (h : IsPiece data) (found : diagnose rule data = some defect) :
    PieceDefect data defect := by
  rcases h with h | h
  · rw [diagnose_of_isSection h] at found
    split at found
    · cases found
    next hlong =>
    split at found
    · next hshort =>
      obtain rfl := Option.some.inj found
      exact .tooShort (by simpa using hlong) hshort
    split at found
    · next habove =>
      obtain rfl := Option.some.inj found
      exact .numberAboveLast habove
    unfold checksumDefect at found
    split at found
    · next hsum =>
      obtain rfl := Option.some.inj found
      exact .wrongChecksum hsum.2
    · cases found
  · rw [diagnose_of_oversized h] at found
    obtain rfl := Option.some.inj found
    exact .tooLong h

theorem not_isNext_of_isCurrent {s : Section} (current : s.isCurrent = true) :
    ¬ s.isNext = true := by
  intro next
  cases (beq_iff_eq.1 next).symm.trans (beq_iff_eq.1 current)

end Section

theorem DemuxOptions.cases_of_not_selects {o : DemuxOptions} {s : Section}
    (refused : ¬ o.selects s = true) : s.isLong = true ∧
      (s.isNext = true ∧ o.next = false ∨ s.isCurrent = true ∧ o.current = false) := by
  unfold DemuxOptions.selects Section.isShort at refused
  cases hlong : s.isLong with
  | false =>
    rw [hlong] at refused
    exact absurd rfl refused
  | true =>
    rw [hlong, Bool.not_true, Bool.false_or] at refused
    refine ⟨rfl, ?_⟩
    split at refused
    · next next => exact .inl ⟨next, Bool.not_eq_true _ ▸ refused⟩
    · next next =>
      refine .inr ⟨?_, Bool.not_eq_true _ ▸ refused⟩
      unfold Section.isNext at next
      unfold Section.isCurrent
      cases happlies : s.applicability with
      | current => rfl
      | next =>
        rw [happlies] at next
        exact absurd rfl next

namespace TableAssembly

theorem problems_receive {a b : TableAssembly} {pid : Pid} {s : Section} {problems : List Problem}
    {table : Option Table} (h : (a.receive pid false s).value = .ok (b, problems, table)) :
    problems = [] := by
  have hshape : (a.checkShape pid false s).value = .ok [] := by
    rw [value_checkShape, Bool.and_false]
    rfl
  unfold receive at h
  rw [Traced.value_bind_of_ok hshape] at h
  split at h
  · cases h
    rfl
  · obtain ⟨fresh, -, h⟩ := Traced.value_bind_eq_ok_iff.1 h
    split at h
    · rw [Traced.value_bind_of_ok (value_checkRepetition false _)] at h
      cases h
      rfl
    · obtain ⟨_, -, h⟩ := Traced.value_bind_eq_ok_iff.1 h
      cases h
      rfl

end TableAssembly

inductive PieceEnd
  | reported
  | early
  | unwanted
  | passedOn
deriving DecidableEq, Repr

namespace Demux

variable {σ : Type} {d e f : Demux σ} {pid : Pid} {data : Bytes} {p : Packet} {calls : List Call}

def HasCounted (d e : Demux σ) (problems : List Problem) : Prop :=
  ∀ q, e.status.get q = d.status.get q + problems.count q

/-- What passing on a section does to the tables of its substream and which calls it leads to: one
where sections are delivered, at most one where tables are, none where nothing is. -/
def PassesOn (d : Demux σ) (s : Section) (calls : List Call) (e : Demux σ) : Prop :=
  match d.delivery with
  | none => calls = [] ∧ e.substreams = d.substreams
  | some (.sections _) => calls = [.sect s] ∧ e.substreams = d.substreams
  | some (.tables _) =>
    if s.isShort then calls = [.table (.single s)] ∧ e.substreams = d.substreams
    else calls = ((d.assemblyFor s).received s).2.toList.map .table ∧
      e.assembly? s.pid s.key = some ((d.assemblyFor s).received s).1

/-- What was counted and called for a piece, by the way in which it ended. -/
inductive Ends (d : Demux σ) (pid : Pid) (data : Bytes) (calls : List Call) (e : Demux σ) :
    PieceEnd → Prop
  | reported {defect : Section.Defect} (found : (d.asSection pid data).defect = some defect)
      (kind : .ofDefect defect ∈ [Problem.wrongChecksum, .invalidNumber, .invalidLength])
      (counted : d.HasCounted e [.ofDefect defect])
      (called : calls = if d.invalidHandler.isSome then [.invalid ⟨pid, data, defect⟩] else [])
      (same : e.substreams = d.substreams) : Ends d pid data calls e .reported
  | early (valid : (d.asSection pid data).defect = none)
      (long : (d.asSection pid data).isLong = true) (next : (d.asSection pid data).isNext = true)
      (refused : d.options.next = false) (counted : d.HasCounted e [.notYetCurrent])
      (called : calls = []) (same : e.substreams = d.substreams) : Ends d pid data calls e .early
  | unwanted (valid : (d.asSection pid data).defect = none)
      (long : (d.asSection pid data).isLong = true)
      (current : (d.asSection pid data).isCurrent = true) (refused : d.options.current = false)
      (called : calls = []) (same : e = d) : Ends d pid data calls e .unwanted
  | passedOn {changes : List Problem} (valid : (d.asSection pid data).defect = none)
      (selected : d.options.selects (d.asSection pid data) = true)
      (counted : d.HasCounted e changes) (few : TableAssembly.AtMostOneChange changes)
      (watched : changes ≠ [] → d.options.watchVersions = true ∧ d.isCollecting = true ∧
        (d.asSection pid data).isLong = true)
      (called : d.PassesOn (d.asSection pid data) calls e) : Ends d pid data calls e .passedOn

def ending (d : Demux σ) (pid : Pid) (data : Bytes) : PieceEnd :=
  if (d.asSection pid data).defect.isSome then .reported
  else if d.options.selects (d.asSection pid data) then .passedOn
  else if (d.asSection pid data).isNext then .early
  else .unwanted

theorem Ends.eq_ending {way : PieceEnd} (h : d.Ends pid data calls e way) :
    way = d.ending pid data := by
  cases h with
  | reported found => simp [ending, found]
  | passedOn valid selected => simp [ending, valid, selected]
  | early valid long next refused =>
    simp [ending, valid, next, DemuxOptions.selects, Section.isShort, long, refused]
  | unwanted valid long current refused =>
    have next := Section.not_isNext_of_isCurrent current
    simp [ending, valid, next, DemuxOptions.selects, Section.isShort, long, refused]

theorem hasCounted_of_count {problems : List Problem} (h : d.count problems = .ok e) :
    d.HasCounted e problems := by
  obtain ⟨status, hs, rfl⟩ := count_eq_ok_iff.1 h
  exact Status.get_of_countAll hs

theorem hasCounted_nil (same : e.status = d.status) : d.HasCounted e [] := by
  intro q
  rw [same]
  rfl

theorem status_of_call {α : Type} {handle : Handler σ α} {item : α} {c : Call}
    (h : (d.call pid handle item c).value = .ok (e, calls)) : e.status = d.status := by
  rw [value_call] at h
  obtain ⟨rfl, -⟩ := Prod.mk.inj (Except.ok.inj h)
  rfl

theorem ends_of_handleInvalid {defect : Section.Defect}
    (found : (d.asSection pid data).defect = some defect)
    (h : (d.handleInvalid { pid, data, defect }).value = .ok (e, calls)) :
    d.Ends pid data calls e .reported := by
  unfold handleInvalid at h
  obtain ⟨_, -, h⟩ := Traced.value_bind_eq_ok_iff.1 h
  obtain ⟨f, hf, h⟩ := Traced.value_bind_eq_ok_iff.1 h
  rw [Traced.value_liftM] at hf
  have kind : .ofDefect defect ∈ [Problem.wrongChecksum, .invalidNumber, .invalidLength] := by
    cases defect <;> simp [Problem.ofDefect]
  have counted := hasCounted_of_count hf
  have hhandler := (keeps_count hf).invalidHandler
  split at h
  · next hnone =>
    obtain ⟨rfl, rfl⟩ := Prod.mk.inj (Except.ok.inj h)
    refine .reported found kind counted ?_ (substreams_of_count hf)
    rw [← hhandler, hnone]
    rfl
  · next handle hsome =>
    obtain ⟨hsame, rfl⟩ := eq_of_call h
    have hstatus := status_of_call h
    refine .reported found kind ?_ ?_ (hsame.trans (substreams_of_count hf))
    · intro q
      rw [hstatus]
      exact counted q
    · rw [← hhandler, hsome]
      rfl

theorem ends_of_handleLong {handle : Handler σ Table}
    (valid : (d.asSection pid data).defect = none)
    (selected : d.options.selects (d.asSection pid data) = true)
    (collecting : d.delivery = some (.tables handle))
    (long : (d.asSection pid data).isLong = true)
    (known : (d.substreams.get? pid).isSome = true)
    (ready : (d.assemblyFor (d.asSection pid data)).Ready pid (d.asSection pid data).key)
    (h : (d.handleLong pid handle (d.asSection pid data)).value = .ok (e, calls)) :
    d.Ends pid data calls e .passedOn := by
  have arrives : (d.handling pid data calls).Arrives :=
    ⟨valid, selected, by rw [handling, isCollecting, collecting]⟩
  have called : d.PassesOn (d.asSection pid data) calls e := by
    have hshort : (d.asSection pid data).isShort = false := by rw [Section.isShort, long]; rfl
    unfold PassesOn
    rw [collecting]
    dsimp only
    rw [if_neg (by rw [hshort]; exact Bool.false_ne_true)]
    cases touches_of_handleLong arrives long known ready h with
    | aside other => exact absurd arrives other
    | whole _ short => cases short.symm.trans long
    | part _ _ stored hcalls =>
      exact ⟨hcalls, (stored _ _).trans (if_pos ⟨rfl, rfl⟩)⟩
  obtain ⟨sub, hsub⟩ := Option.isSome_iff_exists.1 known
  obtain ⟨problems, few, hreceive⟩ := ready.exists_receive (s := d.asSection pid data) valid
    d.options.watchVersions
  have watched : problems ≠ [] → d.options.watchVersions = true := by
    intro hproblems
    by_contra hwatch
    rw [Bool.not_eq_true] at hwatch
    rw [hwatch] at hreceive
    exact hproblems (TableAssembly.problems_receive hreceive)
  have counted : d.HasCounted e problems := by
    unfold handleLong at h
    rw [hsub] at h
    dsimp only at h
    rw [← assemblyFor_eq hsub data] at h
    obtain ⟨result, hr, h⟩ := Traced.value_bind_eq_ok_iff.1 h
    obtain rfl := Except.ok.inj (hreceive.symm.trans hr)
    obtain ⟨f, hf, h⟩ := Traced.value_bind_eq_ok_iff.1 h
    rw [Traced.value_liftM] at hf
    have hstatus : e.status = f.status := by
      split at h
      · obtain ⟨rfl, -⟩ := Prod.mk.inj (Except.ok.inj h)
        rfl
      · exact (status_of_call h).trans rfl
    intro q
    rw [hstatus]
    exact hasCounted_of_count hf q
  exact .passedOn valid selected counted few
    (fun hproblems ↦ ⟨watched hproblems, arrives.collecting, long⟩) called

theorem ends_of_deliver (valid : (d.asSection pid data).defect = none)
    (selected : d.options.selects (d.asSection pid data) = true)
    (known : (d.substreams.get? pid).isSome = true)
    (ready : (d.assemblyFor (d.asSection pid data)).Ready pid (d.asSection pid data).key)
    (h : (d.deliver pid (d.asSection pid data)).value = .ok (e, calls)) :
    d.Ends pid data calls e .passedOn := by
  have uncounted (same : e.status = d.status)
      (called : d.PassesOn (d.asSection pid data) calls e) : d.Ends pid data calls e .passedOn :=
    .passedOn valid selected (hasCounted_nil same) (.inl rfl) (fun h ↦ absurd rfl h) called
  unfold deliver at h
  split at h
  · next hd =>
    obtain ⟨rfl, rfl⟩ := Prod.mk.inj (Except.ok.inj h)
    refine uncounted rfl ?_
    unfold PassesOn
    rw [hd]
    exact ⟨rfl, rfl⟩
  · next handle hd =>
    refine uncounted (status_of_call h) ?_
    obtain ⟨hsame, rfl⟩ := eq_of_call h
    unfold PassesOn
    rw [hd]
    exact ⟨rfl, hsame⟩
  · next handle hd =>
    split at h
    · next short =>
      unfold handleShort at h
      rw [Table.ofSection_eq valid] at h
      obtain ⟨result, hr, h⟩ := Traced.value_bind_eq_ok_iff.1 h
      obtain rfl := Except.ok.inj hr
      refine uncounted (status_of_call h) ?_
      obtain ⟨hsame, rfl⟩ := eq_of_call h
      unfold PassesOn
      rw [hd]
      dsimp only
      rw [if_pos short]
      exact ⟨rfl, hsame⟩
    · next hlong =>
      have long : (d.asSection pid data).isLong = true := by
        simpa [Section.isShort] using hlong
      exact ends_of_handleLong valid selected hd long known ready h

theorem exists_ends_of_handlePiece (known : (d.substreams.get? pid).isSome = true)
    (ready : (d.assemblyFor (d.asSection pid data)).Ready pid (d.asSection pid data).key)
    (h : (d.handlePiece pid data).value = .ok (e, calls)) : ∃ way, d.Ends pid data calls e way := by
  rw [handlePiece_eq] at h
  split at h
  · next valid =>
    unfold handleValid at h
    split at h
    · next selected => exact ⟨.passedOn, ends_of_deliver valid selected known ready h⟩
    · next refused =>
      obtain ⟨long, early | ⟨current, unwanted⟩⟩ := DemuxOptions.cases_of_not_selects refused
      · rw [if_pos early.1] at h
        obtain ⟨f, hf, h⟩ := Traced.value_bind_eq_ok_iff.1 h
        rw [Traced.value_liftM] at hf
        obtain ⟨rfl, rfl⟩ := Prod.mk.inj (Except.ok.inj h)
        exact ⟨.early, .early valid long early.1 early.2 (hasCounted_of_count hf) rfl
          (substreams_of_count hf)⟩
      · rw [if_neg (Section.not_isNext_of_isCurrent current)] at h
        obtain ⟨rfl, rfl⟩ := Prod.mk.inj (Except.ok.inj h)
        exact ⟨.unwanted, .unwanted valid long current unwanted rfl rfl⟩
  · next defect found => exact ⟨.reported, ends_of_handleInvalid found h⟩

inductive Accounts (pid : Pid) : Demux σ → List Bytes → List Call → Demux σ → Prop
  | done (d : Demux σ) : Accounts pid d [] [] d
  | piece {d e f : Demux σ} {data : Bytes} {rest : List Bytes} {calls more : List Call}
      (handled : (d.handlePiece pid data).value = .ok (e, calls))
      (ended : ∃! way, d.Ends pid data calls e way) (others : Accounts pid e rest more f) :
      Accounts pid d (data :: rest) (calls ++ more) f

theorem accounts_of_handlePieces {pieces : List Bytes}
    (h : Moment.Sound ⟨d, some (pid, pieces)⟩)
    (done : (d.handlePieces pid pieces).value = .ok (e, calls)) :
    Accounts pid d pieces calls e := by
  induction pieces generalizing d calls with
  | nil =>
    obtain ⟨rfl, rfl⟩ := Prod.mk.inj (Except.ok.inj done)
    exact .done d
  | cons data rest ih =>
    obtain ⟨f, first, others, hpiece, hrest, rfl⟩ := handlePieces_cons_eq_ok_iff.1 done
    obtain ⟨way, ended⟩ := exists_ends_of_handlePiece (h.known pid _ rfl)
      (ready_assemblyFor h.holds _) hpiece
    have step : Step ⟨d, some (pid, data :: rest)⟩ _ ⟨f, some (pid, rest)⟩ := .handle hpiece
    have unique : ∀ other, d.Ends pid data first f other → other = way :=
      fun _ h ↦ h.eq_ending.trans ended.eq_ending.symm
    exact .piece hpiece ⟨way, ended, unique⟩ (ih (h.step step) hrest)

theorem Ends.of_invalid {way : PieceEnd} {x : InvalidData} (h : d.Ends pid data calls e way)
    (reported : .invalid x ∈ calls) :
    x.pid = pid ∧ x.data = data ∧ (d.asSection pid data).defect = some x.defect := by
  cases h with
  | reported found kind counted called same =>
    subst called
    split at reported
    · obtain rfl := Call.invalid.inj (List.mem_singleton.1 reported)
      exact ⟨rfl, rfl, found⟩
    · cases reported
  | early _ _ _ _ _ called =>
    subst called
    cases reported
  | unwanted _ _ _ _ called =>
    subst called
    cases reported
  | passedOn _ _ _ _ _ called =>
    unfold PassesOn at called
    split at called
    · rw [called.1] at reported
      cases reported
    · rw [called.1] at reported
      cases List.mem_singleton.1 reported
    · split at called
      · rw [called.1] at reported
        cases List.mem_singleton.1 reported
      · rw [called.1] at reported
        obtain ⟨_, -, h⟩ := List.mem_map.1 reported
        cases h

theorem Accounts.of_invalid {pieces : List Bytes} {x : InvalidData}
    (h : Accounts pid d pieces calls e) (reported : .invalid x ∈ calls) :
    x.pid = pid ∧ x.data ∈ pieces ∧
      (Section.ofBytes d.options.checksums x.data x.pid).defect = some x.defect := by
  induction h with
  | done => cases reported
  | piece handled ended others ih =>
    rcases List.mem_append.1 reported with reported | reported
    · obtain ⟨way, ended, -⟩ := ended
      obtain ⟨rfl, rfl, found⟩ := ended.of_invalid reported
      exact ⟨rfl, List.mem_cons_self .., found⟩
    · obtain ⟨hpid, hmem, found⟩ := ih reported
      rw [(pass_of_handlePiece handled).keeps.options] at found
      exact ⟨hpid, List.mem_cons_of_mem _ hmem, found⟩

/-- Only a full counter stops the work on a packet. Where it is done, the pieces come in the order
of the stream, each is a section or begins with a header that declares too much, and they are staged
with what the checks find in them, whether splitting says it or the section. Each ends in one way,
and what is reported of it is what the checks find in it. -/
theorem Reachable.feed_accounts (h : d.Reachable) (p : Packet) :
    Completes (d.feed p).value (d.FillsUp p) ∧
    ∀ e calls, (d.feed p).value = .ok (e, calls) →
      (d.hasPid p.pid = false →
        calls = [] ∧ e.view = d.view ∧ e.substreams = d.substreams) ∧
      (d.hasPid p.pid = true →
        (d.findings p).pieces.flatten.Sublist
          ((d.substream p.pid).reassembly.buffer ++ p.sectionData) ∧
        (∀ piece ∈ (d.findings p).pieces, IsSection piece ∨
          Oversized piece ∧ ∀ rule, Section.diagnose rule piece =
            some (.tooLong (declaredSize piece))) ∧
        (d.stagedBy p).map (·.bytes) = (d.findings p).pieces ∧
        (∀ item ∈ d.stagedBy p, item.defect = Section.diagnose d.options.checksums item.bytes) ∧
        (∃ f g, (d.advanced p).count (d.findings p).problems = .ok f ∧
          (({ d with packetCount := d.packetCount + 1 } : Demux σ).stage p).value =
            .ok { f with staged := d.stagedBy p } ∧
          (({ f with staged := d.stagedBy p } : Demux σ).dispatch p.pid).value = .ok (g, calls) ∧
          Accounts p.pid f (d.findings p).pieces calls g ∧ g.settle = e) ∧
        ∀ x, .invalid x ∈ calls → x.pid = p.pid ∧ x.data ∈ (d.findings p).pieces ∧
          (Section.ofBytes d.options.checksums x.data x.pid).defect = some x.defect ∧
          (∀ declared actual, x.defect ≠ .lengthMismatch declared actual) ∧
          ∀ actual minimum, x.defect = .tooShort actual minimum →
            (CommonHeader.read x.data).isLong = true ∧ x.data.length < 12) := by
  have settled := h.settled
  refine ⟨completes_feed settled p, fun e calls fed ↦ ?_⟩
  obtain ⟨room, hfed⟩ := h.sound.feed_eq_ok_iff.1 fed
  refine ⟨fun unfiltered ↦ ?_, fun filtered ↦ ?_⟩
  · rw [unfiltered, if_neg Bool.false_ne_true] at hfed
    obtain ⟨rfl, rfl⟩ := hfed
    exact ⟨rfl, rfl, rfl⟩
  rw [if_pos filtered] at hfed
  obtain ⟨f, g, counted, handled, rfl⟩ := hfed
  have pieces : ∀ piece ∈ (d.findings p).pieces, IsPiece piece :=
    fun piece ↦ Reassembly.isPiece_next
  have taken := settled.moment.step (.take room filtered counted)
  have accounts := accounts_of_handlePieces taken handled
  obtain ⟨hstaged, -, hdispatched⟩ := h.sound.stage_dispatch_of_handled counted handled
  refine ⟨Reassembly.flatten_next_sublist _ p, ?_, Staged.map_bytes_map _ _ _,
    List.forall_mem_map.2 fun piece _ ↦ ?_,
    ⟨f, g, counted, hstaged, hdispatched, accounts, rfl⟩, ?_⟩
  · intro piece hp
    exact (pieces piece hp).imp_right fun oversized ↦
      ⟨oversized, Section.diagnose_of_oversized oversized⟩
  · rw [Staged.defect_ofPiece, Staged.bytes_ofPiece]
  · intro x reported
    obtain ⟨hpid, hmem, found⟩ := accounts.of_invalid reported
    have hdefect := Section.pieceDefect_of_diagnose (pieces _ hmem) found
    rw [(keeps_count counted).options] at found
    refine ⟨hpid, hmem, found, ?_, ?_⟩
    · intro declared actual hx
      rw [hx] at hdefect
      cases hdefect
    · intro actual minimum hx
      rw [hx] at hdefect
      cases hdefect with
      | tooShort long short => exact ⟨long, short⟩

def watchful : Demux Unit :=
  tabulator.setInvalidHandler (some fun state _ _ ↦ { state })

def threePieces : Packet :=
  .leading .pat [0x42, 0x30, 1, 0, 0x42, 0xb0, 1, 0, 0x42, 0x3f, 0xff, 0]

theorem Reachable.feed_accounts_threePieces : watchful.Reachable ∧
    ∃ e calls, (watchful.feed threePieces).value = .ok (e, calls) ∧
      calls.map (·.kind) = [.table, .invalid, .invalid] ∧
      (watchful.stagedBy threePieces).map (·.isMalformed) = [false, false, true] ∧
      ∃ f g : Demux Unit,
        ({ f with staged := watchful.stagedBy threePieces }.dispatch .pat).value = .ok (g, calls) ∧
        Accounts .pat f (watchful.findings threePieces).pieces calls g ∧ g.settle = e := by
  have reachable : watchful.Reachable :=
    .setInvalidHandler (.setDelivery (.addPid (.start _ _) _) _) _
  have done : (watchful.feed threePieces).value.toOption.bind
      (fun r ↦ some (r.2.map (·.kind))) = some [.table, .invalid, .invalid] := by
    decide +kernel
  obtain ⟨⟨e, calls⟩, fed, kinds⟩ := toOption_bind_eq_some_iff.1 done
  replace kinds := Option.some.inj kinds
  have accounted := ((reachable.feed_accounts threePieces).2 e calls fed).2 (by decide +kernel)
  obtain ⟨f, g, -, -, dispatched, accounts, settled⟩ := accounted.2.2.2.2.1
  exact ⟨reachable, e, calls, fed, kinds, by decide +kernel, f, g, dispatched, accounts, settled⟩

end Demux

end TransportStream
