import TransportStream.Demux.Feed
import TransportStream.Proofs.Demux.Splitting

namespace TransportStream

def Call.isOn (pid : Pid) : Call → Bool
  | .table t => t.identity.any (·.pid == pid)
  | .sect s => s.pid == pid
  | .invalid d => d.pid == pid

theorem Call.eq_of_isOn {c : Call} {p q : Pid} (hp : c.isOn p = true) (hq : c.isOn q = true) :
    p = q := by
  cases c with
  | sect s => exact (beq_iff_eq.1 hp).symm.trans (beq_iff_eq.1 hq)
  | invalid d => exact (beq_iff_eq.1 hp).symm.trans (beq_iff_eq.1 hq)
  | table t =>
    obtain ⟨i, hi, hp⟩ := (Option.any_eq_true _ _).1 hp
    obtain ⟨j, hj, hq⟩ := (Option.any_eq_true _ _).1 hq
    obtain rfl := Option.some.inj (hi.symm.trans hj)
    exact (beq_iff_eq.1 hp).symm.trans (beq_iff_eq.1 hq)

namespace Demux

variable {σ : Type} {d d' : Demux σ} {pid : Pid} {calls more : List Call}

def response? (d : Demux σ) (state : σ) (view : DemuxView) : Call → Option (Response σ)
  | .table t =>
    match d.delivery with
    | some (.tables handle) => some (handle state view t)
    | _ => none
  | .sect s =>
    match d.delivery with
    | some (.sections handle) => some (handle state view s)
    | _ => none
  | .invalid data => d.invalidHandler.map fun handle ↦ handle state view data

def answered (d : Demux σ) (response : Response σ) : Demux σ :=
  { d with
    handlerState := response.state
    view := { d.view with requests := d.view.requests ++ response.requests } }

/-- The work on the pieces of a packet, as a series of small changes: problems are counted, tables
are stored, handlers are called. -/
inductive Pass (pid : Pid) : Demux σ → List Call → Demux σ → Prop
  | done (d : Demux σ) : Pass pid d [] d
  | count {d e f : Demux σ} {calls : List Call} {problems : List Problem}
      (counted : d.count problems = .ok e) (rest : Pass pid e calls f) : Pass pid d calls f
  | store {d f : Demux σ} {calls : List Call} {sub : Substream}
      {tables : FiniteMap TableKey TableAssembly} (known : d.substreams.get? pid = some sub)
      (rest : Pass pid { d with substreams := d.substreams.insert pid { sub with tables } } calls
        f) : Pass pid d calls f
  | call {d f : Demux σ} {calls : List Call} {c : Call} {response : Response σ}
      (answer : d.response? d.handlerState d.view c = some response)
      (about : c.isOn pid = true ∨ ∃ t, c = .table t)
      (rest : Pass pid (d.answered response) calls f) : Pass pid d (c :: calls) f

theorem Pass.append {e : Demux σ} (h : Pass pid d calls d') (h' : Pass pid d' more e) :
    Pass pid d (calls ++ more) e := by
  induction h with
  | done => exact h'
  | count counted _ ih => exact .count counted (ih h')
  | store known _ ih => exact .store known (ih h')
  | call answer about _ ih => exact .call answer about (ih h')

theorem value_call {α : Type} (d : Demux σ) (pid : Pid) (handle : Handler σ α) (item : α)
    (record : Call) :
    (d.call pid handle item record).value =
      .ok (d.answered (handle d.handlerState d.view item), [record]) := by
  unfold call
  by_cases h : (handle d.handlerState d.view item).panicked = true
  · simp only [h, if_true]
    rfl
  · simp only [h, Bool.false_eq_true, if_false]
    rfl

theorem count_eq_ok_iff {problems : List Problem} :
    d.count problems = .ok d' ↔
      ∃ status, d.status.countAll problems = .ok status ∧ d.withStatus status = d' := by
  rw [count, bind_eq_ok_iff]
  constructor
  · rintro ⟨status, hs, h⟩
    exact ⟨status, hs, Except.ok.inj h⟩
  · rintro ⟨status, hs, rfl⟩
    exact ⟨status, hs, rfl⟩

theorem pass_of_call {α : Type} {handle : Handler σ α} {item : α} {c : Call}
    (hc : d.response? d.handlerState d.view c = some (handle d.handlerState d.view item))
    (ha : c.isOn pid = true ∨ ∃ t, c = .table t)
    (h : (d.call pid handle item c).value = .ok (d', calls)) : Pass pid d calls d' := by
  rw [value_call] at h
  obtain ⟨rfl, rfl⟩ := Prod.mk.inj (Except.ok.inj h)
  exact .call hc ha (.done _)

theorem pass_of_handleInvalid {data : InvalidData} (hp : data.pid = pid)
    (h : (d.handleInvalid data).value = .ok (d', calls)) : Pass pid d calls d' := by
  unfold handleInvalid at h
  obtain ⟨_, -, h⟩ := Traced.value_bind_eq_ok_iff.1 h
  obtain ⟨e, he, h⟩ := Traced.value_bind_eq_ok_iff.1 h
  rw [Traced.value_liftM] at he
  refine .count he ?_
  split at h
  · obtain ⟨rfl, rfl⟩ := Prod.mk.inj (Except.ok.inj h)
    exact .done _
  · next handle hi =>
    subst hp
    refine pass_of_call ?_ (.inl ?_) h
    · rw [response?, hi]
      rfl
    · exact beq_self_eq_true _

theorem pass_of_handleShort {handle : Handler σ Table} {s : Section}
    (hd : d.delivery = some (.tables handle))
    (h : (d.handleShort pid handle s).value = .ok (d', calls)) : Pass pid d calls d' := by
  unfold handleShort at h
  obtain ⟨result, -, h⟩ := Traced.value_bind_eq_ok_iff.1 h
  split at h
  · refine pass_of_call ?_ (.inr ⟨_, rfl⟩) h
    rw [response?, hd]
  · obtain ⟨_, -, h⟩ := Traced.value_bind_eq_ok_iff.1 h
    obtain ⟨rfl, rfl⟩ := Prod.mk.inj (Except.ok.inj h)
    exact .done _

theorem pass_of_handleLong {handle : Handler σ Table} {s : Section}
    (hd : d.delivery = some (.tables handle))
    (h : (d.handleLong pid handle s).value = .ok (d', calls)) : Pass pid d calls d' := by
  unfold handleLong at h
  split at h
  · obtain ⟨rfl, rfl⟩ := Prod.mk.inj (Except.ok.inj h)
    exact .done _
  · next sub hs =>
    obtain ⟨⟨assembly, problems, complete⟩, -, h⟩ := Traced.value_bind_eq_ok_iff.1 h
    obtain ⟨e, he, h⟩ := Traced.value_bind_eq_ok_iff.1 h
    rw [Traced.value_liftM] at he
    obtain ⟨status, -, rfl⟩ := count_eq_ok_iff.1 he
    refine .count he (@Pass.store _ _ (d.withStatus status) _ _ sub
      (sub.tables.insert s.key assembly) hs ?_)
    split at h
    · obtain ⟨rfl, rfl⟩ := Prod.mk.inj (Except.ok.inj h)
      exact .done _
    · refine pass_of_call ?_ (.inr ⟨_, rfl⟩) h
      rw [response?]
      exact hd ▸ rfl

theorem pass_of_deliver {s : Section} (hp : s.pid = pid)
    (h : (d.deliver pid s).value = .ok (d', calls)) : Pass pid d calls d' := by
  unfold deliver at h
  split at h
  · obtain ⟨rfl, rfl⟩ := Prod.mk.inj (Except.ok.inj h)
    exact .done _
  · next handle hd =>
    refine pass_of_call (c := .sect s) ?_ (.inl (beq_iff_eq.2 hp)) h
    rw [response?, hd]
  · next handle hd =>
    split at h
    · exact pass_of_handleShort hd h
    · exact pass_of_handleLong hd h

def handlePiece (d : Demux σ) (pid : Pid) (data : Bytes) : Traced (Demux σ × List Call) :=
  d.handleItem pid (.ofPiece d.options.checksums pid data)

def handlePieces (d : Demux σ) (pid : Pid) (pieces : List Bytes) : Traced (Demux σ × List Call) :=
  d.handleItems pid (pieces.map (.ofPiece d.options.checksums pid))

/-- What splitting says of a piece that it could not take for a section is what the checks of a
section would say, so that to deal with a piece is to check it as a section. -/
theorem handlePiece_eq (d : Demux σ) (pid : Pid) (data : Bytes) :
    d.handlePiece pid data =
      match (Section.ofBytes d.options.checksums data pid).defect with
      | none => d.handleValid pid (.ofBytes d.options.checksums data pid)
      | some defect => d.handleInvalid { pid, data, defect } := by
  unfold handlePiece Staged.ofPiece
  split
  · next long =>
    have hdefect : (Section.ofBytes d.options.checksums data pid).defect =
        some (.tooLong (declaredSize data)) :=
      Section.diagnose_of_oversized (oversized_of_maxSize_lt long) _
    rw [hdefect]
    rfl
  · rfl

theorem pass_of_handlePiece {data : Bytes}
    (h : (d.handlePiece pid data).value = .ok (d', calls)) : Pass pid d calls d' := by
  rw [handlePiece_eq] at h
  split at h
  · unfold handleValid at h
    split at h
    · exact pass_of_deliver rfl h
    · split at h
      · obtain ⟨e, he, h⟩ := Traced.value_bind_eq_ok_iff.1 h
        rw [Traced.value_liftM] at he
        obtain ⟨rfl, rfl⟩ := Prod.mk.inj (Except.ok.inj h)
        exact .count he (.done _)
      · obtain ⟨rfl, rfl⟩ := Prod.mk.inj (Except.ok.inj h)
        exact .done _
  · exact pass_of_handleInvalid rfl h

structure Keeps (d d' : Demux σ) : Prop where
  options : d'.options = d.options
  delivery : d'.delivery = d.delivery
  invalidHandler : d'.invalidHandler = d.invalidHandler
  packetCount : d'.packetCount = d.packetCount
  filter : d'.filter = d.filter
  staged : d'.staged = d.staged
  reassembly : ∀ q, (d'.substreams.get? q).map (·.reassembly) =
    (d.substreams.get? q).map (·.reassembly)

theorem Keeps.rfl {d : Demux σ} : Keeps d d :=
  ⟨.refl _, .refl _, .refl _, .refl _, .refl _, .refl _, fun _ ↦ .refl _⟩

theorem Keeps.trans {e : Demux σ} (h : Keeps d d') (h' : Keeps d' e) : Keeps d e where
  options := h'.options.trans h.options
  delivery := h'.delivery.trans h.delivery
  invalidHandler := h'.invalidHandler.trans h.invalidHandler
  packetCount := h'.packetCount.trans h.packetCount
  filter := h'.filter.trans h.filter
  staged := h'.staged.trans h.staged
  reassembly q := (h'.reassembly q).trans (h.reassembly q)

theorem keeps_count {problems : List Problem} (h : d.count problems = .ok d') : Keeps d d' := by
  obtain ⟨status, -, rfl⟩ := count_eq_ok_iff.1 h
  exact ⟨rfl, rfl, rfl, rfl, rfl, rfl, fun _ ↦ rfl⟩

theorem Pass.keeps (h : Pass pid d calls d') : Keeps d d' := by
  induction h with
  | done => exact .rfl
  | count counted _ ih => exact (keeps_count counted).trans ih
  | @call d f calls c response answer about _ ih =>
    have hk : Keeps d (d.answered response) := ⟨rfl, rfl, rfl, rfl, rfl, rfl, fun _ ↦ rfl⟩
    exact hk.trans ih
  | @store d f calls sub tables known _ ih =>
    have hk : Keeps d
        { d with substreams := d.substreams.insert pid { sub with tables } } := by
      refine ⟨rfl, rfl, rfl, rfl, rfl, rfl, fun q ↦ ?_⟩
      rw [FiniteMap.get?_insert]
      split
      · next hq =>
        rw [hq, known]
        rfl
      · rfl
    exact hk.trans ih

theorem value_handlePieces_cons (d : Demux σ) (pid : Pid) (data : Bytes) (rest : List Bytes) :
    (d.handlePieces pid (data :: rest)).value = (d.handlePiece pid data).value >>= fun first ↦
      (first.1.handlePieces pid rest).value >>= fun others ↦
        .ok (others.1, first.2 ++ others.2) := by
  have hcons : d.handlePieces pid (data :: rest) = d.handlePiece pid data >>= fun first ↦
      first.1.handleItems pid (rest.map (.ofPiece d.options.checksums pid)) >>= fun others ↦
        pure (others.1, first.2 ++ others.2) := rfl
  rw [hcons, Traced.value_bind]
  cases hfirst : (d.handlePiece pid data).value with
  | error fault => rfl
  | ok first =>
    have hoptions := (pass_of_handlePiece hfirst).keeps.options
    show (first.1.handleItems pid _ >>= _ : Traced _).value = _
    rw [Traced.value_bind, ← hoptions]
    rfl

theorem handlePieces_cons_eq_ok_iff {f : Demux σ} {data : Bytes} {rest : List Bytes} :
    (d.handlePieces pid (data :: rest)).value = .ok (f, calls) ↔ ∃ e first others,
      (d.handlePiece pid data).value = .ok (e, first) ∧
      (e.handlePieces pid rest).value = .ok (f, others) ∧ first ++ others = calls := by
  rw [value_handlePieces_cons, bind_eq_ok_iff]
  constructor
  · rintro ⟨⟨e, first⟩, hfirst, h⟩
    obtain ⟨⟨g, others⟩, hothers, h⟩ := bind_eq_ok_iff.1 h
    obtain ⟨rfl, rfl⟩ := Prod.mk.inj (Except.ok.inj h)
    exact ⟨e, first, others, hfirst, hothers, rfl⟩
  · rintro ⟨e, first, others, hfirst, hothers, rfl⟩
    exact ⟨(e, first), hfirst, bind_eq_ok_iff.2 ⟨(f, others), hothers, rfl⟩⟩

theorem pass_of_handlePieces {pieces : List Bytes}
    (h : (d.handlePieces pid pieces).value = .ok (d', calls)) : Pass pid d calls d' := by
  induction pieces generalizing d calls with
  | nil =>
    obtain ⟨rfl, rfl⟩ := Prod.mk.inj (Except.ok.inj h)
    exact .done _
  | cons data rest ih =>
    obtain ⟨e, first, others, h₁, h₂, rfl⟩ := handlePieces_cons_eq_ok_iff.1 h
    exact (pass_of_handlePiece h₁).append (ih h₂)

/-- Whether no handler ever asks to take a substream out of the filter. -/
def Spares (d : Demux σ) (pid : Pid) : Prop :=
  ∀ state view c response, d.response? state view c = some response →
    .remove pid ∉ response.requests

theorem Spares.of_keeps {q : Pid} (h : d.Spares q) (hk : Keeps d d') : d'.Spares q := by
  intro state view c response hr
  refine h state view c response ?_
  rw [← hr]
  cases c <;> simp only [response?, hk.delivery, hk.invalidHandler]

theorem Pass.not_removed {q : Pid} (h : Pass pid d calls d') (hs : d.Spares q)
    (hd : .remove q ∉ d.view.requests) : .remove q ∉ d'.view.requests := by
  induction h with
  | done => exact hd
  | count counted _ ih =>
    refine ih (hs.of_keeps (keeps_count counted)) ?_
    obtain ⟨status, -, rfl⟩ := count_eq_ok_iff.1 counted
    exact hd
  | store known _ ih => exact ih hs hd
  | call answer about _ ih =>
    refine ih hs fun hm ↦ ?_
    rcases List.mem_append.1 hm with hm | hm
    · exact hd hm
    · exact hs _ _ _ _ answer hm

theorem Pass.isOn {handle : Handler σ Section} (h : Pass pid d calls d')
    (hd : d.delivery = some (.sections handle)) : ∀ c ∈ calls, c.isOn pid = true := by
  induction h with
  | done => exact fun _ hc ↦ absurd hc List.not_mem_nil
  | count counted _ ih => exact ih ((keeps_count counted).delivery.trans hd)
  | store known _ ih => exact ih hd
  | call answer about _ ih =>
    intro c hc
    rcases List.mem_cons.1 hc with rfl | hc
    · rcases about with about | ⟨t, rfl⟩
      · exact about
      · simp [response?, hd] at answer
    · exact ih hd c hc

end Demux

end TransportStream
