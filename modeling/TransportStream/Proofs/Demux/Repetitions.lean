import Mathlib.Logic.Function.Basic
import TransportStream.Proofs.Demux.Renewal
import TransportStream.Proofs.Demux.Splicing

namespace TransportStream

/-- Whether two computations end in the same fault, or give values of which `R` holds. -/
def Agree {α β : Type} (R : α → β → Prop) : Except Fault α → Except Fault β → Prop
  | .ok a, .ok b => R a b
  | .error fault, .error fault' => fault = fault'
  | .ok _, .error _ | .error _, .ok _ => False

namespace Agree

variable {α β γ δ : Type} {R : α → β → Prop} {S : γ → δ → Prop}

theorem bind {x : Except Fault α} {y : Except Fault β} {f : α → Except Fault γ}
    {g : β → Except Fault δ} (h : Agree R x y) (hfg : ∀ a b, R a b → Agree S (f a) (g b)) :
    Agree S (x >>= f) (y >>= g) := by
  cases x with
  | ok a =>
    cases y with
    | ok b => exact hfg a b h
    | error fault => cases h
  | error fault =>
    cases y with
    | ok b => cases h
    | error fault' => exact h

theorem bind_same {x : Except Fault α} {f : α → Except Fault γ} {g : α → Except Fault δ}
    (h : ∀ a, Agree S (f a) (g a)) : Agree S (x >>= f) (x >>= g) := by
  cases x with
  | ok a => exact h a
  | error fault => exact rfl

theorem exists_ok {a : α} {y : Except Fault β} (h : Agree R (.ok a) y) :
    ∃ b, y = .ok b ∧ R a b := by
  cases y with
  | ok b => exact ⟨b, rfl, h⟩
  | error fault => cases h

theorem eq_error {fault : Fault} {y : Except Fault β} (h : Agree R (.error fault) y) :
    y = .error fault := by
  cases y with
  | ok b => cases h
  | error fault' => exact congrArg Except.error (Eq.symm h)

end Agree

def Substream.marked (sub : Substream) (again : Bool) : Substream :=
  { sub with reassembly :=
    { sub.reassembly with duplicateSeen := sub.reassembly.duplicateSeen || again } }

theorem Substream.marked_false (sub : Substream) : sub.marked false = sub := by
  simp only [marked, Bool.or_false]

namespace Demux

variable {σ : Type} {d e : Demux σ} {again : Pid → Bool} {pid : Pid} {p : Packet}

/-- Whether the second demultiplexer is as the first would be if the last packets of these
substreams had been repeated, the number of packets apart. -/
structure Echoes (again : Pid → Bool) (d e : Demux σ) : Prop where
  options : e.options = d.options
  view : e.view = d.view
  staged : e.staged = d.staged
  delivery : e.delivery = d.delivery
  invalidHandler : e.invalidHandler = d.invalidHandler
  handlerState : e.handlerState = d.handlerState
  known : ∀ q, e.substreams.get? q = (d.substreams.get? q).map (·.marked (again q))

def EchoesAfter (again : Pid → Bool) (x y : Demux σ × List Call) : Prop :=
  x.1.Echoes again y.1 ∧ y.2 = x.2

namespace Echoes

theorem refl (d : Demux σ) : d.Echoes (fun _ ↦ false) d := by
  refine ⟨rfl, rfl, rfl, rfl, rfl, rfl, fun q ↦ ?_⟩
  cases d.substreams.get? q with
  | none => rfl
  | some sub => exact congrArg some sub.marked_false.symm

theorem hasPid (h : d.Echoes again e) (q : Pid) : e.hasPid q = d.hasPid q := by
  rw [Demux.hasPid, filter, h.view]
  rfl

theorem done (h : d.Echoes again e) :
    Agree (EchoesAfter again) (Traced.value (pure (d, []))) (Traced.value (pure (e, []))) :=
  ⟨h, rfl⟩

theorem count (h : d.Echoes again e) (problems : List Problem) :
    Agree (Echoes again) (d.count problems) (e.count problems) := by
  unfold Demux.count
  rw [status, status, h.view]
  refine Agree.bind_same fun counted ↦ { h with view := ?_ }
  exact congrArg (fun view : DemuxView ↦ { view with status := counted }) h.view

theorem call {α : Type} (h : d.Echoes again e) (handle : Handler σ α) (item : α) (record : Call) :
    Agree (EchoesAfter again) (d.call pid handle item record).value
      (e.call pid handle item record).value := by
  rw [value_call, value_call, h.handlerState, h.view]
  refine ⟨{ h with view := ?_, handlerState := rfl }, rfl⟩
  rw [answered, answered, h.view]

theorem handleInvalid (h : d.Echoes again e) (data : InvalidData) :
    Agree (EchoesAfter again) (d.handleInvalid data).value (e.handleInvalid data).value := by
  unfold Demux.handleInvalid
  simp only [Traced.value_bind, Traced.value_liftM]
  refine Agree.bind_same fun _ ↦ (h.count _).bind fun f g hfg ↦ ?_
  rw [hfg.invalidHandler]
  cases f.invalidHandler with
  | none => exact hfg.done
  | some handle => exact hfg.call handle data _

theorem handleShort (h : d.Echoes again e) (handle : Handler σ Table) (s : Section) :
    Agree (EchoesAfter again) (d.handleShort pid handle s).value
      (e.handleShort pid handle s).value := by
  unfold Demux.handleShort
  rw [Traced.value_bind, Traced.value_bind]
  refine Agree.bind_same fun result ↦ ?_
  cases result with
  | ok table => exact h.call handle table _
  | error rejection => exact h.done

theorem store (pid : Pid) {f g : Demux σ} (h : f.Echoes again g)
    (known : ∀ q, e.substreams.get? q = (d.substreams.get? q).map (·.marked (again q)))
    (sub : Substream) :
    ({ f with substreams := d.substreams.insert pid sub } : Demux σ).Echoes again
      { g with substreams := e.substreams.insert pid (sub.marked (again pid)) } := by
  refine { h with known := fun q ↦ ?_ }
  simp only [FiniteMap.get?_insert]
  split
  · next hq =>
    rw [hq]
    rfl
  · exact known q

theorem handleLong (h : d.Echoes again e) (handle : Handler σ Table) (s : Section) :
    Agree (EchoesAfter again) (d.handleLong pid handle s).value
      (e.handleLong pid handle s).value := by
  unfold Demux.handleLong
  rw [h.known, h.options]
  cases d.substreams.get? pid with
  | none => exact h.done
  | some sub =>
    -- The tables of the substream are the same.
    show Agree _ (Traced.value (((sub.tables.get? s.key).getD {}).receive pid _ s >>= _))
      (Traced.value (((sub.tables.get? s.key).getD {}).receive pid _ s >>= _))
    rw [Traced.value_bind, Traced.value_bind]
    refine Agree.bind_same fun received ↦ ?_
    simp only [Traced.value_bind, Traced.value_liftM]
    refine (h.count _).bind fun f g hfg ↦ ?_
    have hstored := hfg.store pid h.known
      { sub with tables := sub.tables.insert s.key received.1 }
    cases received.2.2 with
    | none => exact hstored.done
    | some table => exact hstored.call handle table _

theorem deliver (h : d.Echoes again e) (s : Section) :
    Agree (EchoesAfter again) (d.deliver pid s).value (e.deliver pid s).value := by
  unfold Demux.deliver
  rw [h.delivery]
  rcases d.delivery with _ | handle | handle
  · exact h.done
  · dsimp only
    split
    · exact h.handleShort handle s
    · exact h.handleLong handle s
  · exact h.call handle s _

theorem handleValid (h : d.Echoes again e) (s : Section) :
    Agree (EchoesAfter again) (d.handleValid pid s).value (e.handleValid pid s).value := by
  unfold Demux.handleValid
  rw [h.options]
  split
  · exact h.deliver s
  · split
    · simp only [Traced.value_bind, Traced.value_liftM]
      exact (h.count _).bind fun _ _ hfg ↦ hfg.done
    · exact h.done

theorem handlePiece (h : d.Echoes again e) (data : Bytes) :
    Agree (EchoesAfter again) (d.handlePiece pid data).value (e.handlePiece pid data).value := by
  rw [handlePiece_eq, handlePiece_eq, h.options]
  cases (Section.ofBytes d.options.checksums data pid).defect with
  | none => exact h.handleValid _
  | some defect => exact h.handleInvalid _

theorem handlePieces (h : d.Echoes again e) (pieces : List Bytes) :
    Agree (EchoesAfter again) (d.handlePieces pid pieces).value
      (e.handlePieces pid pieces).value := by
  induction pieces generalizing d e with
  | nil => exact h.done
  | cons data rest ih =>
    rw [value_handlePieces_cons, value_handlePieces_cons]
    refine (h.handlePiece data).bind fun x y hxy ↦ (ih hxy.1).bind fun z w hzw ↦ ?_
    rw [hxy.2, hzw.2]
    exact ⟨hzw.1, rfl⟩

theorem settle (h : d.Echoes again e) : d.settle.Echoes again e.settle := by
  refine { h with view := congrArg DemuxView.settle h.view, known := fun q ↦ ?_ }
  rw [Demux.settle, Demux.settle, h.view, FiniteMap.get?_filterKeys, FiniteMap.get?_filterKeys,
    h.known]
  split
  · rfl
  · rfl

theorem sound (h : d.Echoes again e) (sound : d.Sound) : e.Sound := by
  refine ⟨h.view ▸ sound.requests, h.staged.trans sound.staged, fun q r known ↦ ?_⟩
  rw [h.known] at known
  cases hd : d.substreams.get? q with
  | none =>
    rw [hd] at known
    cases known
  | some sub =>
    rw [hd] at known
    obtain rfl := Option.some.inj known
    exact sound.reassembly q sub.reassembly (congrArg _ hd)

end Echoes

end Demux

namespace Reassembly

variable {r : Reassembly} {p : Packet}

structure Expects (r : Reassembly) (p : Packet) : Prop where
  unbroken : p.breakSignalled = false
  due : ∀ last, r.last = some last → p.counter = if p.layout.hasPayload then last.next else last

/-- What a packet in sequence does to its substream does not depend on whether the packet before it
was repeated. -/
theorem Expects.next_eq (h : r.Expects p) :
    r.next p = { r with last := some p.counter, duplicateSeen := false }.absorbed p := by
  cases hlast : r.last with
  | none => exact r.next_of_first hlast
  | some last =>
    have hdue := h.due last hlast
    cases hpayload : p.layout.hasPayload with
    | true =>
      rw [hpayload, if_pos rfl] at hdue
      exact next_of_inSequence hlast h.unbroken hpayload hdue
    | false =>
      rw [hpayload, if_neg Bool.false_ne_true] at hdue
      have harrival : r.arrival p p.breakSignalled = .inSequence := by
        simp [arrival, hlast, h.unbroken, hpayload, hdue]
      rw [next, harrival]
      rfl

theorem Expects.duplicateSeen_next (h : r.Expects p) : (r.next p).1.duplicateSeen = false := by
  rw [h.next_eq, duplicateSeen_absorbed]

theorem Expects.next_marked (h : r.Expects p) (again : Bool) :
    { r with duplicateSeen := r.duplicateSeen || again }.next p = r.next p := by
  have h' : { r with duplicateSeen := r.duplicateSeen || again }.Expects p :=
    ⟨h.unbroken, h.due⟩
  rw [h'.next_eq, h.next_eq]

theorem next_of_repeated (hlast : r.last = some p.counter) (unbroken : p.breakSignalled = false)
    (payload : p.layout.hasPayload = true) (once : r.duplicateSeen = false) :
    r.next p = ({ r with duplicateSeen := true }, {}) := by
  have hfollows : p.counter.follows p.counter = false := by
    rw [Bool.eq_false_iff]
    exact fun h ↦ p.counter.next_ne (ContinuityCounter.follows_iff.1 h).symm
  have harrival : r.arrival p p.breakSignalled = .duplicate := by
    simp [arrival, hlast, unbroken, payload, hfollows, once]
  rw [next, harrival]
  obtain ⟨pid, last, duplicateSeen, intake, buffer⟩ := r
  obtain rfl : last = some p.counter := hlast
  rfl

end Reassembly

namespace Demux

variable {σ : Type} {d e f : Demux σ} {again : Pid → Bool} {p : Packet} {calls : List Call}

def Expects (d : Demux σ) (p : Packet) : Prop :=
  d.hasPid p.pid = true → (d.substream p.pid).reassembly.Expects p

/-- The repetitions that are remembered after a packet: none of its own. -/
def cleared (d : Demux σ) (again : Pid → Bool) (p : Packet) : Pid → Bool :=
  if d.hasPid p.pid then Function.update again p.pid false else again

theorem Echoes.advanced (h : d.Echoes again e)
    (expected : (d.substream p.pid).reassembly.Expects p) :
    e.findings p = d.findings p ∧
      (d.advanced p).Echoes (Function.update again p.pid false) (e.advanced p) := by
  obtain ⟨b, hsubstream⟩ : ∃ b, e.substream p.pid = (d.substream p.pid).marked b := by
    unfold substream
    rw [h.known]
    cases d.substreams.get? p.pid with
    | none => exact ⟨false, rfl⟩
    | some sub => exact ⟨again p.pid, rfl⟩
  have hnext : (e.substream p.pid).reassembly.next p =
      (d.substream p.pid).reassembly.next p := by
    rw [hsubstream]
    exact expected.next_marked b
  refine ⟨by rw [findings, hnext, findings], { h with known := fun q ↦ ?_ }⟩
  simp only [Demux.advanced, FiniteMap.get?_insert]
  by_cases hq : q = p.pid
  · rw [if_pos hq, if_pos hq, hnext, hq, Function.update_self, hsubstream]
    exact congrArg some (Substream.marked_false _).symm
  · rw [if_neg hq, if_neg hq, Function.update_of_ne hq]
    exact h.known q

theorem Echoes.feed (h : d.Echoes again e) (sound : d.Sound) (expected : d.Expects p)
    (room : d.packetCount + 1 < wordLimit) (room' : e.packetCount + 1 < wordLimit) :
    Agree (EchoesAfter (d.cleared again p)) (d.feed p).value (e.feed p).value := by
  rw [sound.value_feed, (h.sound sound).value_feed, fit, fit, if_pos room, if_pos room', h.hasPid,
    cleared]
  show Agree _ (if d.hasPid p.pid = true then _ else _) (if d.hasPid p.pid = true then _ else _)
  by_cases filtered : d.hasPid p.pid = true
  · obtain ⟨hfindings, hadvanced⟩ := h.advanced (expected filtered)
    rw [if_pos filtered, if_pos filtered, if_pos filtered, hfindings]
    exact (hadvanced.count _).bind fun f g hfg ↦ (hfg.handlePieces _).bind
      fun x y hxy ↦ ⟨hxy.1.settle, hxy.2⟩
  · rw [if_neg filtered, if_neg filtered, if_neg filtered]
    exact ⟨{ h with }, rfl⟩

def InSequence : List Packet → Demux σ → Prop
  | [], _ => True
  | p :: rest, d => d.Expects p ∧
      ∀ e calls, (d.feed p).value = .ok (e, calls) → InSequence rest e

/-- Whether the second stream is the first with repetitions. The latest packet of a substream may
come once more if it has a payload. If it is in the filter then, its substream must be known: it has
not been taken out of the filter since the packet, or put there only after it. -/
inductive Repeats : (Pid → Option Packet) → Demux σ → List Packet → List Packet → Prop
  | nil (latest : Pid → Option Packet) (d : Demux σ) : Repeats latest d [] []
  | once {latest : Pid → Option Packet} {d : Demux σ} {p : Packet} {packets more : List Packet}
      (rest : ∀ e calls, (d.feed p).value = .ok (e, calls) →
        Repeats (Function.update latest p.pid (some p)) e packets more) :
      Repeats latest d (p :: packets) (p :: more)
  | twice {latest : Pid → Option Packet} {d : Demux σ} {p : Packet} {packets more : List Packet}
      (last : latest p.pid = some p) (payload : p.layout.hasPayload = true)
      (known : d.hasPid p.pid = true → (d.substreams.get? p.pid).isSome = true)
      (rest : Repeats (Function.update latest p.pid none) d packets more) :
      Repeats latest d packets (p :: more)

/-- Whether the packets that may still be repeated are the last ones of their substreams, as far as
these are known, and have not been repeated yet. -/
def Recalls (latest : Pid → Option Packet) (again : Pid → Bool) (d : Demux σ) : Prop :=
  ∀ p sub, latest p.pid = some p → d.substreams.get? p.pid = some sub →
    p.breakSignalled = false ∧ sub.reassembly.last = some p.counter ∧
      sub.reassembly.duplicateSeen = false ∧ again p.pid = false

variable {latest : Pid → Option Packet}

theorem known_of_feed (reachable : d.Reachable) (fed : (d.feed p).value = .ok (e, calls))
    {q : Pid} {sub : Substream} (known : e.substreams.get? q = some sub) :
    q = p.pid ∧ d.hasPid p.pid = true ∧
        sub.reassembly = ((d.substream p.pid).reassembly.next p).1 ∨
      q ≠ p.pid ∧ d.substreams.get? q = some sub := by
  have hknown := (reachable.settled.deals fed).known q
  rw [known] at hknown
  split at hknown
  · cases hknown
  by_cases hq : q = p.pid
  · by_cases filtered : d.hasPid p.pid = true
    · rw [if_pos ⟨hq, filtered⟩] at hknown
      obtain rfl := Option.some.inj hknown
      exact .inl ⟨hq, filtered, by rw [hq]; rfl⟩
    · rw [if_neg fun h ↦ filtered h.2, hq] at hknown
      exact absurd (reachable.knowsFiltered p.pid (by rw [← hknown]; rfl)) filtered
  · rw [if_neg fun h ↦ hq h.1] at hknown
    exact .inr ⟨hq, hknown.symm⟩

theorem Recalls.feed (h : Recalls latest again d) (reachable : d.Reachable)
    (expected : d.Expects p) (fed : (d.feed p).value = .ok (e, calls)) :
    Recalls (Function.update latest p.pid (some p)) (d.cleared again p) e := by
  intro q sub last known
  rcases known_of_feed reachable fed known with ⟨hq, filtered, hsub⟩ | ⟨hq, known⟩
  · rw [hq, Function.update_self] at last
    obtain rfl := Option.some.inj last
    have expects := expected filtered
    rw [hsub, cleared, if_pos filtered, Function.update_self]
    exact ⟨expects.unbroken, Reassembly.last_next p, expects.duplicateSeen_next, rfl⟩
  · rw [Function.update_of_ne hq] at last
    have hagain : d.cleared again p q.pid = again q.pid := by
      rw [cleared]
      split
      · exact Function.update_of_ne hq _ _
      · rfl
    rw [hagain]
    exact h q sub last known

theorem Recalls.forget (h : Recalls latest again d) (pid : Pid) (b : Bool) :
    Recalls (Function.update latest pid none) (Function.update again pid b) d := by
  intro q sub last known
  have hq : q.pid ≠ pid := by
    rintro rfl
    rw [Function.update_self] at last
    cases last
  rw [Function.update_of_ne hq] at last ⊢
  exact h q sub last known

theorem Echoes.repeated (h : d.Echoes again e) (recalls : Recalls latest again d)
    (sound : d.Sound) (last : latest p.pid = some p)
    (payload : p.layout.hasPayload = true)
    (known : d.hasPid p.pid = true → (d.substreams.get? p.pid).isSome = true)
    (room : e.packetCount + 1 < wordLimit) :
    ∃ f, (e.feed p).value = .ok (f, []) ∧ ∃ b,
      d.Echoes (Function.update again p.pid b) f := by
  rw [(h.sound sound).value_feed, fit, if_pos room, h.hasPid]
  show ∃ f, (if d.hasPid p.pid = true then _ else _) = _ ∧ _
  by_cases filtered : d.hasPid p.pid = true
  · obtain ⟨sub, hsub⟩ := Option.isSome_iff_exists.1 (known filtered)
    obtain ⟨unbroken, hlast, once, hagain⟩ := recalls p sub last hsub
    have hsubstream : e.substream p.pid = sub := by
      rw [substream, h.known, hsub, hagain]
      exact sub.marked_false
    have hnext := Reassembly.next_of_repeated hlast unbroken payload once
    have hfindings : e.findings p = {} := by rw [findings, hsubstream, hnext]
    have hsettle : (e.advanced p).settle = e.advanced p :=
      settle_of_no_requests (h.sound sound).requests
    rw [if_pos filtered, hfindings]
    refine ⟨(e.advanced p).settle, rfl, true, ?_⟩
    rw [hsettle]
    refine { h with known := fun q ↦ ?_ }
    rw [Demux.advanced, FiniteMap.get?_insert, hsubstream, hnext]
    by_cases hq : q = p.pid
    · rw [if_pos hq, hq, Function.update_self, hsub]
      simp only [Option.map_some, Substream.marked, Bool.or_true]
    · rw [if_neg hq, Function.update_of_ne hq]
      exact h.known q
  · rw [if_neg filtered]
    refine ⟨_, rfl, again p.pid, ?_⟩
    rw [Function.update_eq_self]
    exact { h with }

theorem Repeats.echoes {packets more : List Packet} (repeats : Repeats latest d packets more)
    (reachable : d.Reachable) (inSequence : InSequence packets d)
    (recalls : Recalls latest again d) (h : d.Echoes again e)
    (behind : d.packetCount ≤ e.packetCount) (room : e.packetCount + more.length < wordLimit) :
    ∃ again, Agree (EchoesAfter again) (d.feedAll packets).value (e.feedAll more).value := by
  induction repeats generalizing again e with
  | nil => exact ⟨again, h.done⟩
  | @once latest d p packets more rest ih =>
    rw [List.length_cons] at room
    have step := h.feed reachable.sound inSequence.1 (by omega) (by omega)
    simp only [feedAll, Traced.value_bind]
    cases hd : (d.feed p).value with
    | error fault =>
      rw [hd] at step
      rw [step.eq_error]
      exact ⟨again, rfl⟩
    | ok first =>
      obtain ⟨d', calls⟩ := first
      rw [hd] at step
      obtain ⟨⟨e', calls'⟩, he, hechoes, hcalls⟩ := step.exists_ok
      have hechoes : d'.Echoes (d.cleared again p) e' := hechoes
      have hsound := h.sound reachable.sound
      have hcount : d'.packetCount = d.packetCount + 1 := reachable.sound.packetCount_of_feed hd
      have hcount' : e'.packetCount = e.packetCount + 1 := hsound.packetCount_of_feed he
      obtain ⟨again', htally⟩ := ih d' calls hd (.feed reachable hd) (inSequence.2 _ _ hd)
        (recalls.feed reachable inSequence.1 hd) hechoes (by omega) (by omega)
      rw [he]
      refine ⟨again', ?_⟩
      show Agree _ ((d'.feedAll packets).value >>= _) ((e'.feedAll more).value >>= _)
      refine htally.bind fun x y hxy ↦ ⟨hxy.1, ?_⟩
      obtain rfl : calls' = calls := hcalls
      exact congrArg (calls' ++ ·) hxy.2
  | @twice latest d p packets more last payload known rest ih =>
    rw [List.length_cons] at room
    obtain ⟨f, hf, b, hechoes⟩ := h.repeated recalls reachable.sound last payload known
      (by omega)
    have hcount := (h.sound reachable.sound).packetCount_of_feed hf
    obtain ⟨again', htally⟩ := ih reachable inSequence (recalls.forget p.pid b) hechoes (by omega)
      (by omega)
    refine ⟨again', ?_⟩
    rw [feedAll, Traced.value_bind_of_ok hf, Traced.value_bind]
    show Agree _ _ ((f.feedAll more).value >>= pure)
    rw [bind_pure]
    exact htally

/-- A stream in sequence brings the same with repetitions as without: it ends in the same fault, or
leads to the same calls and leaves the same status, filter and handlers, and substreams that differ
at most in the memory of a repetition. -/
theorem Reachable.echoes_of_repeats {packets more : List Packet} (reachable : d.Reachable)
    (inSequence : InSequence packets d) (repeats : Repeats (fun _ ↦ none) d packets more)
    (room : d.packetCount + more.length < wordLimit) :
    ∃ again, Agree (fun x y ↦ x.1.Echoes again y.1 ∧ y.2 = x.2) (d.feedAll packets).value
      (d.feedAll more).value :=
  repeats.echoes reachable inSequence (fun _ _ last ↦ by cases last) (.refl d) (Nat.le_refl _) room

/-- Whether the packets announce no break, and each has the counter that is due after the packet
before it of the same substream. -/
def CountedUp : (Pid → Option ContinuityCounter) → List Packet → Prop
  | _, [] => True
  | last, p :: rest => p.breakSignalled = false ∧
      (∀ c, last p.pid = some c → p.counter = if p.layout.hasPayload then c.next else c) ∧
      CountedUp (Function.update last p.pid (some p.counter)) rest

theorem inSequence_of_countedUp {last : Pid → Option ContinuityCounter} {packets : List Packet}
    (reachable : d.Reachable) (counted : CountedUp last packets)
    (known : ∀ q sub, d.substreams.get? q = some sub → sub.reassembly.last = last q) :
    InSequence packets d := by
  induction packets generalizing d last with
  | nil => exact trivial
  | cons p rest ih =>
    obtain ⟨unbroken, due, counted⟩ := counted
    refine ⟨fun _ ↦ ⟨unbroken, fun c hc ↦ due c ?_⟩, fun e calls fed ↦
      ih (.feed reachable fed) counted fun q sub hsub ↦ ?_⟩
    · rw [substream] at hc
      cases hsub : d.substreams.get? p.pid with
      | none =>
        rw [hsub] at hc
        cases hc
      | some sub =>
        rw [hsub] at hc
        exact (known _ sub hsub).symm.trans hc
    · rcases known_of_feed reachable fed hsub with ⟨rfl, -, hnext⟩ | ⟨hq, hsub⟩
      · rw [hnext, Function.update_self]
        exact Reassembly.last_next p
      · rw [Function.update_of_ne hq]
        exact known q sub hsub

def halves : List Packet :=
  [.leading .pat (spread.take 183),
    (Packet.payloadOnly .pat ContinuityCounter.zero.next).withPayload (spread.drop 183)]

theorem Leads.isSome_get? (h : d.Leads p e calls) (filtered : e.hasPid p.pid = true) :
    (e.substreams.get? p.pid).isSome = true := by
  have hfiltered : d.hasPid p.pid = true := by
    rw [Demux.hasPid, ← h.filter]
    exact filtered
  have hown : e.substreams.get? p.pid = (d.watch p.pid [p]).1 := congrArg Prod.fst h.own
  rw [hown, watch, if_pos hfiltered]
  rfl

theorem Reachable.echoes_of_repeats_halves : ∃ again,
    Agree (fun x y ↦ x.1.Echoes again y.1 ∧ y.2 = x.2) (tabulator.feedAll halves).value
      (tabulator.feedAll [halves[0], halves[0], halves[1], halves[1]]).value := by
  have reachable : tabulator.Reachable := .setDelivery (.addPid (.start _ _) _) _
  have counted : CountedUp (fun _ ↦ none) halves :=
    ⟨by decide +kernel, nofun, by decide +kernel, by decide +kernel, trivial⟩
  have inSequence : InSequence halves tabulator :=
    inSequence_of_countedUp reachable counted fun _ _ known ↦ nomatch known
  refine reachable.echoes_of_repeats inSequence (.once fun d₁ calls fed ↦ ?_) (by decide +kernel)
  obtain ⟨quiet, leads⟩ := quiet_tabulator.feed reachable.settled fed
  refine .twice (Function.update_self ..) (by decide +kernel) leads.isSome_get? ?_
  refine .once fun d₂ more fed' ↦ ?_
  obtain ⟨-, leads'⟩ := quiet.feed (reachable.feed fed).settled fed'
  exact .twice (Function.update_self ..) (by decide +kernel) leads'.isSome_get? (.nil _ _)

/-- A packet that comes again brings its table again, if the handler has had its substream forgotten
in between. -/
theorem repeated_restarts : InSequence [.leading .pat (part 0 0 0).bytes] restarter ∧
    (Packet.leading .pat (part 0 0 0).bytes).layout.hasPayload = true ∧
    (restarter.feedAll [.leading .pat (part 0 0 0).bytes]).value.toOption.map
      (·.2.map (·.kind)) = some [.table] ∧
    (restarter.feedAll [.leading .pat (part 0 0 0).bytes,
      .leading .pat (part 0 0 0).bytes]).value.toOption.map (·.2.map (·.kind)) =
        some [.table, .table] := by
  have expected : restarter.Expects (.leading .pat (part 0 0 0).bytes) :=
    fun _ ↦ ⟨by decide +kernel, fun _ last ↦ nomatch last⟩
  exact ⟨⟨expected, fun _ _ _ ↦ trivial⟩, by decide +kernel, by decide +kernel, by decide +kernel⟩

end Demux

end TransportStream
