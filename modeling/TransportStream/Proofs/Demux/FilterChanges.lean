import TransportStream.Proofs.Demux.Reception

namespace TransportStream

namespace FilterChange

theorem any_removes_iff {requests : List FilterChange} {pid : Pid} :
    requests.any (removes pid) = true ↔ remove pid ∈ requests := by
  simp [removes, List.any_eq_true]

end FilterChange

theorem DemuxView.hasPid_of_not_removed {v : DemuxView} {pid : Pid}
    (kept : .remove pid ∉ v.requests) (filtered : v.filter.contains pid = true) :
    v.hasPid pid = true := by
  unfold hasPid requested?
  cases hlast : v.requests.reverse.findSome? (FilterChange.decides? pid) with
  | none => exact filtered
  | some stays =>
    obtain ⟨c, hc, hdecides⟩ := List.exists_of_findSome?_eq_some hlast
    cases c with
    | add q =>
      simp only [FilterChange.decides?, Option.ite_none_right_eq_some, Option.some.injEq]
        at hdecides
      exact hdecides.2.symm
    | remove q =>
      simp only [FilterChange.decides?, Option.ite_none_right_eq_some] at hdecides
      exact absurd (List.mem_reverse.1 (hdecides.1 ▸ hc)) kept

namespace Demux

variable {σ : Type} {d e f : Demux σ} {pid : Pid} {p : Packet} {calls : List Call}
  {entry : Option Packet}

/-- The work on the pieces of a packet, by the calls made and the answers to them. -/
inductive Exchange (pid : Pid) : Demux σ → List (Call × Response σ) → Demux σ → Prop
  | done (d : Demux σ) : Exchange pid d [] d
  | between {d e f : Demux σ} {answers : List (Call × Response σ)} (work : Pass pid d [] e)
      (rest : Exchange pid e answers f) : Exchange pid d answers f
  | call {d f : Demux σ} {c : Call} {response : Response σ} {answers : List (Call × Response σ)}
      (answer : d.response? d.handlerState d.view c = some response)
      (rest : Exchange pid (d.answered response) answers f) :
      Exchange pid d ((c, response) :: answers) f

def requestsOf (answers : List (Call × Response σ)) : List FilterChange :=
  answers.flatMap (·.2.requests)

theorem Pass.requests_of_no_calls (h : Pass pid d [] f) : f.view.requests = d.view.requests := by
  generalize hcalls : ([] : List Call) = calls at h
  induction h with
  | done => rfl
  | count counted _ ih =>
    obtain ⟨status, -, rfl⟩ := count_eq_ok_iff.1 counted
    exact ih hcalls
  | store _ _ ih => exact ih hcalls
  | call => cases hcalls

namespace Exchange

variable {answers before after : List (Call × Response σ)} {x : Call × Response σ}

theorem filter (h : Exchange pid d answers f) : f.filter = d.filter := by
  induction h with
  | done => rfl
  | between work _ ih => exact ih.trans work.keeps.filter
  | call _ _ ih => exact ih

theorem requests (h : Exchange pid d answers f) :
    f.view.requests = d.view.requests ++ requestsOf answers := by
  induction h with
  | done => exact (List.append_nil _).symm
  | between work _ ih => rw [ih, work.requests_of_no_calls]
  | @call d f c response answers _ _ ih =>
    rw [ih, requestsOf, requestsOf, List.flatMap_cons, ← List.append_assoc]
    rfl

theorem split (h : Exchange pid d (before ++ x :: after) f) : ∃ m, Exchange pid d before m ∧
    m.response? m.handlerState m.view x.1 = some x.2 ∧ Exchange pid (m.answered x.2) after f := by
  generalize hall : before ++ x :: after = answers at h
  induction h generalizing before with
  | done => cases before <;> cases hall
  | between work _ ih =>
    obtain ⟨m, hbefore, hanswer, hafter⟩ := ih hall
    exact ⟨m, .between work hbefore, hanswer, hafter⟩
  | @call d f c response answers answer rest ih =>
    cases before with
    | nil =>
      obtain ⟨rfl, rfl⟩ := List.cons.inj hall
      exact ⟨d, .done d, answer, rest⟩
    | cons y before =>
      obtain ⟨rfl, hrest⟩ := List.cons.inj hall
      obtain ⟨m, hbefore, hanswer, hafter⟩ := ih hrest
      exact ⟨m, .call answer hbefore, hanswer, hafter⟩

end Exchange

theorem hasPid_settle (f : Demux σ) (q : Pid) : f.settle.hasPid q = f.view.hasPid q :=
  f.view.contains_settle q

/-- What the handlers ask for while a packet is dealt with. -/
def asked (d : Demux σ) (p : Packet) : List FilterChange :=
  if d.hasPid p.pid then (d.work p).toOption.elim [] (·.1.view.requests) else []

theorem asked_eq {g : Demux σ} (filtered : d.hasPid p.pid = true)
    (counted : (d.advanced p).count (d.findings p).problems = .ok f)
    (handled : (f.handlePieces p.pid (d.findings p).pieces).value = .ok (g, calls)) :
    d.asked p = g.view.requests := by
  obtain ⟨handlings, hwork, -⟩ := exists_handlings handled
  have hall : d.work p = .ok (g, handlings) := bind_eq_ok_iff.2 ⟨f, counted, hwork⟩
  rw [asked, if_pos filtered, hall]
  rfl

theorem asked_of_not_filtered (unfiltered : ¬ d.hasPid p.pid = true) : d.asked p = [] :=
  if_neg unfiltered

/-- The work on a packet of a substream in the filter, until it is settled: what the packet brings
is staged, and then handed over. -/
structure Works (d : Demux σ) (p : Packet) (f : Demux σ) (answers : List (Call × Response σ))
    (g : Demux σ) : Prop where
  staged : (({ d with packetCount := d.packetCount + 1 } : Demux σ).stage p).value =
    .ok { f with staged := d.stagedBy p }
  emptied : f.staged = []
  dispatched : (({ f with staged := d.stagedBy p } : Demux σ).dispatch p.pid).value =
    .ok (g, answers.map (·.1))
  exchange : Exchange p.pid f answers g

namespace Works

variable {g : Demux σ} {answers before after : List (Call × Response σ)} {x : Call × Response σ}

theorem counted (h : d.Works p f answers g) (sound : d.Sound) :
    (d.advanced p).count (d.findings p).problems = .ok f := by
  have hstaged := (sound.value_stage p).symm.trans h.staged
  obtain ⟨e, he, hall⟩ := bind_eq_ok_iff.1 hstaged
  have hsame : ({ e with staged := [] } : Demux σ) = { f with staged := [] } :=
    congrArg (fun x : Demux σ ↦ { x with staged := [] }) (Except.ok.inj hall)
  have hidle := (sound.staged_of_counted he).1
  rw [withStaged_nil hidle, withStaged_nil h.emptied] at hsame
  exact hsame ▸ he

theorem stagedBy_eq (h : d.Works p f answers g) (sound : d.Sound) :
    d.stagedBy p = (d.findings p).pieces.map (.ofPiece f.options.checksums p.pid) :=
  (sound.staged_of_counted (h.counted sound)).2

theorem handled (h : d.Works p f answers g) (sound : d.Sound) :
    (f.handlePieces p.pid (d.findings p).pieces).value = .ok (g, answers.map (·.1)) :=
  (value_dispatch h.emptied (h.stagedBy_eq sound)).symm.trans h.dispatched

theorem requests_before (h : d.Works p f answers g) (sound : d.Sound) : f.view.requests = [] := by
  obtain ⟨status, -, rfl⟩ := count_eq_ok_iff.1 (h.counted sound)
  exact sound.requests

theorem requests (h : d.Works p f answers g) (sound : d.Sound) :
    g.view.requests = requestsOf answers := by
  rw [h.exchange.requests, h.requests_before sound, List.nil_append]

end Works

def KnowsFiltered (d : Demux σ) : Prop :=
  ∀ pid, (d.substreams.get? pid).isSome = true → d.hasPid pid = true

theorem KnowsFiltered.of_same (h : d.KnowsFiltered) (substreams : e.substreams = d.substreams)
    (filter : e.filter = d.filter) : e.KnowsFiltered := by
  intro pid known
  rw [substreams] at known
  rw [hasPid, filter]
  exact h pid known

theorem KnowsFiltered.settle (h : f.KnowsFiltered) : f.settle.KnowsFiltered := by
  intro q known
  rw [get?_settle_eq] at known
  split at known
  · cases known
  · next kept =>
    rw [hasPid_settle]
    refine DemuxView.hasPid_of_not_removed (fun removed ↦ ?_) (h q known)
    exact kept (FilterChange.any_removes_iff.2 removed)

theorem KnowsFiltered.of_keeps (h : d.KnowsFiltered) (keeps : Keeps d e) : e.KnowsFiltered := by
  intro q known
  have hsame := congrArg Option.isSome (keeps.reassembly q)
  rw [Option.isSome_map, Option.isSome_map] at hsame
  rw [hasPid, keeps.filter]
  exact h q (hsame.symm.trans known)

theorem KnowsFiltered.advanced (h : d.KnowsFiltered) (filtered : d.hasPid p.pid = true) :
    (d.advanced p).KnowsFiltered := by
  intro q known
  rw [Demux.advanced, FiniteMap.get?_insert] at known
  split at known
  · next hq => exact hq ▸ filtered
  · exact h q known

theorem KnowsFiltered.feed (h : d.KnowsFiltered) (sound : d.Sound)
    (fed : (d.feed p).value = .ok (e, calls)) : e.KnowsFiltered := by
  obtain ⟨-, hfed⟩ := sound.feed_eq_ok_iff.1 fed
  split at hfed
  · next filtered =>
    obtain ⟨f, g, counted, handled, rfl⟩ := hfed
    have hkeeps := (keeps_count counted).trans (pass_of_handlePieces handled).keeps
    exact ((h.advanced filtered).of_keeps hkeeps).settle
  · obtain ⟨rfl, -⟩ := hfed
    exact h.of_same rfl rfl

theorem KnowsFiltered.accept (h : d.KnowsFiltered) (sound : d.Sound)
    (accepted : d.accept entry = .ok (e, calls)) : e.KnowsFiltered := by
  cases entry with
  | none =>
    obtain ⟨f, counted, hf⟩ := bind_eq_ok_iff.1 accepted
    obtain ⟨rfl, -⟩ := Prod.mk.inj (Except.ok.inj hf)
    exact h.of_keeps (keeps_count counted)
  | some p => exact h.feed sound accepted

theorem KnowsFiltered.acceptAll {entries : List (Option Packet)} (h : d.KnowsFiltered)
    (settled : d.Settled) (accepted : d.acceptAll entries = .ok (e, calls)) :
    e.KnowsFiltered := by
  induction entries generalizing d calls with
  | nil =>
    obtain ⟨rfl, -⟩ := Prod.mk.inj (Except.ok.inj accepted)
    exact h
  | cons entry rest ih =>
    obtain ⟨⟨f, first⟩, hfirst, accepted⟩ := bind_eq_ok_iff.1 accepted
    obtain ⟨⟨g, others⟩, hrest, accepted⟩ := bind_eq_ok_iff.1 accepted
    obtain ⟨rfl, -⟩ := Prod.mk.inj (Except.ok.inj accepted)
    exact ih (h.accept settled.sound hfirst) (settled.accept hfirst) hrest

theorem Reachable.knowsFiltered (h : d.Reachable) : d.KnowsFiltered := by
  induction h with
  | start options state => exact fun pid known ↦ by cases known
  | feed before fed ih => exact ih.feed before.sound fed
  | push before pushed ih =>
    exact ih.acceptAll before.settled ((value_push _ _).symm.trans pushed)
  | @addPid d _ pid ih =>
    intro q known
    have hadded : (d.filter.insert pid).contains q = true := by
      rw [PidSet.contains_insert, Bool.or_eq_true]
      exact .inr (ih q known)
    exact hadded
  | @removePid d _ pid ih =>
    intro q known
    rw [Demux.removePid, FiniteMap.get?_erase] at known
    split at known
    · cases known
    · next hq =>
      have hleft : (d.filter.erase pid).contains q = true := by
        rw [PidSet.contains_erase, Bool.and_eq_true]
        exact ⟨by simpa using hq, ih q known⟩
      exact hleft
  | @setFilter d _ filter ih =>
    intro q known
    rw [Demux.setFilter, FiniteMap.get?_filterKeys] at known
    split at known
    · next hq => exact hq
    · cases known
  | reset _ _ => exact fun pid known ↦ by cases known
  | @resetPid d _ pid ih =>
    intro q known
    rw [Demux.resetPid, FiniteMap.get?_erase] at known
    split at known
    · cases known
    · exact ih q known
  | resetStatus _ ih => exact ih.of_same rfl rfl
  | setOptions _ _ ih => exact ih.of_same rfl rfl
  | setDelivery _ _ ih => exact ih.of_same rfl rfl
  | setInvalidHandler _ _ ih => exact ih.of_same rfl rfl
  | setHandlerState _ _ ih => exact ih.of_same rfl rfl

end Demux

end TransportStream
