import TransportStream.Proofs.Demux.FilterChanges

namespace TransportStream.Demux

variable {σ τ : Type} {d d' e f : Demux σ} {pid : Pid} {p : Packet} {calls : List Call}

structure Deals (d : Demux σ) (p : Packet) (e : Demux σ) (calls : List Call) : Prop where
  setting : e.setting = d.setting
  known : ∀ q, e.substreams.get? q =
    if .remove q ∈ d.asked p then none
    else if q = p.pid ∧ d.hasPid p.pid = true then some (d.setting.take (d.substream q) p).1
    else d.substreams.get? q
  made : calls = if d.hasPid p.pid then (d.setting.take (d.substream p.pid) p).2 else []
  about : ∀ c ∈ calls, c.isOn p.pid = true

theorem Settled.deals (h : d.Settled) (fed : (d.feed p).value = .ok (e, calls)) :
    d.Deals p e calls := by
  obtain ⟨room, hfed⟩ := h.sound.feed_eq_ok_iff.1 fed
  split at hfed
  · next filtered =>
    obtain ⟨f, g, counted, handled, rfl⟩ := hfed
    have hcount := keeps_count counted
    have hpass := pass_of_handlePieces handled
    have hknown : f.substreams.get? p.pid =
        some ⟨((d.substream p.pid).reassembly.next p).1, (d.substream p.pid).tables⟩ := by
      rw [substreams_of_count counted, advanced, FiniteMap.get?_insert, if_pos rfl]
    have hsetting : f.setting = d.setting := hcount.setting
    obtain ⟨⟨hown, hcalls⟩, about⟩ :=
      dealt_of_handlePieces (h.moment.step (.take room filtered counted)) hknown handled
    rw [hsetting] at hown hcalls
    refine ⟨hpass.keeps.setting.trans hsetting, fun q ↦ ?_, ?_, about⟩
    · rw [get?_settle_eq, asked_eq filtered counted handled]
      simp only [FilterChange.any_removes_iff]
      congr 1
      by_cases hq : q = p.pid
      · subst hq
        rw [hown, if_pos ⟨rfl, filtered⟩]
        rfl
      · rw [if_neg fun h ↦ hq h.1, hpass.get?_of_ne hq, substreams_of_count counted, advanced,
          FiniteMap.get?_insert, if_neg hq]
    · rw [if_pos filtered, hcalls]
      rfl
  · next unfiltered =>
    obtain ⟨rfl, rfl⟩ := hfed
    refine ⟨rfl, fun q ↦ ?_, by rw [if_neg unfiltered], fun c hc ↦ by cases hc⟩
    rw [asked_of_not_filtered unfiltered, if_neg List.not_mem_nil, if_neg fun h ↦ unfiltered h.2]

theorem Deals.filter_calls (h : d.Deals p e calls) (pid : Pid) :
    calls.filter (·.isOn pid) =
      if p.pid = pid ∧ d.hasPid pid = true then (d.setting.take (d.substream pid) p).2 else [] := by
  by_cases hpid : p.pid = pid
  · subst hpid
    have hall : calls.filter (·.isOn p.pid) = calls := List.filter_eq_self.2 h.about
    rw [hall, h.made]
    simp
  · rw [if_neg fun h ↦ hpid h.1]
    refine List.filter_eq_nil_iff.2 fun c hc hon ↦ hpid ?_
    exact Call.eq_of_isOn (h.about c hc) hon

theorem Alike.take_eq {e : Demux τ} (h : d.Alike e pid) (p : Packet) :
    d.setting.take (d.substream pid) p = e.setting.take (e.substream pid) p := by
  unfold substream
  rw [h.setting, h.known]

theorem Alike.filter_calls {e e' : Demux τ} {calls' : List Call} (h : d.Alike e pid)
    (deals : d.Deals p d' calls) (deals' : e.Deals p e' calls') :
    calls.filter (·.isOn pid) = calls'.filter (·.isOn pid) := by
  rw [deals.filter_calls, deals'.filter_calls, h.take_eq, h.filtered]

theorem Alike.deals {e e' : Demux τ} {calls' : List Call} (h : d.Alike e pid)
    (deals : d.Deals p d' calls) (deals' : e.Deals p e' calls')
    (removed : .remove pid ∈ d.asked p ↔ .remove pid ∈ e.asked p)
    (filtered : d'.hasPid pid = e'.hasPid pid) : d'.Alike e' pid := by
  refine ⟨by rw [deals.setting, deals'.setting, h.setting], filtered, ?_⟩
  rw [deals.known, deals'.known, h.known, h.take_eq]
  by_cases hpid : p.pid = pid
  · subst hpid
    simp only [removed, h.filtered]
  · have hne : ¬ pid = p.pid := Ne.symm hpid
    simp only [removed, hne, false_and]

/-- Whether what the handlers ask for during these packets concerns a substream in the same way in
two demultiplexers. -/
def TreatAlike (pid : Pid) : List Packet → Demux σ → Demux τ → Prop
  | [], _, _ => True
  | p :: rest, d, e => ∀ d' calls e' calls', (d.feed p).value = .ok (d', calls) →
      (e.feed p).value = .ok (e', calls') →
      (.remove pid ∈ d.asked p ↔ .remove pid ∈ e.asked p) ∧ d'.hasPid pid = e'.hasPid pid ∧
      TreatAlike pid rest d' e'

theorem Alike.feedAll {e e' : Demux τ} {calls' : List Call} {packets : List Packet}
    (h : d.Alike e pid) (settled : d.Settled) (settled' : e.Settled)
    (treated : TreatAlike pid packets d e)
    (fed : (d.feedAll (packets ++ [p])).value = .ok (d', calls))
    (fed' : (e.feedAll (packets ++ [p])).value = .ok (e', calls')) :
    calls.filter (·.isOn pid) = calls'.filter (·.isOn pid) := by
  induction packets generalizing d e calls calls' with
  | nil =>
    rw [List.nil_append, feedAll] at fed fed'
    obtain ⟨⟨f, first⟩, hfirst, fed⟩ := Traced.value_bind_eq_ok_iff.1 fed
    obtain ⟨-, rfl⟩ := Prod.mk.inj (Except.ok.inj fed)
    obtain ⟨⟨f', first'⟩, hfirst', fed'⟩ := Traced.value_bind_eq_ok_iff.1 fed'
    obtain ⟨-, rfl⟩ := Prod.mk.inj (Except.ok.inj fed')
    rw [List.append_nil, List.append_nil]
    exact h.filter_calls (settled.deals hfirst) (settled'.deals hfirst')
  | cons q rest ih =>
    rw [List.cons_append] at fed fed'
    obtain ⟨f, first, others, hfirst, hrest, rfl⟩ := feedAll_cons_eq_ok_iff.1 fed
    obtain ⟨f', first', others', hfirst', hrest', rfl⟩ := feedAll_cons_eq_ok_iff.1 fed'
    obtain ⟨removed, filtered, treated⟩ := treated _ _ _ _ hfirst hfirst'
    have deals := settled.deals hfirst
    have deals' := settled'.deals hfirst'
    rw [List.filter_append, List.filter_append, h.filter_calls deals deals',
      ih (h.deals deals deals' removed filtered) (settled.feed hfirst) (settled'.feed hfirst')
        treated hrest hrest']

def restarter : Demux Unit :=
  tabulator.setDelivery (some (.tables fun state _ _ ↦
    { state, requests := [.remove .pat, .add .pat] }))

end TransportStream.Demux
