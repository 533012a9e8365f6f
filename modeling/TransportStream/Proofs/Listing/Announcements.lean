import TransportStream.Proofs.Demux.Capacity
import TransportStream.Proofs.Listing.Lines
import TransportStream.Section.Builder

namespace TransportStream

namespace DemuxView

variable (v : DemuxView)

theorem hasPid_request_add (p q : Pid) :
    (v.request (.add p)).hasPid q = (decide (p = q) || v.hasPid q) := by
  simp only [hasPid, requested?, request, List.reverse_append, List.reverse_singleton,
    List.singleton_append, List.findSome?_cons, FilterChange.decides?]
  by_cases h : p = q
  · simp only [if_pos h, decide_eq_true h, Bool.true_or, Option.getD_some]
  · simp only [if_neg h, decide_eq_false h, Bool.false_or]

theorem hasPid_append_add (pids : List Pid) (q : Pid) :
    { v with requests := v.requests ++ pids.map FilterChange.add }.hasPid q =
      (decide (q ∈ pids) || v.hasPid q) := by
  induction pids generalizing v with
  | nil => simp
  | cons p rest ih =>
    have hfirst := ih (v.request (.add p))
    rw [hasPid_request_add, ← Bool.or_assoc, ← Bool.decide_or] at hfirst
    simp only [request, List.append_assoc, List.singleton_append] at hfirst
    rw [List.map_cons, hfirst]
    simp only [List.mem_cons, or_comm, eq_comm]

theorem hasPid_of_no_requests (h : v.requests = []) (q : Pid) :
    v.hasPid q = v.filter.contains q := by
  rw [hasPid, requested?, h]
  rfl

theorem hasPid_settle (q : Pid) : v.settle.hasPid q = v.hasPid q := v.contains_settle q

end DemuxView

namespace TableListing

variable {v : DemuxView} {lines more : List String} {asked : List Pid}
  {d e d' : Demux (List String)} {calls others : List Call} {p : Packet} {pid q : Pid}

def Announced (lines : List String) (pid : Pid) : Prop := ∃ line ∈ lines, Announces line pid

def Unrepeated (lines : List String) : Prop :=
  lines.Pairwise fun line later ↦ ∀ pid, Announces line pid → ¬ Announces later pid

/-- Whether a table is a program association table with the substream as the map of a program. -/
def RefersTo (t : Table) (pid : Pid) : Prop :=
  t.tableId = 0 ∧ ∃ s ∈ t.sections, ∃ program, program ≠ 0 ∧ (program, pid) ∈ programs s.payload

theorem announced_append :
    Announced (lines ++ more) pid ↔ Announced lines pid ∨ Announced more pid := by
  simp only [Announced, List.mem_append, or_and_right, exists_or]

theorem announced_cons_other {line : String} (other : ∀ pid, ¬ Announces line pid) :
    Announced (line :: lines) pid ↔ Announced lines pid := by
  simp only [Announced, List.mem_cons, exists_eq_or_imp, other, false_or]

theorem announced_cons_announcement (program : Nat) :
    Announced (announcement program pid :: lines) q ↔ q = pid ∨ Announced lines q := by
  have hself : Announces (announcement program pid) q ↔ q = pid := by
    refine ⟨fun hq ↦ hq.eq ⟨program, rfl⟩, ?_⟩
    rintro rfl
    exact ⟨program, rfl⟩
  simp only [Announced, List.mem_cons, exists_eq_or_imp, hself]

/-- Lines that announce what is asked for, each once, and nothing that is in the filter already. -/
structure News (v : DemuxView) (lines : List String) (asked : List Pid) : Prop where
  mem_asked_iff : ∀ pid, pid ∈ asked ↔ Announced lines pid
  unknown : ∀ pid ∈ asked, v.hasPid pid = false
  unrepeated : Unrepeated lines

theorem News.nil (v : DemuxView) : News v [] [] where
  mem_asked_iff pid := by simp [Announced]
  unknown _ hp := absurd hp List.not_mem_nil
  unrepeated := .nil

theorem News.cons_other (h : News v lines asked) {line : String}
    (other : ∀ pid, ¬ Announces line pid) : News v (line :: lines) asked where
  mem_asked_iff pid := (h.mem_asked_iff pid).trans (announced_cons_other other).symm
  unknown := h.unknown
  unrepeated := .cons (fun _ _ pid hp ↦ absurd hp (other pid)) h.unrepeated

theorem News.cons_announcement (h : News (v.request (.add pid)) lines asked) (program : Nat)
    (unknown : v.hasPid pid = false) :
    News v (announcement program pid :: lines) (pid :: asked) := by
  have hrest : ∀ q ∈ asked, pid ≠ q ∧ v.hasPid q = false := by
    intro q hq
    have hq := h.unknown q hq
    rw [DemuxView.hasPid_request_add, Bool.or_eq_false_iff] at hq
    exact ⟨of_decide_eq_false hq.1, hq.2⟩
  refine ⟨fun q ↦ ?_, List.forall_mem_cons.2 ⟨unknown, fun q hq ↦ (hrest q hq).2⟩, ?_⟩
  · rw [announced_cons_announcement, List.mem_cons, h.mem_asked_iff]
  · refine .cons (fun line hl q hq hq' ↦ ?_) h.unrepeated
    have hself : q = pid := hq.eq ⟨program, rfl⟩
    exact (hrest q ((h.mem_asked_iff q).2 ⟨line, hl, hq'⟩)).1 hself.symm

theorem news_announce (v : DemuxView) (entries : List (Nat × Pid)) : ∃ asked,
    (announce v entries).2 = asked.map FilterChange.add ∧ News v (announce v entries).1 asked ∧
    ∀ program pid, program ≠ 0 → (program, pid) ∈ entries →
      pid ∈ asked ∨ v.hasPid pid = true := by
  induction entries generalizing v with
  | nil => exact ⟨[], rfl, .nil v, fun _ _ _ he ↦ absurd he List.not_mem_nil⟩
  | cons entry rest ih =>
    obtain ⟨program, pid⟩ := entry
    by_cases hnew : program ≠ 0 ∧ !v.hasPid pid
    · obtain ⟨asked, hchanges, hnews, hall⟩ := ih (v.request (.add pid))
      rw [announce, if_pos hnew]
      refine ⟨pid :: asked, congrArg (.add pid :: ·) hchanges,
        hnews.cons_announcement program (by simpa using hnew.2), fun program' q hne he ↦ ?_⟩
      rcases List.mem_cons.1 he with he | he
      · obtain ⟨-, rfl⟩ := Prod.mk.inj he
        exact .inl (List.mem_cons_self ..)
      · rcases hall program' q hne he with hasked | hknown
        · exact .inl (List.mem_cons_of_mem _ hasked)
        · rw [DemuxView.hasPid_request_add, Bool.or_eq_true, decide_eq_true_eq] at hknown
          exact hknown.imp_left fun heq ↦ List.mem_cons.2 (.inl heq.symm)
    · obtain ⟨asked, hchanges, hnews, hall⟩ := ih v
      rw [announce, if_neg hnew]
      refine ⟨asked, hchanges, hnews, fun program' q hne he ↦ ?_⟩
      rcases List.mem_cons.1 he with he | he
      · obtain ⟨rfl, rfl⟩ := Prod.mk.inj he
        exact .inr (by simpa [hne] using hnew)
      · exact hall program' q hne he

/-- What the handlers of the printer answer to a call: they add news to the lines, and after a
program association table the filter has all the maps in it. -/
structure Answers (v : DemuxView) (state : List String) (c : Call)
    (response : Response (List String)) (lines : List String) (asked : List Pid) : Prop where
  state : response.state = state ++ lines
  requests : response.requests = asked.map FilterChange.add
  news : News v lines asked
  complete : ∀ t pid, c = .table t → RefersTo t pid → pid ∈ asked ∨ v.hasPid pid = true

theorem exists_answers {state : List String} {c : Call} {response : Response (List String)}
    (hd : d.delivery = demultiplexer.delivery)
    (hi : d.invalidHandler = demultiplexer.invalidHandler)
    (answer : d.response? state v c = some response) :
    ∃ lines asked, Answers v state c response lines asked := by
  cases c with
  | table t =>
    simp only [Demux.response?, hd] at answer
    obtain rfl := Option.some.inj answer
    unfold printTable
    split
    · obtain ⟨asked, hchanges, hnews, hall⟩ :=
        news_announce v (t.sections.flatMap fun s ↦ programs s.payload)
      refine ⟨_, asked, rfl, hchanges, hnews.cons_other (not_announces_headline t), ?_⟩
      rintro _ pid ⟨rfl⟩ ⟨-, s, hs, program, hne, he⟩
      exact hall program pid hne (List.mem_flatMap.2 ⟨s, hs, he⟩)
    · next hother =>
      refine ⟨_, [], rfl, rfl, (News.nil v).cons_other (not_announces_headline t), ?_⟩
      rintro _ pid ⟨rfl⟩ ⟨hid, -⟩
      exact absurd hid hother
  | sect s =>
    simp only [Demux.response?, hd] at answer
    cases answer
  | invalid data =>
    simp only [Demux.response?, hi] at answer
    obtain rfl := Option.some.inj answer
    exact ⟨_, [], rfl, rfl, (News.nil v).cons_other (not_announces_invalid data),
      fun _ _ hc ↦ by cases hc⟩

structure Tracks (d : Demux (List String)) : Prop where
  delivery : d.delivery = demultiplexer.delivery
  invalidHandler : d.invalidHandler = demultiplexer.invalidHandler
  hasPid_iff : ∀ pid, d.view.hasPid pid = true ↔ pid = .pat ∨ Announced d.handlerState pid
  other : ¬ Announced d.handlerState .pat
  unrepeated : Unrepeated d.handlerState

theorem tracks_demultiplexer : Tracks demultiplexer where
  delivery := rfl
  invalidHandler := rfl
  hasPid_iff pid := by
    rw [DemuxView.hasPid_of_no_requests _ rfl]
    show (PidSet.empty.insert .pat).contains pid = true ↔ pid = .pat ∨ Announced [] pid
    simp [PidSet.contains_insert, Announced]
  other := by simp [demultiplexer, Demux.addPid, Demux.withFilter, Announced]
  unrepeated := .nil

/-- What calls bring the demultiplexer to: lines stay, and the filter has what the tables refer
to. -/
structure Proceeds (d : Demux (List String)) (calls : List Call) (d' : Demux (List String)) :
    Prop where
  tracks : Tracks d'
  lines : d.handlerState <+: d'.handlerState
  complete : ∀ t pid, .table t ∈ calls → RefersTo t pid → d'.view.hasPid pid = true

theorem Tracks.proceeds (h : Tracks d) : Proceeds d [] d :=
  ⟨h, List.prefix_rfl, fun _ _ hc ↦ absurd hc List.not_mem_nil⟩

theorem Tracks.hasPid_of_prefix (h : Tracks d) (h' : Tracks d')
    (hlines : d.handlerState <+: d'.handlerState) (hpid : d.view.hasPid pid = true) :
    d'.view.hasPid pid = true := by
  refine (h'.hasPid_iff pid).2 (((h.hasPid_iff pid).1 hpid).imp_right ?_)
  exact fun ⟨line, hl, hp⟩ ↦ ⟨line, hlines.subset hl, hp⟩

theorem Proceeds.trans (h : Proceeds d calls e) (h' : Proceeds e others d') :
    Proceeds d (calls ++ others) d' where
  tracks := h'.tracks
  lines := h.lines.trans h'.lines
  complete t pid hc href := by
    rcases List.mem_append.1 hc with hc | hc
    · exact h.tracks.hasPid_of_prefix h'.tracks h'.lines (h.complete t pid hc href)
    · exact h'.complete t pid hc href

namespace Tracks

theorem answered (h : Tracks d) {c : Call} {response : Response (List String)}
    (answers : Answers d.view d.handlerState c response lines asked) :
    Proceeds d [c] (d.answered response) := by
  have hview (q : Pid) : (d.answered response).view.hasPid q = true ↔
      q ∈ asked ∨ d.view.hasPid q = true := by
    rw [← decide_eq_true_eq (p := q ∈ asked), ← Bool.or_eq_true, ← DemuxView.hasPid_append_add,
      ← answers.requests]
    rfl
  have hknown {q : Pid} (hq : d.view.hasPid q = true) : q ∉ asked := fun hasked ↦ by
    rw [answers.news.unknown q hasked] at hq
    cases hq
  have hlines : (d.answered response).handlerState = d.handlerState ++ lines := answers.state
  refine ⟨⟨h.delivery, h.invalidHandler, fun q ↦ ?_, ?_, ?_⟩, ?_, fun t q hc href ↦ ?_⟩
  · rw [hview, hlines, announced_append, h.hasPid_iff, answers.news.mem_asked_iff, or_comm,
      or_assoc]
  · rw [hlines, announced_append, ← answers.news.mem_asked_iff]
    exact not_or.2 ⟨h.other, hknown ((h.hasPid_iff .pat).2 (.inl rfl))⟩
  · rw [hlines]
    refine List.pairwise_append.2 ⟨h.unrepeated, answers.news.unrepeated, ?_⟩
    intro line hl later hl' q hq hq'
    exact hknown ((h.hasPid_iff q).2 (.inr ⟨line, hl, hq⟩))
      ((answers.news.mem_asked_iff q).2 ⟨later, hl', hq'⟩)
  · exact hlines ▸ List.prefix_append _ _
  · exact (hview q).2 (answers.complete t q (List.mem_singleton.1 hc).symm href)

theorem pass (h : Tracks d) (work : Demux.Pass pid d calls d') : Proceeds d calls d' := by
  induction work with
  | done => exact h.proceeds
  | count counted _ ih =>
    obtain ⟨status, -, rfl⟩ := Demux.count_eq_ok_iff.1 counted
    obtain ⟨htracks, hlines, hcomplete⟩ :=
      ih ⟨h.delivery, h.invalidHandler, h.hasPid_iff, h.other, h.unrepeated⟩
    exact ⟨htracks, hlines, hcomplete⟩
  | store known _ ih =>
    obtain ⟨htracks, hlines, hcomplete⟩ :=
      ih ⟨h.delivery, h.invalidHandler, h.hasPid_iff, h.other, h.unrepeated⟩
    exact ⟨htracks, hlines, hcomplete⟩
  | call answer _ _ ih =>
    obtain ⟨lines, asked, answers⟩ := exists_answers h.delivery h.invalidHandler answer
    have hfirst := h.answered answers
    exact hfirst.trans (ih hfirst.tracks)

theorem settle (h : Tracks d) : Tracks d.settle where
  delivery := h.delivery
  invalidHandler := h.invalidHandler
  hasPid_iff q := by
    have hview : d.settle.view.hasPid q = d.view.hasPid q := d.view.hasPid_settle q
    rw [hview]
    exact h.hasPid_iff q
  other := h.other
  unrepeated := h.unrepeated

theorem feed (h : Tracks d) (sound : d.Sound) (fed : (d.feed p).value = .ok (d', calls)) :
    Proceeds d calls d' := by
  obtain ⟨-, hfed⟩ := sound.feed_eq_ok_iff.1 fed
  split at hfed
  · obtain ⟨e, f, counted, handled, rfl⟩ := hfed
    obtain ⟨status, -, rfl⟩ := Demux.count_eq_ok_iff.1 counted
    have htaken : Tracks ((d.advanced p).withStatus status) :=
      ⟨h.delivery, h.invalidHandler, h.hasPid_iff, h.other, h.unrepeated⟩
    obtain ⟨htracks, hlines, hcomplete⟩ := htaken.pass (Demux.pass_of_handlePieces handled)
    exact ⟨htracks.settle, hlines, fun t q hc href ↦
      (f.view.hasPid_settle q).trans (hcomplete t q hc href)⟩
  · obtain ⟨rfl, rfl⟩ := hfed
    exact ⟨⟨h.delivery, h.invalidHandler, h.hasPid_iff, h.other, h.unrepeated⟩, List.prefix_rfl,
      h.proceeds.complete⟩

theorem feedAll {packets : List Packet} (h : Tracks d) (sound : d.Sound)
    (fed : (d.feedAll packets).value = .ok (d', calls)) : Proceeds d calls d' := by
  induction packets generalizing d calls with
  | nil =>
    cases fed
    exact h.proceeds
  | cons p rest ih =>
    obtain ⟨e, first, others, he, hf, rfl⟩ := Demux.feedAll_cons_eq_ok_iff.1 fed
    have hfirst := h.feed sound he
    exact hfirst.trans (ih hfirst.tracks (sound.feed he) hf)

end Tracks

theorem reachable_demultiplexer : demultiplexer.Reachable :=
  .addPid (.setInvalidHandler (.setDelivery (.start {} []) _) _) .pat

theorem exists_feedAll {packets : List Packet} (room : packets.length * Demux.rise < wordLimit) :
    ∃ d calls, (demultiplexer.feedAll packets).value = .ok (d, calls) := by
  refine reachable_demultiplexer.exists_feedAll ⟨?_, fun q ↦ ?_⟩
  · have hrise : Demux.rise = 189 := rfl
    rw [hrise] at room
    show 0 + packets.length < wordLimit
    omega
  · have hzero : demultiplexer.status.get q = 0 := by cases q <;> rfl
    rwa [hzero, Nat.zero_add]

/-- Whatever stream the printer demultiplexes, no substream is announced twice. All the maps that
the tables refer to are announced, but for one on the substream of the program association table,
which never is. Before each packet, and at the end, the filter has that substream and those
announced by then, and no others. A stream is demultiplexed to its end if its packets are not so
many that a counter could overflow. -/
theorem unrepeated_feedAll (packets : List Packet) :
    (packets.length * Demux.rise < wordLimit →
      ∃ d calls, (demultiplexer.feedAll packets).value = .ok (d, calls)) ∧
    ∀ d calls, (demultiplexer.feedAll packets).value = .ok (d, calls) →
      Unrepeated d.handlerState ∧ ¬ Announced d.handlerState .pat ∧
      (∀ t pid, .table t ∈ calls → RefersTo t pid → pid = .pat ∨ Announced d.handlerState pid) ∧
      ∀ before after, before ++ after = packets → ∃ e calls',
        (demultiplexer.feedAll before).value = .ok (e, calls') ∧
        e.handlerState <+: d.handlerState ∧
        ∀ pid, e.hasPid pid = true ↔ pid = .pat ∨ Announced e.handlerState pid := by
  refine ⟨exists_feedAll, fun d calls hd ↦ ?_⟩
  have hrun := tracks_demultiplexer.feedAll reachable_demultiplexer.sound hd
  refine ⟨hrun.tracks.unrepeated, hrun.tracks.other, fun t pid hc href ↦
    (hrun.tracks.hasPid_iff pid).1 (hrun.complete t pid hc href), ?_⟩
  rintro before after rfl
  obtain ⟨e, first, more, he, hf, -⟩ := Demux.feedAll_append_eq_ok_iff.1 hd
  have hsound := (reachable_demultiplexer.feedAll he).sound
  have hbefore := tracks_demultiplexer.feedAll reachable_demultiplexer.sound he
  refine ⟨e, first, he, (hbefore.tracks.feedAll hsound hf).lines, fun pid ↦ ?_⟩
  -- between packets no request is open, so that the filter is what handlers are shown
  rw [← hbefore.tracks.hasPid_iff pid, DemuxView.hasPid_of_no_requests _ hsound.requests]
  rfl

def sampleTable (version : Nat) (entries : Bytes) : Bytes :=
  Section.LongHeader.encode ⟨0, false, 1, version, .current, 0, 0⟩ entries

def samplePacket : Packet :=
  .leading .pat (sampleTable 0 [0, 1, 0xe1, 0, 0, 2, 0xe1, 0, 0, 3, 0xe0, 0])

def sampleUpdate : Packet :=
  (Packet.leading .pat (sampleTable 1 [0, 4, 0xe1, 1, 0, 5, 0xe1, 0])).setCounter { val := 1 }

theorem unrepeated_feedAll_update : ∃ d calls e calls',
    (demultiplexer.feedAll [samplePacket, sampleUpdate]).value = .ok (d, calls) ∧
    d.handlerState =
      ["Some(Pid(0000)) table_id=0x00 ext=Some(1) version=0 sections=1 size=24",
        announcement 1 { val := 0x100 },
        "Some(Pid(0000)) table_id=0x00 ext=Some(1) version=1 sections=1 size=20",
        announcement 4 { val := 0x101 }] ∧
    Unrepeated d.handlerState ∧
    (demultiplexer.feedAll [samplePacket]).value = .ok (e, calls') ∧
    e.handlerState <+: d.handlerState ∧ e.hasPid { val := 0x100 } = true := by
  obtain ⟨total, holds⟩ := unrepeated_feedAll [samplePacket, sampleUpdate]
  obtain ⟨d, calls, hd⟩ := total (by decide)
  obtain ⟨unrepeated, -, -, parts⟩ := holds d calls hd
  obtain ⟨e, calls', he, hprefix, hfilter⟩ := parts [samplePacket] [sampleUpdate] rfl
  have hlines : (demultiplexer.feedAll [samplePacket, sampleUpdate]).value.toOption.map
      (·.1.handlerState) = some
      ["Some(Pid(0000)) table_id=0x00 ext=Some(1) version=0 sections=1 size=24",
        announcement 1 { val := 0x100 },
        "Some(Pid(0000)) table_id=0x00 ext=Some(1) version=1 sections=1 size=20",
        announcement 4 { val := 0x101 }] := by
    decide +kernel
  have hfirst : (demultiplexer.feedAll [samplePacket]).value.toOption.map
      (·.1.handlerState[1]?) = some (some (announcement 1 { val := 0x100 })) := by
    decide +kernel
  rw [hd] at hlines
  rw [he] at hfirst
  exact ⟨d, calls, e, calls', hd, Option.some.inj hlines, unrepeated, he, hprefix,
    (hfilter _).2 (.inr ⟨_, List.mem_of_getElem? (Option.some.inj hfirst), 1, rfl⟩)⟩

end TableListing

end TransportStream
