import TransportStream.Proofs.Demux.Reassembly

namespace TransportStream

def Packet.sectionData (p : Packet) : Bytes :=
  if p.unitStart then (p.content.getD []).drop 1 else p.content.getD []

def sectionStream (packets : List Packet) : Bytes := packets.flatMap Packet.sectionData

def Carried (packets : List Packet) (data : Bytes) : Prop :=
  ∃ used, used.Sublist packets ∧ data <:+: sectionStream used

def Ending (packets : List Packet) (data : Bytes) : Prop :=
  ∃ used, used.Sublist packets ∧ data <:+ sectionStream used

theorem sectionStream_append_singleton (packets : List Packet) (p : Packet) :
    sectionStream (packets ++ [p]) = sectionStream packets ++ p.sectionData := by
  simp [sectionStream]

theorem Carried.append {packets : List Packet} {data : Bytes} (h : Carried packets data)
    (more : List Packet) : Carried (packets ++ more) data := by
  obtain ⟨used, hused, hdata⟩ := h
  exact ⟨used, hused.trans (List.sublist_append_left _ _), hdata⟩

namespace Ending

variable {packets : List Packet} {data : Bytes} {p : Packet}

theorem nil (packets : List Packet) : Ending packets [] :=
  ⟨[], List.nil_sublist _, List.nil_suffix⟩

theorem skip (h : Ending packets data) (p : Packet) : Ending (packets ++ [p]) data := by
  obtain ⟨used, hused, hdata⟩ := h
  exact ⟨used, hused.trans (List.sublist_append_left _ _), hdata⟩

theorem take (h : Ending packets data) (p : Packet) :
    Ending (packets ++ [p]) (data ++ p.sectionData) := by
  obtain ⟨used, hused, front, hfront⟩ := h
  refine ⟨used ++ [p], hused.append (List.Sublist.refl _), front, ?_⟩
  rw [sectionStream_append_singleton, ← hfront, List.append_assoc]

theorem of_suffix {rest : Bytes} (h : Ending packets data) (hs : rest <:+ data) :
    Ending packets rest := by
  obtain ⟨used, hused, hdata⟩ := h
  exact ⟨used, hused, hs.trans hdata⟩

theorem carried {piece : Bytes} (h : Ending packets data) (hs : piece <:+: data) :
    Carried packets piece := by
  obtain ⟨used, hused, hdata⟩ := h
  exact ⟨used, hused, hs.trans hdata.isInfix⟩

end Ending

namespace Reassembly

variable {r : Reassembly} {packets : List Packet} {p : Packet}

theorem mem_pieces_finished {tail piece : Bytes} (h : piece ∈ (r.finished tail).pieces) :
    piece <:+: r.buffer ++ tail := by
  unfold finished at h
  split at h
  · cases h
  · dsimp only at h
    split at h
    · exact Extraction.infix_of_mem_pieces h
    · exact Extraction.infix_of_mem_pieces h

theorem ending_started {payload : Bytes} (h : Ending packets r.buffer)
    (content : p.content = some payload) (start : p.unitStart = true) :
    Ending (packets ++ [p]) (r.started payload).1.buffer ∧
      ∀ piece ∈ (r.started payload).2.pieces, Carried (packets ++ [p]) piece := by
  have hdata : p.sectionData = payload.drop 1 := by
    rw [Packet.sectionData, if_pos start, content]
    rfl
  have hwhole := h.take p
  rw [hdata] at hwhole
  -- Up to the pointer the bytes end what is in the buffer, and from there on they start anew.
  have hrest : (payload.drop 1).drop (payload.headD 0).toNat <:+ r.buffer ++ payload.drop 1 :=
    (List.drop_suffix _ _).trans (List.suffix_append _ _)
  unfold started
  dsimp only
  split
  · exact ⟨.nil _, nofun⟩
  · refine ⟨hwhole.of_suffix ((Extraction.suffix_pending _).trans hrest), fun piece hp ↦ ?_⟩
    rcases List.mem_append.1 hp with hp | hp
    · refine hwhole.carried ((mem_pieces_finished hp).trans ?_)
      exact ((List.prefix_append_right_inj _).2 (List.take_prefix _ _)).isInfix
    · exact hwhole.carried ((Extraction.infix_of_mem_pieces hp).trans hrest.isInfix)

theorem ending_continued {payload : Bytes} (h : Ending packets r.buffer)
    (content : p.content = some payload) (start : p.unitStart = false) :
    Ending (packets ++ [p]) (r.continued payload).1.buffer ∧
      ∀ piece ∈ (r.continued payload).2.pieces, Carried (packets ++ [p]) piece := by
  have hdata : p.sectionData = payload := by
    rw [Packet.sectionData, start, content]
    rfl
  have hwhole := h.take p
  rw [hdata] at hwhole
  unfold continued
  split
  · exact ⟨h.skip p, nofun⟩
  · exact ⟨hwhole.of_suffix (Extraction.suffix_pending _),
      fun piece hp ↦ hwhole.carried (Extraction.infix_of_mem_pieces hp)⟩

theorem ending_absorbed (h : Ending packets r.buffer) (p : Packet) :
    Ending (packets ++ [p]) (r.absorbed p).1.buffer ∧
      ∀ piece ∈ (r.absorbed p).2.pieces, Carried (packets ++ [p]) piece := by
  unfold absorbed
  split
  · exact ⟨.nil _, nofun⟩
  · cases content : p.content with
    | none => exact ⟨h.skip p, nofun⟩
    | some payload =>
      cases start : p.unitStart with
      | true => exact ending_started h content start
      | false => exact ending_continued h content start

theorem ending_accept (h : Ending packets r.buffer) (p : Packet) (arrival : Arrival) :
    Ending packets (r.accept p arrival).buffer := by
  cases arrival with
  | first | inSequence | duplicate => exact h
  | afterBreak | outOfSequence => exact .nil _

theorem ending_next (h : Ending packets r.buffer) (p : Packet) :
    Ending (packets ++ [p]) (r.next p).1.buffer ∧
      ∀ piece ∈ (r.next p).2.pieces, Carried (packets ++ [p]) piece := by
  have haccept := ending_accept h p (r.arrival p p.breakSignalled)
  unfold next
  cases harrival : r.arrival p p.breakSignalled with
  | duplicate => exact ⟨h.skip p, nofun⟩
  | first | afterBreak | inSequence | outOfSequence =>
    rw [harrival] at haccept
    exact ending_absorbed haccept p

theorem ending_run (h : Ending packets r.buffer) (more : List Packet) :
    Ending (packets ++ more) (r.run more).1.buffer ∧
      ∀ piece ∈ (r.run more).2.pieces, Carried (packets ++ more) piece := by
  induction more generalizing r packets with
  | nil =>
    rw [List.append_nil]
    exact ⟨h, nofun⟩
  | cons p rest ih =>
    obtain ⟨hnext, hpieces⟩ := ending_next h p
    obtain ⟨hlast, hrest⟩ := ih hnext
    rw [← List.append_cons] at hlast hrest
    refine ⟨hlast, fun piece hp ↦ ?_⟩
    rcases List.mem_append.1 hp with hp | hp
    · rw [List.append_cons]
      exact (hpieces piece hp).append rest
    · exact hrest piece hp

theorem run_append_singleton (r : Reassembly) (packets : List Packet) (p : Packet) :
    r.run (packets ++ [p]) =
      (((r.run packets).1.next p).1,
        ⟨(r.run packets).2.problems ++ ((r.run packets).1.next p).2.problems,
          (r.run packets).2.pieces ++ ((r.run packets).1.next p).2.pieces⟩) := by
  induction packets generalizing r with
  | nil => simp [run]
  | cons q rest ih => simp [run_cons, ih, List.append_assoc]

/-- The pieces that the packets of a substream bring, from the first on. -/
def extracted (pid : Pid) (packets : List Packet) : List Bytes :=
  (({ pid } : Reassembly).run packets).2.pieces

theorem extracted_append_singleton (pid : Pid) (packets : List Packet) (p : Packet) :
    extracted pid (packets ++ [p]) = extracted pid packets ++
      ((({ pid } : Reassembly).run packets).1.next p).2.pieces := by
  rw [extracted, run_append_singleton, extracted]

theorem carried_of_mem_extracted {pid : Pid} {piece : Bytes} (h : piece ∈ extracted pid packets) :
    Carried packets piece :=
  (ending_run (r := { pid }) (.nil []) packets).2 piece h

end Reassembly

end TransportStream
