import TransportStream.Proofs.Transfer.Losses

namespace TransportStream.Reassembly

open SectionPacker

variable {n sent : Nat} {sections : List Section} {shares : List (Share (UInt8 × Nat))}
  {z : SectionPacker} {r : Reassembly}

theorem run_all (h : Carries n sections sent shares)
    (hr : Tracks z sections sent true (some 0) r) (hsec : ∀ s ∈ sections, IsSection s.bytes) :
    (r.run (z.fillTagged shares).1).1.intake = .idle ∧
      (r.run (z.fillTagged shares).1).1.buffer = [] ∧
      (r.run (z.fillTagged shares).1).2 = { pieces := sections.map (·.bytes) } := by
  induction h generalizing z r with
  | nil n =>
    have hk := hr.eq_holding (.inr rfl)
    refine ⟨?_, ?_, rfl⟩
    · show r.intake = .idle
      rw [hk]
      rfl
    · show r.buffer = []
      rw [hk]
      rfl
  | @cons n sent ahead sections ended rest share shares split before after takes more ih =>
    subst split
    have hrest : ∀ s ∈ rest, IsSection s.bytes := fun s hs ↦ hsec s (List.mem_append_right _ hs)
    have hnext := hr.next_packet (by simp) before after takes hsec
    have htracks := Tracks.take true takes (r := (r.next (z.packet share)).1) (by rw [hnext]; rfl)
    obtain ⟨hi, hb, hf⟩ := ih htracks hrest
    rw [fillTagged_cons, run_cons]
    refine ⟨hi, hb, ?_⟩
    rw [hf, hnext, List.map_append]
    rfl

theorem WellFormed.finished_nil (h : r.WellFormed) :
    r.finished [] = {} ∨ r.finished [] = { problems := [.truncated] } := by
  unfold WellFormed at h
  split at h
  · next hi =>
    left
    rw [finished, hi]
  · next hi =>
    right
    rw [finished_of_accumulating hi (List.append_nil _), Extraction.split_of_unfinished h]
    exact if_neg h.ne_nil

def AtMostOneLoss (problems : List Problem) : Prop :=
  problems = [] ∨ problems = [.discontinuity] ∨ problems = [.truncated]

theorem WellFormed.next_packet {ended rest : List Section} {share : Share (UInt8 × Nat)}
    {ahead : Nat} (h : r.WellFormed) (hd : r.last ≠ some z.counter ∨ r.duplicateSeen = true)
    (after : Within ahead rest) (takes : share.Takes n ended rest 0 ahead)
    (hsec : ∀ s ∈ ended ++ rest, IsSection s.bytes) :
    ∃ problems, AtMostOneLoss problems ∧ r.next (z.packet share) =
      (holding r.pid (some z.counter) ((joined rest).take ahead),
        { problems, pieces := ended.map (·.bytes) }) := by
  have hc : (z.packet share).counter = z.counter := z.counter_fill ..
  have hb : (z.packet share).breakSignalled = false := z.breakSignalled_fill ..
  have hl : (z.packet share).layout.hasPayload = true := by
    rw [packet, layout_fill]
    rfl
  -- In sequence, or as the first packet, it ends the section under way.
  have hin : ∃ problems, AtMostOneLoss problems ∧
      { r with last := some z.counter, duplicateSeen := false }.absorbed (z.packet share) =
        (holding r.pid (some z.counter) ((joined rest).take ahead),
          { problems, pieces := ended.map (·.bytes) }) := by
    have hw : WellFormed { r with last := some z.counter, duplicateSeen := false } := h
    rw [absorbed_start z _ takes after hsec rfl]
    rcases hw.finished_nil with hf | hf
    · rw [hf]
      exact ⟨[], .inl rfl, rfl⟩
    · rw [hf]
      exact ⟨[.truncated], .inr (.inr rfl), rfl⟩
  cases hlast : r.last with
  | none =>
    rw [next_of_first r hlast, hc]
    exact hin
  | some last =>
    by_cases hn : z.counter = last.next
    · rw [next_of_inSequence hlast hb hl (hc.trans hn), hc]
      exact hin
    · have hne : z.counter ≠ last ∨ r.duplicateSeen = true := by
        refine hd.imp_left fun hd he ↦ hd ?_
        rw [hlast, he]
      have habs := absorbed_start z (holding r.pid (some z.counter) []) takes after hsec rfl
      rw [← hc] at hn hne habs
      refine ⟨[.discontinuity], .inr (.inl rfl), ?_⟩
      rw [next_of_outOfSequence hlast hb hl hn hne habs, hc]
      rfl

/-- Packed sections come whole, whatever was under way. -/
theorem WellFormed.run_all (hw : r.WellFormed) (h : Carries n sections 0 shares)
    (hne : sections ≠ []) (hd : r.last ≠ some z.counter ∨ r.duplicateSeen = true)
    (hsec : ∀ s ∈ sections, IsSection s.bytes) :
    ∃ problems, AtMostOneLoss problems ∧
      (r.run (z.fillTagged shares).1).1.intake = .idle ∧
      (r.run (z.fillTagged shares).1).1.buffer = [] ∧
      (r.run (z.fillTagged shares).1).2 = { problems, pieces := sections.map (·.bytes) } := by
  cases h with
  | nil n => exact absurd rfl hne
  | @cons n sent ahead sections ended rest share shares split before after takes more =>
    subst split
    have hrest : ∀ s ∈ rest, IsSection s.bytes := fun s hs ↦ hsec s (List.mem_append_right _ hs)
    obtain ⟨problems, hp, hnext⟩ := hw.next_packet hd after takes hsec
    have htracks := Tracks.take true takes (r := (r.next (z.packet share)).1) (by rw [hnext]; rfl)
    obtain ⟨hi, hb, hf⟩ := Reassembly.run_all more htracks hrest
    rw [fillTagged_cons, run_cons]
    refine ⟨problems, hp, hi, hb, ?_⟩
    rw [hf, hnext, List.map_append]
    exact congrArg (Findings.mk · _) (List.append_nil problems)

end TransportStream.Reassembly
