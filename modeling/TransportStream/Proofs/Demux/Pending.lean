import TransportStream.Proofs.Demux.Reachable

namespace TransportStream

theorem CommonHeader.read_append_zeros (data : Bytes) (n : Nat) :
    read (data ++ List.replicate n 0) = read data := by
  have hget : ∀ i, (data ++ List.replicate n 0).getD i 0 = data.getD i 0 := by
    intro i
    rw [List.getD_eq_getElem?_getD, List.getD_eq_getElem?_getD, List.getElem?_append,
      List.getElem?_replicate]
    split
    · rfl
    · next hi =>
      rw [List.getElem?_eq_none (Nat.not_lt.1 hi)]
      split <;> rfl
  simp only [read, hget]

theorem declaredSize_le_of_short {data : Bytes} (short : data.length < CommonHeader.size) :
    declaredSize data ≤ Section.maxSize := by
  have hlast : data.getD 2 0 = 0 := by
    rw [List.getD_eq_getElem?_getD, List.getElem?_eq_none (Nat.le_of_lt_succ short)]
    rfl
  have hbits := bits_lt (data.getD 1 0) 0 4
  simp only [declaredSize, CommonHeader.totalSize, CommonHeader.read, CommonHeader.size, hlast,
    Section.maxSize]
  simp only [UInt8.toNat_zero]
  omega

namespace Unfinished

variable {data : Bytes}

theorem declaredSize_le (h : Unfinished data) : declaredSize data ≤ Section.maxSize := by
  rcases h.length_lt with short | ⟨-, hle⟩
  · exact declaredSize_le_of_short short
  · exact hle

theorem length_lt_declaredSize (h : Unfinished data) : data.length < declaredSize data := by
  rcases h.length_lt with short | ⟨hlt, -⟩
  · simp only [declaredSize, CommonHeader.totalSize]
    omega
  · exact hlt

theorem exists_isSection (h : Unfinished data) : ∃ rest, rest ≠ [] ∧ IsSection (data ++ rest) := by
  have hlt := h.length_lt_declaredSize
  -- Zeros fill it up. They leave the size as it is, since what a header lacks reads as zero.
  refine ⟨List.replicate (declaredSize data - data.length) 0,
    List.ne_nil_of_length_pos (by rw [List.length_replicate]; omega), ?_⟩
  have hlength : (data ++ List.replicate (declaredSize data - data.length) 0).length =
      declaredSize data := by
    rw [List.length_append, List.length_replicate]
    omega
  constructor
  · obtain ⟨b, tail, rfl⟩ := List.exists_cons_of_ne_nil h.ne_nil
    exact h.head?_ne
  · rw [hlength]
    exact Nat.le_add_right _ _
  · rw [hlength, declaredSize, CommonHeader.read_append_zeros, declaredSize]
  · rw [hlength]
    exact h.declaredSize_le

end Unfinished

namespace Demux

variable {σ : Type} {d : Demux σ} {pid : Pid} {sub : Substream}

/-- A substream either keeps nothing, or the start of a section that is not all there. -/
theorem Reachable.idle_or_accumulating (h : d.Reachable)
    (known : d.substreams.get? pid = some sub) :
    sub.reassembly.pid = pid ∧ sub.reassembly.buffer.length < 4096 ∧
      (sub.reassembly.intake = .idle ∧ sub.reassembly.buffer = [] ∨
        sub.reassembly.intake = .accumulating ∧ sub.reassembly.buffer ≠ [] ∧
          sub.reassembly.buffer.head? ≠ some 0xff ∧
          (sub.reassembly.buffer.length < 3 ∨
            sub.reassembly.buffer.length < declaredSize sub.reassembly.buffer ∧
              declaredSize sub.reassembly.buffer ≤ 4096) ∧
          ∃ rest, rest ≠ [] ∧ IsSection (sub.reassembly.buffer ++ rest)) := by
  obtain ⟨hpid, hformed⟩ := h.sound.reassembly pid sub.reassembly (by rw [known]; rfl)
  refine ⟨hpid, ?_⟩
  unfold Reassembly.WellFormed at hformed
  split at hformed
  · next idle =>
    refine ⟨?_, .inl ⟨idle, hformed⟩⟩
    rw [hformed]
    decide
  · next accumulating =>
    exact ⟨hformed.length_lt_maxSize, .inr ⟨accumulating, hformed.ne_nil, hformed.head?_ne,
      hformed.length_lt, hformed.exists_isSection⟩⟩

theorem Reachable.idle_or_accumulating_start : ∃ (d : Demux Unit) (sub : Substream), d.Reachable ∧
    d.substreams.get? .pat = some sub ∧ sub.reassembly.buffer.length = 183 ∧
      sub.reassembly.intake = .accumulating ∧
      ∃ rest, rest ≠ [] ∧ IsSection (sub.reassembly.buffer ++ rest) := by
  have hfed : (Demux.feed (Demux.addPid { handlerState := () } .pat)
      (.leading .pat ([0x42, 0x31, 0x29] ++ List.replicate 180 0))).value.toOption.bind
        (fun r ↦ (r.1.substreams.get? .pat).map fun sub ↦
          (sub.reassembly.buffer.length, sub.reassembly.intake)) =
      some (183, Intake.accumulating) := by
    decide +kernel
  obtain ⟨⟨d, calls⟩, hd, hr⟩ := toOption_bind_eq_some_iff.1 hfed
  obtain ⟨sub, hsub, hr⟩ := Option.map_eq_some_iff.1 hr
  obtain ⟨hlength, hintake⟩ := Prod.mk.inj hr
  have reachable : d.Reachable := .feed (.addPid (.start {} ()) .pat) hd
  rcases (reachable.idle_or_accumulating hsub).2.2 with ⟨idle, -⟩ | ⟨-, -, -, -, hrest⟩
  · cases hintake.symm.trans idle
  · exact ⟨d, sub, reachable, hsub, hlength, hintake, hrest⟩

end Demux

end TransportStream
