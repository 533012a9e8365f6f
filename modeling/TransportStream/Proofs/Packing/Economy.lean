import TransportStream.Proofs.Packing.Progress

namespace TransportStream.SectionPacker

variable {α : Type} {data : List α} {starts : List Nat} {base n : Nat}

theorem min_pointedSize_le_size (remaining : Nat) (start : Option Nat) :
    min pointedSize remaining ≤ (portion remaining start).size := by
  have hp : pointedSize = 183 := rfl
  have hm : Packet.maxPayloadSize = 184 := rfl
  rcases start with _ | distance
  · simp only [portion]
    omega
  · rw [portion]
    split
    · exact Nat.le_refl _
    · dsimp only
      omega

theorem le_size_portion {size remaining : Nat} {start : Option Nat} (fits : size ≤ remaining)
    (room : size ≤ Packet.maxPayloadSize)
    (apart : ∀ distance, start = some distance → size ≤ distance) :
    size ≤ (portion remaining start).size := by
  have hp : pointedSize = 183 := rfl
  rcases start with _ | distance
  · exact Nat.le_min.2 ⟨room, fits⟩
  · have hd := apart distance rfl
    rw [portion]
    split
    · exact Nat.le_min.2 ⟨by omega, fits⟩
    · exact Nat.le_min.2 ⟨room, hd⟩

/-- A packet without stuffing reaches at least as far as one with stuffing from the same position of
a section, or from an earlier one. -/
theorem reach_le {total size done : Nat} {start : Option Nat} (inside : base + size ≤ total)
    (later : base + done ≤ n)
    (apart : ∀ distance, start = some distance → n + distance ≤ base ∨ base + size ≤ n + distance)
    (within : n < base + size) :
    base + done + (portion (size - done) (startsAfter done [0]).head?).size ≤
      n + (portion (total - n) start).size := by
  have hp : pointedSize = 183 := rfl
  have hm : Packet.maxPayloadSize = 184 := rfl
  have hreach := min_pointedSize_le_size (total - n) start
  rcases Nat.eq_zero_or_pos done with rfl | h₀
  · -- Both have a byte less for data, or end with the sections.
    have hsize : (portion (size - 0) (startsAfter 0 [0]).head?).size = min pointedSize size := rfl
    omega
  · have hsize : (portion (size - done) (startsAfter done [0]).head?).size =
        min Packet.maxPayloadSize (size - done) := by
      rw [startsAfter_of_lt h₀]
      rfl
    rcases Nat.eq_or_lt_of_le later with rfl | ahead
    · -- From the same position no start is before the end of the section.
      have hsame : min Packet.maxPayloadSize (size - done) ≤
          (portion (total - (base + done)) start).size := by
        refine le_size_portion (by omega) (Nat.min_le_left _ _) fun distance hd ↦ ?_
        have hbeyond := apart distance hd
        omega
      omega
    · omega

theorem length_cut_le_add {bytes : Bytes} {more : Nat} (inside : base + bytes.length ≤ data.length)
    (apart : ∀ m ∈ starts, m ≤ base ∨ base + bytes.length ≤ m)
    (after : ∀ n, base + bytes.length ≤ n →
      (cut (data.drop n) (startsAfter n starts)).length ≤ more)
    (done : Nat) {n : Nat} (later : base + done ≤ n) :
    (cut (data.drop n) (startsAfter n starts)).length ≤
      (cut (bytes.drop done) (startsAfter done [0])).length + more := by
  generalize hrest : bytes.drop done = rest
  generalize hleft : startsAfter done [0] = left
  fun_induction cut rest left generalizing done n with
  | case1 left =>
    have hdone : bytes.length ≤ done := List.drop_eq_nil_iff.1 hrest
    exact Nat.le_add_left_of_le (after n (by omega))
  | case2 rest left hne next ih =>
    subst hrest hleft
    have hdone : done < bytes.length := Nat.not_le.1 fun h ↦ hne (List.drop_eq_nil_iff.2 h)
    have hnext : next.size = (portion (bytes.length - done) (startsAfter done [0]).head?).size := by
      rw [← List.length_drop]
    have hpos : 0 < next.size := by
      rw [hnext]
      exact portion_size_pos (Nat.sub_pos_of_lt hdone) _
    have hrec := fun n hn ↦ ih (done + next.size) (n := n) hn (by rw [List.drop_drop])
      (startsAfter_startsAfter done hpos [0]).symm
    rw [List.length_cons]
    rcases Nat.lt_or_ge n (base + bytes.length) with within | beyond
    · rw [cut_drop starts (by omega), List.length_cons]
      have hreach := reach_le inside later
        (fun distance hd ↦ apart _ (add_mem_of_head?_startsAfter hd)) within
      rw [Nat.add_assoc, ← hnext] at hreach
      have hle := hrec _ hreach
      omega
    · have hle := after n beyond
      omega

/-- From any position in what is left of the sections on, stuffing takes as many packets or more. -/
theorem length_cut_le_packApart (sections : List Section) (z : SectionPacker)
    (total : data.length = base + (joined sections).length)
    (ahead : ∀ m ∈ starts, m ≤ base ∨ m ∈ positions base sections) (later : base ≤ n) :
    (cut (data.drop n) (startsAfter n starts)).length ≤ (z.packApart sections).1.length := by
  induction sections generalizing base n z with
  | nil =>
    rw [joined_nil, List.length_nil, Nat.add_zero] at total
    rw [List.drop_of_length_le (by omega), cut_nil]
    exact Nat.le_refl _
  | cons s rest ih =>
    rw [joined_cons, List.length_append, ← Nat.add_assoc] at total
    have apart : ∀ m ∈ starts, m ≤ base ∨ m ∈ positions (base + s.size) rest := by
      intro m hm
      rcases ahead m hm with h | h
      · exact .inl h
      · exact (List.mem_cons.1 h).imp_left Nat.le_of_eq
    have after := fun n hn ↦ ih (n := n) (z.packData s.bytes [0]).2 total
      (fun m hm ↦ (apart m hm).imp_left fun h ↦ Nat.le_trans h (Nat.le_add_right _ _)) hn
    have hsection := length_cut_le_add (by omega)
      (fun m hm ↦ (apart m hm).imp_right le_of_mem_positions) after 0 later
    rwa [List.drop_zero, startsAfter_zero, ← length_fillAll z, ← packData_eq,
      ← List.length_append] at hsection

/-- Sections that follow each other without gaps take at most as many packets as sections that start
in packets of their own. -/
theorem length_pack_never_le (pid pid' : Pid) (counter counter' : ContinuityCounter)
    (sections : List Section) :
    ((⟨pid, .never, counter⟩ : SectionPacker).pack sections).1.length ≤
      ((⟨pid', .always, counter'⟩ : SectionPacker).pack sections).1.length := by
  have h : (cut ((joined sections).drop 0) (startsAfter 0 (positions 0 sections))).length ≤
      (packApart ⟨pid', .always, counter'⟩ sections).1.length :=
    length_cut_le_packApart sections _ (Nat.zero_add _).symm (fun _ ↦ .inr) (Nat.le_refl 0)
  rw [List.drop_zero, startsAfter_zero] at h
  show (packData _ (joined sections) _).1.length ≤ _
  rwa [packData_eq, length_fillAll]

end TransportStream.SectionPacker
