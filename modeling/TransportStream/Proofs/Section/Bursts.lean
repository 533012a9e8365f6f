import TransportStream.Proofs.Section.Codec
import TransportStream.Proofs.Section.Register

namespace TransportStream

/-- Whether lists of bits differ at most in `n` consecutive positions. -/
def DifferWithin (n : Nat) (xs ys : List Bool) : Prop :=
  ∃ start, ∀ i, xs[i]? ≠ ys[i]? → start ≤ i ∧ i < start + n

theorem differWithin_iff {n : Nat} {xs ys : List Bool} : DifferWithin n xs ys ↔
    ∃ start, xs.take start = ys.take start ∧ xs.drop (start + n) = ys.drop (start + n) := by
  constructor
  · rintro ⟨start, h⟩
    refine ⟨start, List.ext_getElem? fun i ↦ ?_, List.ext_getElem? fun i ↦ ?_⟩
    · rw [List.getElem?_take, List.getElem?_take]
      split
      · next hi => exact Classical.byContradiction fun hne ↦ by have := (h i hne).1; omega
      · rfl
    · rw [List.getElem?_drop, List.getElem?_drop]
      exact Classical.byContradiction fun hne ↦ by have := (h _ hne).2; omega
  · rintro ⟨start, hbefore, hafter⟩
    refine ⟨start, fun i hne ↦ ⟨Nat.not_lt.1 fun hi ↦ hne ?_, Nat.not_le.1 fun hi ↦ hne ?_⟩⟩
    · rw [← List.getElem?_take_of_lt hi, hbefore, List.getElem?_take_of_lt hi]
    · obtain ⟨k, rfl⟩ := Nat.exists_eq_add_of_le hi
      rw [← List.getElem?_drop, hafter, List.getElem?_drop]

theorem take_append_window_append_drop (zs : List Bool) (start n : Nat) :
    zs.take start ++ ((zs.drop start).take n ++ zs.drop (start + n)) = zs := by
  rw [← List.drop_drop, List.take_append_drop, List.take_append_drop]

theorem Checksum.foldl_absorbBit_ne {xs ys : List Bool} (hlen : xs.length = ys.length)
    (hne : xs ≠ ys) (burst : DifferWithin 32 xs ys) (r : BitVec 32) :
    xs.foldl absorbBit r ≠ ys.foldl absorbBit r := by
  obtain ⟨start, hbefore, hafter⟩ := differWithin_iff.1 burst
  intro heq
  apply hne
  have hwindow : ((xs.drop start).take 32).length = ((ys.drop start).take 32).length := by
    rw [List.length_take, List.length_take, List.length_drop, List.length_drop, hlen]
  have hle (zs : List Bool) : ((zs.drop start).take 32).length ≤ 32 := List.length_take_le _ _
  rw [← take_append_window_append_drop xs start 32, ← take_append_window_append_drop ys start 32,
    hbefore, hafter] at heq ⊢
  simp only [List.foldl_append] at heq
  have hregister := foldl_absorbBit_injective heq
  generalize (ys.take start).foldl absorbBit r = before at hregister
  rw [← shifts_xor_word (hle xs), ← shifts_xor_word (hle ys), ← hwindow] at hregister
  have hword := (BitVec.xor_right_inj _).1 (shifts_injective hregister)
  rw [word_injective hwindow (hle xs) hword]

namespace Section

variable {data altered : Bytes} {pid pid' : Pid}

theorem ofBytes_eq_zero_of_valid (valid : (ofBytes .check data pid).isValid = true)
    (long : (ofBytes .check data pid).isLong = true) : Checksum.ofBytes data = 0 := by
  have hnone : diagnose .check data = none := Option.isNone_iff_eq_none.1 valid
  obtain ⟨hsize, -, -, -, hchecksum⟩ := (diagnose_eq_none_iff_of_isLong long).1 hnone
  have hle : checksumSize ≤ data.length := Nat.le_trans (Nat.le_add_left _ _) hsize
  exact (storedChecksum_eq_iff hle).1 (checksumDefect_check_eq_none_iff.1 hchecksum)

/-- A valid long section in which no more than 32 consecutive bits are changed is a valid long
section no longer. -/
theorem isValid_eq_false_of_burst (valid : (ofBytes .check data pid).isValid = true)
    (long : (ofBytes .check data pid).isLong = true) (hlen : altered.length = data.length)
    (hne : altered ≠ data) (burst : DifferWithin 32 data.bitList altered.bitList)
    (still : (ofBytes .check altered pid').isLong = true) :
    (ofBytes .check altered pid').isValid = false := by
  apply Bool.eq_false_iff.2
  intro hvalid
  have hbits : data.bitList.length = altered.bitList.length := by
    rw [Bytes.length_bitList, Bytes.length_bitList, hlen]
  have hdiffer : data.bitList ≠ altered.bitList := fun h ↦ hne (Bytes.bitList_injective h).symm
  apply Checksum.foldl_absorbBit_ne hbits hdiffer burst (BitVec.allOnes 32)
  rw [← Checksum.foldl_absorb, ← Checksum.foldl_absorb]
  exact (ofBytes_eq_zero_of_valid valid long).trans (ofBytes_eq_zero_of_valid hvalid still).symm

theorem isValid_eq_false_of_burst_crossing :
    let data : Bytes := [0, 0xb0, 13, 0, 1, 0xc1, 0, 0, 0, 1, 0xe1, 0xe0, 0x2d, 0x50, 0x78, 0x04]
    let altered : Bytes := [0, 0xb0, 13, 0, 1, 0xc1, 0, 0, 0, 1, 0xee, 0, 0, 0, 0x78, 0x04]
    (ofBytes .check data .pat).isValid = true ∧ DifferWithin 32 data.bitList altered.bitList ∧
      (ofBytes .check altered .pat).isValid = false := by
  have burst : DifferWithin 32
      (Bytes.bitList [0, 0xb0, 13, 0, 1, 0xc1, 0, 0, 0, 1, 0xe1, 0xe0, 0x2d, 0x50, 0x78, 0x04])
      (Bytes.bitList [0, 0xb0, 13, 0, 1, 0xc1, 0, 0, 0, 1, 0xee, 0, 0, 0, 0x78, 0x04]) :=
    differWithin_iff.2 ⟨84, by decide +kernel, by decide +kernel⟩
  have valid : (ofBytes .check [0, 0xb0, 13, 0, 1, 0xc1, 0, 0, 0, 1, 0xe1, 0xe0, 0x2d, 0x50, 0x78,
      0x04] .pat).isValid = true := by decide +kernel
  exact ⟨valid, burst, isValid_eq_false_of_burst valid (by decide) (by decide) (by decide) burst
    (by decide)⟩

end Section

end TransportStream
