import TransportStream.Proofs.Section.Codec
import TransportStream.Proofs.Section.Register

namespace TransportStream.Section

variable {data : Bytes} {rule : ChecksumRule}

structure WellMeasured (data : Bytes) : Prop where
  minLongSize_le : minLongSize ≤ data.length
  totalSize_eq : (CommonHeader.read data).totalSize = data.length
  length_le : data.length ≤ maxSize
  number_le_last : (TableHeader.read (data.drop CommonHeader.size)).number ≤
    (TableHeader.read (data.drop CommonHeader.size)).last

theorem checksumSize_le (h : minLongSize ≤ data.length) : checksumSize ≤ data.length :=
  Nat.le_trans (Nat.le_add_left _ _) h

theorem toNat_storedChecksum (h : checksumSize ≤ data.length) :
    (storedChecksum data).toNat = Bytes.toNat (data.drop (data.length - checksumSize)) := by
  have hlength : (data.drop (data.length - checksumSize)).length = 4 := by
    rw [List.length_drop]
    exact Nat.sub_sub_self h
  have hlt := Bytes.toNat_lt (data.drop (data.length - checksumSize))
  rw [hlength] at hlt
  rw [storedChecksum, BitVec.toNat_ofNat]
  exact Nat.mod_eq_of_lt hlt

theorem diagnose_of_wellMeasured (long : (CommonHeader.read data).isLong = true)
    (h : WellMeasured data) : diagnose rule data = checksumDefect rule data := by
  have hsize : ¬ data.length < CommonHeader.size :=
    Nat.not_lt.2 (Nat.le_trans (by decide) h.minLongSize_le)
  have htotal : ¬ maxSize < (CommonHeader.read data).totalSize :=
    Nat.not_lt.2 (Nat.le_trans (Nat.le_of_eq h.totalSize_eq) h.length_le)
  simp only [diagnose, long, Bool.not_true, Bool.false_eq_true, if_false]
  rw [if_neg hsize, if_neg htotal, if_neg (not_not_intro h.totalSize_eq),
    if_neg (Nat.not_lt.2 h.minLongSize_le), if_neg (UInt8.not_lt.2 h.number_le_last)]

theorem diagnose_ignore_eq_none_iff (long : (CommonHeader.read data).isLong = true) :
    diagnose .ignore data = none ↔ WellMeasured data := by
  rw [diagnose_eq_none_iff_of_isLong long]
  constructor
  · rintro ⟨hmin, htotal, hmax, hnumber, -⟩
    exact ⟨hmin, htotal, hmax, hnumber⟩
  · rintro ⟨hmin, htotal, hmax, hnumber⟩
    exact ⟨hmin, htotal, hmax, hnumber, rfl⟩

/-- Data ends with the checksum of what is before exactly if the checksum of all of it is zero. A
long section that passes the other checks is valid exactly then; else its checksum is what is found
wrong with it. -/
theorem ofBytes_eq_zero_iff :
    (∀ data : Bytes, 4 ≤ data.length →
      (Bytes.toNat (data.drop (data.length - 4)) =
          (Checksum.ofBytes (data.take (data.length - 4))).toNat ↔ Checksum.ofBytes data = 0)) ∧
    ∀ data : Bytes, (CommonHeader.read data).isLong = true →
      (diagnose .ignore data = none ↔ WellMeasured data) ∧
      (WellMeasured data → diagnose .check data =
        if Checksum.ofBytes data = 0 then none
        else some (.wrongChecksum (storedChecksum data) (computedChecksum data))) := by
  refine ⟨fun data h ↦ ?_, fun data long ↦ ⟨diagnose_ignore_eq_none_iff long, fun h ↦ ?_⟩⟩
  · have hstored : (storedChecksum data).toNat = Bytes.toNat (data.drop (data.length - 4)) :=
      toNat_storedChecksum h
    rw [← storedChecksum_eq_iff h, ← hstored]
    exact BitVec.toNat_inj
  · have hresidue := storedChecksum_eq_iff (checksumSize_le h.minLongSize_le)
    rw [diagnose_of_wellMeasured long h, checksumDefect]
    by_cases hzero : Checksum.ofBytes data = 0
    · rw [if_pos hzero, if_neg fun hne ↦ hne.2 (hresidue.2 hzero)]
    · rw [if_neg hzero, if_pos ⟨rfl, fun heq ↦ hzero (hresidue.1 heq)⟩]

def sampleProgram (last : UInt8) : Bytes :=
  [0, 0xb0, 13, 0, 1, 0xc1, 0, 0, 0, 1, 0xe1, 0xe0, 0x2d, 0x50, 0x78, last]

theorem ofBytes_eq_zero_iff_program :
    Bytes.toNat [0x2d, 0x50, 0x78, 0x04] =
        (Checksum.ofBytes ((sampleProgram 0x04).take 12)).toNat ∧
      diagnose .check (sampleProgram 0x04) = none ∧
      diagnose .ignore (sampleProgram 0x05) = none ∧
      diagnose .check (sampleProgram 0x05) = some (.wrongChecksum
        (storedChecksum (sampleProgram 0x05)) (computedChecksum (sampleProgram 0x05))) := by
  obtain ⟨hresidue, hcheck⟩ := ofBytes_eq_zero_iff
  have hzero : Checksum.ofBytes (sampleProgram 0x04) = 0 := by decide +kernel
  have hne : Checksum.ofBytes (sampleProgram 0x05) ≠ 0 := by decide +kernel
  have hlong : ∀ last ∈ [(0x04 : UInt8), 0x05],
      (CommonHeader.read (sampleProgram last)).isLong = true := by decide +kernel
  have hwhole : WellMeasured (sampleProgram 0x04) :=
    ⟨by decide, by decide +kernel, by decide, by decide +kernel⟩
  have haltered : WellMeasured (sampleProgram 0x05) :=
    ⟨by decide, by decide +kernel, by decide, by decide +kernel⟩
  obtain ⟨-, hvalid⟩ := hcheck _ (hlong 0x04 (by decide))
  obtain ⟨hignore, hinvalid⟩ := hcheck _ (hlong 0x05 (by decide))
  exact ⟨(hresidue (sampleProgram 0x04) (by decide)).2 hzero,
    (hvalid hwhole).trans (if_pos hzero), hignore.2 haltered,
    (hinvalid haltered).trans (if_neg hne)⟩

end TransportStream.Section
