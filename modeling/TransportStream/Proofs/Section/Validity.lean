import TransportStream.Section.Basic

namespace TransportStream.Section

variable {s : Section}

theorem checked_of_isLong (valid : s.defect = none) (long : s.isLong = true) :
    minLongSize ≤ s.size ∧
      (TableHeader.read (s.bytes.drop CommonHeader.size)).number ≤
        (TableHeader.read (s.bytes.drop CommonHeader.size)).last := by
  obtain ⟨rule, hrule⟩ := s.diagnosed
  have h : diagnose rule s.bytes = none := hrule.symm.trans valid
  have hl : (CommonHeader.read s.bytes).isLong = true := long
  simp only [diagnose, hl, Bool.not_true, Bool.false_eq_true, if_false] at h
  split at h
  · cases h
  · split at h
    · cases h
    · split at h
      · cases h
      · split at h
        · cases h
        · split at h
          · cases h
          · next hs hn => exact ⟨Nat.not_lt.1 hs, UInt8.not_lt.1 hn⟩

theorem tableHeader?_of_isShort (short : s.isLong = false) : s.tableHeader? = none := by
  simp [tableHeader?, short]

theorem tableHeader?_of_isLong (valid : s.defect = none) (long : s.isLong = true) :
    s.tableHeader? = some (TableHeader.read (s.bytes.drop CommonHeader.size)) := by
  have hs := (checked_of_isLong valid long).1
  have hle : longHeaderSize ≤ s.size := Nat.le_trans (Nat.le_add_right _ _) hs
  simp [tableHeader?, long, hle]

theorem number_le_last (valid : s.defect = none) : s.number ≤ s.last := by
  cases hl : s.isLong with
  | false => simp [number, last, tableHeader?_of_isShort hl]
  | true =>
    rw [number, last, tableHeader?_of_isLong valid hl]
    exact (checked_of_isLong valid hl).2

theorem isSome_extension (valid : s.defect = none) : s.extension.isSome = s.isLong := by
  cases hl : s.isLong with
  | false => simp [extension, tableHeader?_of_isShort hl]
  | true => simp [extension, tableHeader?_of_isLong valid hl]

end TransportStream.Section
