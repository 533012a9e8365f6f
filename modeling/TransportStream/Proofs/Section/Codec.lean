import Mathlib.Data.List.Induction
import TransportStream.Proofs.Section.Validity
import TransportStream.Section.Builder

namespace TransportStream

theorem Bytes.ofNat_toNat (data : Bytes) : ofNat data.length (toNat data) = data := by
  induction data using List.reverseRecOn with
  | nil => rfl
  | append_singleton data b ih =>
    have hb := b.toNat_lt
    have hdiv : (toNat data * 256 + b.toNat) / 256 = toNat data := by omega
    have hmod : (toNat data * 256 + b.toNat) % 256 = b.toNat := by omega
    rw [List.length_append, List.length_singleton, ofNat, toNat_append_byte, hdiv, hmod, ih,
      UInt8.ofNat_toNat]

theorem Bytes.toNat_lt (data : Bytes) : toNat data < 1 <<< (8 * data.length) := by
  rw [← congrArg toNat (ofNat_toNat data), toNat_ofNat]
  exact Nat.mod_lt _ (by rw [Nat.one_shiftLeft]; exact Nat.two_pow_pos _)

theorem bit_eq_of_bits {b : UInt8} {i : Nat} {v : Bool} (h : bits b i 1 = v.toNat) :
    bit b i = v := by
  rw [bit, h]
  cases v <;> rfl

theorem toNat_bit (b : UInt8) (i : Nat) : (bit b i).toNat = bits b i 1 := by
  have h : bits b i 1 < 2 := bits_lt b i 1
  unfold bit
  generalize bits b i 1 = n at h ⊢
  match n, h with
  | 0, _ => rfl
  | 1, _ => rfl

namespace CommonHeader

variable {b₀ b₁ b₂ : UInt8} {rest : Bytes}

theorem read_cons : read (b₀ :: b₁ :: b₂ :: rest) =
    ⟨b₀, bit b₁ 7, bit b₁ 6, bits b₁ 0 4 * 256 + b₂.toNat⟩ := rfl

theorem read_toBytes (h : CommonHeader) (hl : h.length < 4096) (rest : Bytes) :
    read (h.toBytes ++ rest) = h := by
  obtain ⟨tableId, isLong, isPrivate, length⟩ := h
  have hlength : length < 4096 := hl
  have hlong := isLong.toNat_lt
  have hprivate := isPrivate.toNat_lt
  have hbyte : (UInt8.ofNat (isLong.toNat * 0x80 + isPrivate.toNat * 0x40 + 0x30
      + length / 256 % 16)).toNat =
      isLong.toNat * 128 + isPrivate.toNat * 64 + 48 + length / 256 := by
    rw [UInt8.toNat_ofNat']
    omega
  have hlast : (UInt8.ofNat length).toNat = length % 256 := UInt8.toNat_ofNat'
  show read (_ :: _ :: _ :: rest) = _
  rw [read_cons]
  congr 1
  · apply bit_eq_of_bits
    simp only [bits, hbyte, Nat.shiftRight_eq_div_pow, Nat.one_shiftLeft]
    omega
  · apply bit_eq_of_bits
    simp only [bits, hbyte, Nat.shiftRight_eq_div_pow, Nat.one_shiftLeft]
    omega
  · simp only [bits, hbyte, hlast, Nat.shiftRight_eq_div_pow, Nat.one_shiftLeft]
    omega

theorem toBytes_read_cons (reserved : bits b₁ 4 2 = 3) :
    (read (b₀ :: b₁ :: b₂ :: rest)).toBytes = [b₀, b₁, b₂] := by
  have h₁ := b₁.toNat_lt
  have h₂ := b₂.toNat_lt
  have hbyte : UInt8.ofNat ((bit b₁ 7).toNat * 0x80 + (bit b₁ 6).toNat * 0x40 + 0x30
      + (bits b₁ 0 4 * 256 + b₂.toNat) / 256 % 16) = b₁ := by
    rw [← UInt8.toNat_inj, UInt8.toNat_ofNat', toNat_bit, toNat_bit]
    simp only [bits, Nat.shiftRight_eq_div_pow, Nat.one_shiftLeft] at reserved ⊢
    omega
  have hlast : UInt8.ofNat (bits b₁ 0 4 * 256 + b₂.toNat) = b₂ := by
    rw [← UInt8.toNat_inj, UInt8.toNat_ofNat']
    omega
  rw [read_cons, toBytes]
  simp only [hbyte, hlast]

theorem toBytes_read {data : Bytes} (hlen : size ≤ data.length)
    (reserved : ∀ b, data[1]? = some b → bits b 4 2 = 3) :
    (read data).toBytes = data.take size := by
  match data, hlen with
  | b₀ :: b₁ :: b₂ :: rest, _ => exact toBytes_read_cons (reserved b₁ rfl)

end CommonHeader

namespace TableHeader

variable {b₀ b₁ b₂ b₃ b₄ : UInt8} {rest : Bytes}

theorem read_cons : read (b₀ :: b₁ :: b₂ :: b₃ :: b₄ :: rest) =
    ⟨UInt16.ofNat (b₀.toNat * 256 + b₁.toNat), bits b₂ 1 5, .ofBool (bit b₂ 0), b₃, b₄⟩ := rfl

theorem read_toBytes (h : TableHeader) (hv : h.version < 32) (rest : Bytes) :
    read (h.toBytes ++ rest) = h := by
  obtain ⟨extension, version, applicability, number, last⟩ := h
  have hversion : version < 32 := hv
  have hcurrent := applicability.isCurrent.toNat_lt
  have hextension := extension.toNat_lt
  have hbyte : (UInt8.ofNat (0xc0 + version % 32 * 2 + applicability.isCurrent.toNat)).toNat =
      192 + version * 2 + applicability.isCurrent.toNat := by
    rw [UInt8.toNat_ofNat']
    omega
  have hof : Applicability.ofBool applicability.isCurrent = applicability := by
    cases applicability <;> rfl
  show read (_ :: _ :: _ :: _ :: _ :: rest) = _
  rw [read_cons]
  congr 1
  · rw [← UInt16.toNat_inj, UInt16.toNat_ofNat', UInt8.toNat_ofNat', UInt8.toNat_ofNat']
    dsimp only
    omega
  · simp only [bits, hbyte, Nat.shiftRight_eq_div_pow, Nat.one_shiftLeft]
    omega
  · refine Eq.trans (congrArg _ (bit_eq_of_bits ?_)) hof
    simp only [bits, hbyte, Nat.shiftRight_eq_div_pow, Nat.one_shiftLeft]
    omega

theorem toBytes_read_cons (reserved : bits b₂ 6 2 = 3) :
    (read (b₀ :: b₁ :: b₂ :: b₃ :: b₄ :: rest)).toBytes = [b₀, b₁, b₂, b₃, b₄] := by
  have h₀ := b₀.toNat_lt
  have h₁ := b₁.toNat_lt
  have h₂ := b₂.toNat_lt
  have hextension : (UInt16.ofNat (b₀.toNat * 256 + b₁.toNat)).toNat =
      b₀.toNat * 256 + b₁.toNat := by
    rw [UInt16.toNat_ofNat']
    omega
  have hhigh : UInt8.ofNat ((b₀.toNat * 256 + b₁.toNat) / 256) = b₀ := by
    rw [← UInt8.toNat_inj, UInt8.toNat_ofNat']
    omega
  have hlow : UInt8.ofNat (b₀.toNat * 256 + b₁.toNat) = b₁ := by
    rw [← UInt8.toNat_inj, UInt8.toNat_ofNat']
    omega
  have hof : (Applicability.ofBool (bit b₂ 0)).isCurrent = bit b₂ 0 := by
    cases bit b₂ 0 <;> rfl
  have hbyte : UInt8.ofNat (0xc0 + bits b₂ 1 5 % 32 * 2 + (bit b₂ 0).toNat) = b₂ := by
    rw [← UInt8.toNat_inj, UInt8.toNat_ofNat', toNat_bit]
    simp only [bits, Nat.shiftRight_eq_div_pow, Nat.one_shiftLeft] at reserved ⊢
    omega
  rw [read_cons, toBytes]
  simp only [hextension, hhigh, hlow, hof, hbyte]

theorem toBytes_read {data : Bytes} (hlen : size ≤ data.length)
    (reserved : ∀ b, data[2]? = some b → bits b 6 2 = 3) :
    (read data).toBytes = data.take size := by
  match data, hlen with
  | b₀ :: b₁ :: b₂ :: b₃ :: b₄ :: rest, _ => exact toBytes_read_cons (reserved b₂ rfl)

end TableHeader

namespace Section

variable {rule : ChecksumRule} {data : Bytes}

theorem diagnose_eq_none_iff_of_isShort (short : (CommonHeader.read data).isLong = false) :
    diagnose rule data = none ↔ CommonHeader.size ≤ data.length ∧
      (CommonHeader.read data).totalSize = data.length ∧ data.length ≤ maxSize := by
  unfold diagnose
  simp only [short, Bool.not_false, if_true]
  split_ifs with h₁ h₂ h₃ <;> simp <;> omega

theorem diagnose_eq_none_iff_of_isLong (long : (CommonHeader.read data).isLong = true) :
    diagnose rule data = none ↔ minLongSize ≤ data.length ∧
      (CommonHeader.read data).totalSize = data.length ∧ data.length ≤ maxSize ∧
      (TableHeader.read (data.drop CommonHeader.size)).number ≤
        (TableHeader.read (data.drop CommonHeader.size)).last ∧
      checksumDefect rule data = none := by
  have hmin : CommonHeader.size ≤ minLongSize := by decide
  unfold diagnose
  simp only [long, Bool.not_true, Bool.false_eq_true, if_false]
  split_ifs with h₁ h₂ h₃ h₄ h₅
  · exact ⟨nofun, fun h ↦ by omega⟩
  · exact ⟨nofun, fun h ↦ by omega⟩
  · exact ⟨nofun, fun h ↦ by omega⟩
  · exact ⟨nofun, fun h ↦ by omega⟩
  · exact ⟨nofun, fun h ↦ absurd h₅ (UInt8.not_lt.2 h.2.2.2.1)⟩
  · exact ⟨fun h ↦ ⟨by omega, by omega, by omega, UInt8.not_lt.1 h₅, h⟩, fun h ↦ h.2.2.2.2⟩

theorem checksumDefect_check_eq_none_iff :
    checksumDefect .check data = none ↔ storedChecksum data = computedChecksum data := by
  by_cases h : storedChecksum data = computedChecksum data <;> simp [checksumDefect, h]

namespace LongHeader

variable (h : LongHeader) (payload : Bytes)

def common : CommonHeader :=
  ⟨h.tableId, true, h.isPrivate, TableHeader.size + payload.length + checksumSize⟩

def second : TableHeader :=
  ⟨h.extension, h.version, h.applicability, h.number, h.last⟩

theorem encode_eq : h.encode payload = (h.common payload).toBytes ++ (h.second.toBytes ++
    (payload ++ Bytes.ofNat checksumSize (Checksum.ofBytes (h.content payload)).toNat)) := by
  rw [encode, content]
  simp only [List.append_assoc]
  rfl

theorem length_content : (h.content payload).length = longHeaderSize + payload.length := by
  simp only [content, List.length_append]
  rfl

theorem length_encode : (h.encode payload).length = minLongSize + payload.length := by
  rw [encode, List.length_append, length_content, Bytes.length_ofNat, minLongSize]
  omega

variable {h payload}

theorem read_encode (fits : minLongSize + payload.length ≤ maxSize) :
    CommonHeader.read (h.encode payload) = h.common payload := by
  rw [encode_eq]
  apply CommonHeader.read_toBytes
  simp only [common, TableHeader.size, checksumSize]
  simp only [minLongSize, longHeaderSize, CommonHeader.size, TableHeader.size, checksumSize,
    maxSize] at fits
  omega

theorem read_drop_encode (narrow : h.version < 32) :
    TableHeader.read ((h.encode payload).drop CommonHeader.size) = h.second := by
  rw [encode_eq]
  exact TableHeader.read_toBytes h.second narrow _

theorem take_encode : (h.encode payload).take ((h.encode payload).length - checksumSize) =
    h.content payload := by
  have hl : (h.encode payload).length - checksumSize = (h.content payload).length := by
    rw [length_encode, length_content, minLongSize]
    omega
  rw [hl, encode, List.take_left]

theorem drop_encode : (h.encode payload).drop ((h.encode payload).length - checksumSize) =
    Bytes.ofNat checksumSize (Checksum.ofBytes (h.content payload)).toNat := by
  have hl : (h.encode payload).length - checksumSize = (h.content payload).length := by
    rw [length_encode, length_content, minLongSize]
    omega
  rw [hl, encode, List.drop_left]

theorem drop_content : (h.content payload).drop longHeaderSize = payload := by
  rfl

theorem storedChecksum_encode :
    storedChecksum (h.encode payload) = computedChecksum (h.encode payload) := by
  rw [storedChecksum, computedChecksum, drop_encode, take_encode, Bytes.toNat_ofNat]
  apply BitVec.eq_of_toNat_eq
  have hlt := (Checksum.ofBytes (h.content payload)).isLt
  have hpow : 1 <<< (8 * checksumSize) = 2 ^ 32 := rfl
  rw [BitVec.toNat_ofNat, hpow, Nat.mod_eq_of_lt hlt, Nat.mod_eq_of_lt hlt]

theorem diagnose_encode (narrow : h.version < 32) (ordered : h.number ≤ h.last)
    (fits : minLongSize + payload.length ≤ maxSize) :
    diagnose .check (h.encode payload) = none := by
  have hread := read_encode (h := h) fits
  have hl := h.length_encode payload
  rw [diagnose_eq_none_iff_of_isLong (by rw [hread]; rfl), hread, read_drop_encode narrow]
  refine ⟨by omega, ?_, by omega, ordered, checksumDefect_check_eq_none_iff.2 storedChecksum_encode⟩
  rw [hl, CommonHeader.totalSize, common, minLongSize, longHeaderSize]
  dsimp only
  omega

end LongHeader

section Short

variable {tableId : UInt8} {isPrivate : Bool} {payload : Bytes}

theorem read_encodeShort (fits : CommonHeader.size + payload.length ≤ maxSize) :
    CommonHeader.read (encodeShort tableId isPrivate payload) =
      ⟨tableId, false, isPrivate, payload.length⟩ := by
  apply CommonHeader.read_toBytes
  simp only [CommonHeader.size, maxSize] at fits
  dsimp only
  omega

theorem length_encodeShort :
    (encodeShort tableId isPrivate payload).length = CommonHeader.size + payload.length := by
  rw [encodeShort, List.length_append]
  rfl

theorem diagnose_encodeShort (fits : CommonHeader.size + payload.length ≤ maxSize) :
    diagnose .check (encodeShort tableId isPrivate payload) = none := by
  have hread : CommonHeader.read (encodeShort tableId isPrivate payload) =
      ⟨tableId, false, isPrivate, payload.length⟩ := read_encodeShort fits
  rw [diagnose_eq_none_iff_of_isShort (by rw [hread]), hread, length_encodeShort]
  exact ⟨Nat.le_add_right _ _, rfl, fits⟩

end Short

structure ReadsLong (s : Section) (h : LongHeader) (payload : Bytes) : Prop where
  valid : s.isValid = true
  isLong : s.isLong = true
  length : s.header.length = TableHeader.size + payload.length + checksumSize
  size : s.size = minLongSize + payload.length
  tableId : s.tableId = h.tableId
  isPrivate : s.isPrivate = h.isPrivate
  extension : s.extension = some h.extension
  version : s.version = h.version
  applicability : s.applicability = h.applicability
  number : s.number = h.number
  last : s.last = h.last
  payload : s.payload = payload

structure ReadsShort (s : Section) (tableId : UInt8) (isPrivate : Bool) (payload : Bytes) :
    Prop where
  valid : s.isValid = true
  isShort : s.isShort = true
  length : s.header.length = payload.length
  size : s.size = CommonHeader.size + payload.length
  tableId : s.tableId = tableId
  isPrivate : s.isPrivate = isPrivate
  extension : s.extension = none
  version : s.version = 0
  applicability : s.applicability = .current
  number : s.number = 0
  last : s.last = 0
  payload : s.payload = payload

theorem readsLong_encode {h : LongHeader} {payload : Bytes} (narrow : h.version < 32)
    (ordered : h.number ≤ h.last) (fits : minLongSize + payload.length ≤ maxSize) (pid : Pid) :
    (ofBytes .check (h.encode payload) pid).ReadsLong h payload := by
  have valid : (ofBytes .check (h.encode payload) pid).defect = none :=
    h.diagnose_encode narrow ordered fits
  have hread : (ofBytes .check (h.encode payload) pid).header = h.common payload :=
    LongHeader.read_encode fits
  have long : (ofBytes .check (h.encode payload) pid).isLong = true := by
    rw [Section.isLong, hread]
    rfl
  have hsecond : (ofBytes .check (h.encode payload) pid).tableHeader? = some h.second := by
    rw [tableHeader?_of_isLong valid long]
    exact congrArg some (LongHeader.read_drop_encode narrow)
  have hsize : (ofBytes .check (h.encode payload) pid).size = minLongSize + payload.length :=
    h.length_encode payload
  constructor
  · rw [isValid, valid]
    rfl
  · exact long
  · rw [hread]
    rfl
  · exact hsize
  · rw [Section.tableId, hread]
    rfl
  · rw [Section.isPrivate, hread]
    rfl
  · rw [Section.extension, hsecond]
    rfl
  · rw [Section.version, hsecond]
    rfl
  · rw [Section.applicability, hsecond]
    rfl
  · rw [Section.number, hsecond]
    rfl
  · rw [Section.last, hsecond]
    rfl
  · have hle : ¬ (ofBytes .check (h.encode payload) pid).size < minLongSize := by omega
    rw [Section.payload, long, if_neg (by decide), if_neg hle]
    show ((h.encode payload).take ((h.encode payload).length - checksumSize)).drop _ = _
    rw [LongHeader.take_encode, LongHeader.drop_content]

theorem readsShort_encodeShort {tableId : UInt8} {isPrivate : Bool} {payload : Bytes}
    (fits : CommonHeader.size + payload.length ≤ maxSize) (pid : Pid) :
    (ofBytes .check (encodeShort tableId isPrivate payload) pid).ReadsShort tableId isPrivate
      payload := by
  have valid : (ofBytes .check (encodeShort tableId isPrivate payload) pid).defect = none :=
    diagnose_encodeShort fits
  have hread : (ofBytes .check (encodeShort tableId isPrivate payload) pid).header =
      ⟨tableId, false, isPrivate, payload.length⟩ := read_encodeShort fits
  have short : (ofBytes .check (encodeShort tableId isPrivate payload) pid).isLong = false := by
    rw [Section.isLong, hread]
  have hsecond : (ofBytes .check (encodeShort tableId isPrivate payload) pid).tableHeader? = none :=
    tableHeader?_of_isShort short
  constructor
  · rw [isValid, valid]
    rfl
  · rw [Section.isShort, short]
    rfl
  · rw [hread]
  · exact length_encodeShort
  · rw [Section.tableId, hread]
  · rw [Section.isPrivate, hread]
  · rw [Section.extension, hsecond]
    rfl
  · rw [Section.version, hsecond]
    rfl
  · rw [Section.applicability, hsecond]
    rfl
  · rw [Section.number, hsecond]
    rfl
  · rw [Section.last, hsecond]
    rfl
  · rw [Section.payload, short, if_pos (by decide)]
    rfl

theorem makeLong_eq_ok_iff {h : LongHeader} {payload : Bytes} {pid : Pid} {s : Section} :
    makeLong h payload pid = .ok s ↔ h.version < 32 ∧ h.number ≤ h.last ∧
      minLongSize + payload.length ≤ maxSize ∧ ofBytes .check (h.encode payload) pid = s := by
  simp only [makeLong, bind_eq_ok_iff, require_eq_ok_iff, exists_const, pure, Except.pure,
    Except.ok.injEq]

theorem makeShort_eq_ok_iff {tableId : UInt8} {isPrivate : Bool} {payload : Bytes} {pid : Pid}
    {s : Section} : makeShort tableId isPrivate payload pid = .ok s ↔
      CommonHeader.size + payload.length ≤ maxSize ∧
        ofBytes .check (encodeShort tableId isPrivate payload) pid = s := by
  simp only [makeShort, bind_eq_ok_iff, require_eq_ok_iff, exists_const, pure, Except.pure,
    Except.ok.injEq]

structure ReservedSet (data : Bytes) : Prop where
  common : ∀ b, data[1]? = some b → bits b 4 2 = 3
  table : (CommonHeader.read data).isLong = true → ∀ b, data[5]? = some b → bits b 6 2 = 3

def Built (data : Bytes) (pid : Pid) : Prop :=
  (∃ h payload s, makeLong h payload pid = .ok s ∧ s.bytes = data) ∨
    ∃ tableId isPrivate payload s, makeShort tableId isPrivate payload pid = .ok s ∧ s.bytes = data

section Rebuilt

variable {s : Section} {data : Bytes} {pid : Pid}

def fields (s : Section) : LongHeader where
  tableId := s.tableId
  isPrivate := s.isPrivate
  extension := s.extension.getD 0
  version := s.version
  applicability := s.applicability
  number := s.number
  last := s.last

def rebuilt (s : Section) : Except Fault Section :=
  if s.isLong then makeLong s.fields s.payload s.pid
  else makeShort s.tableId s.isPrivate s.payload s.pid

theorem second_fields (valid : s.defect = none) (long : s.isLong = true) :
    s.fields.second = TableHeader.read (s.bytes.drop CommonHeader.size) := by
  have hsecond := tableHeader?_of_isLong valid long
  simp only [LongHeader.second, fields, extension, version, applicability, number, last, hsecond]
  rfl

theorem payload_of_isLong (hsize : minLongSize ≤ s.size) (long : s.isLong = true) :
    s.payload = (s.bytes.take (s.size - checksumSize)).drop longHeaderSize := by
  rw [payload, long, if_neg (by decide), if_neg (Nat.not_lt.2 hsize)]

theorem length_payload_of_isLong (hsize : minLongSize ≤ s.size) (long : s.isLong = true) :
    minLongSize + s.payload.length = s.size := by
  rw [payload_of_isLong hsize long, List.length_drop, List.length_take]
  simp only [minLongSize, longHeaderSize, checksumSize, Section.size] at hsize ⊢
  omega

theorem common_fields (hsize : minLongSize ≤ s.size) (long : s.isLong = true)
    (declared : s.header.totalSize = s.size) : s.fields.common s.payload = s.header := by
  have hlen := length_payload_of_isLong hsize long
  have hlength : TableHeader.size + s.payload.length + checksumSize = s.header.length := by
    rw [CommonHeader.totalSize] at declared
    rw [minLongSize, longHeaderSize] at hlen
    omega
  rw [LongHeader.common, hlength, ← long]
  rfl

theorem content_fields (reserved : ReservedSet s.bytes) (valid : s.defect = none)
    (long : s.isLong = true) (declared : s.header.totalSize = s.size) :
    s.fields.content s.payload = s.bytes.take (s.size - checksumSize) := by
  have hsize := (checked_of_isLong valid long).1
  have hlong : longHeaderSize ≤ s.size - checksumSize := Nat.le_sub_of_add_le hsize
  have hcommon : s.header.toBytes = s.bytes.take CommonHeader.size :=
    CommonHeader.toBytes_read (by simp only [minLongSize, longHeaderSize, Section.size] at *; omega)
      reserved.common
  have hsecond : (TableHeader.read (s.bytes.drop CommonHeader.size)).toBytes =
      (s.bytes.drop CommonHeader.size).take TableHeader.size := by
    apply TableHeader.toBytes_read
    · rw [List.length_drop]
      simp only [minLongSize, longHeaderSize, Section.size] at *
      omega
    · intro b hb
      rw [List.getElem?_drop] at hb
      exact reserved.table long b hb
  calc s.fields.content s.payload
      = (s.fields.common s.payload).toBytes ++ s.fields.second.toBytes ++ s.payload := rfl
    _ = s.bytes.take longHeaderSize ++ s.payload := by
      rw [common_fields hsize long declared, second_fields valid long, hcommon, hsecond,
        ← List.take_add]
      rfl
    _ = (s.bytes.take (s.size - checksumSize)).take longHeaderSize ++
          (s.bytes.take (s.size - checksumSize)).drop longHeaderSize := by
      rw [payload_of_isLong hsize long, List.take_take, Nat.min_eq_left hlong]
    _ = s.bytes.take (s.size - checksumSize) := List.take_append_drop _ _

theorem ofNat_computedChecksum (hsize : checksumSize ≤ data.length)
    (agrees : storedChecksum data = computedChecksum data) :
    Bytes.ofNat checksumSize (computedChecksum data).toNat =
      data.drop (data.length - checksumSize) := by
  have hlen : (data.drop (data.length - checksumSize)).length = checksumSize := by
    rw [List.length_drop]
    omega
  have hlt : Bytes.toNat (data.drop (data.length - checksumSize)) < 2 ^ 32 := by
    have h := Bytes.toNat_lt (data.drop (data.length - checksumSize))
    rw [hlen] at h
    exact h
  have hround := Bytes.ofNat_toNat (data.drop (data.length - checksumSize))
  rw [hlen] at hround
  rw [← agrees, storedChecksum, BitVec.toNat_ofNat, Nat.mod_eq_of_lt hlt, hround]

theorem encode_fields (reserved : ReservedSet s.bytes) (valid : s.defect = none)
    (long : s.isLong = true) (declared : s.header.totalSize = s.size)
    (agrees : storedChecksum s.bytes = computedChecksum s.bytes) :
    s.fields.encode s.payload = s.bytes := by
  have hsize : checksumSize ≤ s.size :=
    Nat.le_trans (Nat.le_add_left _ _) (checked_of_isLong valid long).1
  have hchecksum := ofNat_computedChecksum hsize agrees
  rw [computedChecksum, ← Section.size] at hchecksum
  rw [LongHeader.encode, content_fields reserved valid long declared, hchecksum,
    List.take_append_drop]

theorem encodeShort_fields (reserved : ReservedSet s.bytes) (short : s.isLong = false)
    (hsize : CommonHeader.size ≤ s.size) (declared : s.header.totalSize = s.size) :
    encodeShort s.tableId s.isPrivate s.payload = s.bytes := by
  have hpayload : s.payload = s.bytes.drop CommonHeader.size := by
    rw [payload, short, if_pos (by decide)]
  have hlength : s.payload.length = s.header.length := by
    rw [hpayload, List.length_drop, ← Section.size, ← declared, CommonHeader.totalSize]
    omega
  have hheader : (⟨s.tableId, false, s.isPrivate, s.payload.length⟩ : CommonHeader) = s.header := by
    rw [hlength, ← short]
    rfl
  rw [encodeShort, hheader, hpayload, header, CommonHeader.toBytes_read hsize reserved.common,
    List.take_append_drop]

theorem rebuilt_of_valid (reserved : ReservedSet data)
    (valid : (ofBytes .check data pid).defect = none) :
    rebuilt (ofBytes .check data pid) = .ok (ofBytes .check data pid) := by
  cases hlong : (ofBytes .check data pid).isLong with
  | false =>
    obtain ⟨hsize, declared, hmax⟩ := (diagnose_eq_none_iff_of_isShort hlong).1 valid
    have hencode := encodeShort_fields reserved hlong hsize declared
    rw [rebuilt, hlong, if_neg (by decide), makeShort_eq_ok_iff, hencode]
    refine ⟨?_, rfl⟩
    rw [← length_encodeShort, hencode]
    exact hmax
  | true =>
    obtain ⟨hsize, declared, hmax, hnumber, hchecksum⟩ :=
      (diagnose_eq_none_iff_of_isLong hlong).1 valid
    have hencode := encode_fields reserved valid hlong declared
      (checksumDefect_check_eq_none_iff.1 hchecksum)
    have hlen := length_payload_of_isLong hsize hlong
    have hsecond := second_fields valid hlong
    rw [rebuilt, hlong, if_pos rfl, makeLong_eq_ok_iff, hencode]
    refine ⟨?_, number_le_last valid, Nat.le_trans (Nat.le_of_eq hlen) hmax, rfl⟩
    exact Nat.lt_of_le_of_lt (Nat.le_of_eq (congrArg TableHeader.version hsecond))
      (TableHeader.version_read_lt _)

theorem built_of_rebuilt (h : rebuilt (ofBytes .check data pid) = .ok (ofBytes .check data pid)) :
    Built data pid := by
  rw [rebuilt] at h
  split at h
  · exact .inl ⟨_, _, _, h, rfl⟩
  · exact .inr ⟨_, _, _, _, h, rfl⟩

theorem valid_of_built (built : Built data pid) : (ofBytes .check data pid).defect = none := by
  obtain ⟨h, payload, s, hmake, rfl⟩ | ⟨tableId, isPrivate, payload, s, hmake, rfl⟩ := built
  · obtain ⟨narrow, ordered, fits, rfl⟩ := makeLong_eq_ok_iff.1 hmake
    exact h.diagnose_encode narrow ordered fits
  · obtain ⟨fits, rfl⟩ := makeShort_eq_ok_iff.1 hmake
    exact diagnose_encodeShort fits

end Rebuilt

/-- The sections that are made are valid and read as what they were made from, and apart from
reserved bits every valid section is made, from what it is read as. -/
theorem made_and_read (pid : Pid) :
    (∀ h payload, h.version < 32 → h.number ≤ h.last → payload.length ≤ 4084 →
      ∃ s, makeLong h payload pid = .ok s ∧ s.pid = pid ∧ s.ReadsLong h payload) ∧
    (∀ tableId isPrivate payload, payload.length ≤ 4093 →
      ∃ s, makeShort tableId isPrivate payload pid = .ok s ∧ s.pid = pid ∧
        s.ReadsShort tableId isPrivate payload) ∧
    ∀ data, ReservedSet data →
      ((ofBytes .check data pid).isValid = true ↔ Built data pid) ∧
      (Built data pid ↔
        rebuilt (ofBytes .check data pid) = .ok (ofBytes .check data pid)) := by
  refine ⟨?_, ?_, ?_⟩
  · intro h payload narrow ordered fits
    have hfits : minLongSize + payload.length ≤ maxSize := Nat.add_le_add_left fits 12
    exact ⟨_, makeLong_eq_ok_iff.2 ⟨narrow, ordered, hfits, rfl⟩, rfl,
      readsLong_encode narrow ordered hfits pid⟩
  · intro tableId isPrivate payload fits
    have hfits : CommonHeader.size + payload.length ≤ maxSize := Nat.add_le_add_left fits 3
    exact ⟨_, makeShort_eq_ok_iff.2 ⟨hfits, rfl⟩, rfl, readsShort_encodeShort hfits pid⟩
  · intro data reserved
    have hvalid : (ofBytes .check data pid).isValid = true ↔
        (ofBytes .check data pid).defect = none := Option.isNone_iff_eq_none
    constructor
    · rw [hvalid]
      exact ⟨fun h ↦ built_of_rebuilt (rebuilt_of_valid reserved h), valid_of_built⟩
    · exact ⟨fun h ↦ rebuilt_of_valid reserved (valid_of_built h), built_of_rebuilt⟩

theorem made_and_read_pair :
    (∃ s, makeLong ⟨0x42, true, 0x1234, 31, .next, 1, 2⟩ [7, 8, 9] .pat = .ok s ∧
      s.pid = .pat ∧ s.ReadsLong ⟨0x42, true, 0x1234, 31, .next, 1, 2⟩ [7, 8, 9]) ∧
    (∃ s, makeShort 0x70 false [7, 8, 9] .pat = .ok s ∧ s.pid = .pat ∧
      s.ReadsShort 0x70 false [7, 8, 9]) ∧
    ((ofBytes .check [0x70, 0x30, 1, 9] .pat).isValid = true ↔ Built [0x70, 0x30, 1, 9] .pat) := by
  obtain ⟨hlong, hshort, hvalid⟩ := made_and_read .pat
  have reserved : ReservedSet [0x70, 0x30, 1, 9] := by
    refine ⟨fun b hb ↦ ?_, by decide⟩
    cases hb
    decide
  exact ⟨hlong ⟨0x42, true, 0x1234, 31, .next, 1, 2⟩ [7, 8, 9] (by decide) (by decide) (by decide),
    hshort 0x70 false [7, 8, 9] (by decide), (hvalid _ reserved).1⟩

end Section
end TransportStream
