import Mathlib.Data.List.Induction
import Mathlib.Data.Nat.Bitwise
import TransportStream.Section.Basic

namespace TransportStream

namespace Bytes

def byteBits (b : UInt8) : List Bool :=
  (List.range 8).map fun i ↦ b.toNat.testBit (7 - i)

def bitList (data : Bytes) : List Bool :=
  data.flatMap byteBits

@[simp] theorem length_byteBits (b : UInt8) : (byteBits b).length = 8 := by
  simp [byteBits]

theorem getD_byteBits (b : UInt8) {i : Nat} (hi : i < 8) :
    (byteBits b).getD i false = b.toNat.testBit (7 - i) := by
  simp [byteBits, hi]

theorem bitList_cons (b : UInt8) (data : Bytes) :
    bitList (b :: data) = byteBits b ++ bitList data := rfl

theorem bitList_append (data more : Bytes) :
    bitList (data ++ more) = bitList data ++ bitList more :=
  List.flatMap_append

theorem length_bitList (data : Bytes) : (bitList data).length = 8 * data.length := by
  induction data with
  | nil => rfl
  | cons b data ih =>
    rw [bitList_cons, List.length_append, ih, length_byteBits, List.length_cons]
    omega

theorem byteBits_injective {b c : UInt8} (h : byteBits b = byteBits c) : b = c := by
  apply eq_of_testBit
  intro i hi
  have hbit := congrArg (List.getD · (7 - i) false) h
  rw [getD_byteBits b (by omega), getD_byteBits c (by omega)] at hbit
  have hsub : 7 - (7 - i) = i := by omega
  rwa [hsub] at hbit

theorem bitList_injective {data more : Bytes} (h : bitList data = bitList more) : data = more := by
  induction data generalizing more with
  | nil =>
    have hlen := congrArg List.length h
    rw [length_bitList, length_bitList, List.length_nil] at hlen
    exact (List.eq_nil_of_length_eq_zero (by omega)).symm
  | cons b data ih =>
    cases more with
    | nil => simp [bitList, byteBits] at h
    | cons c more =>
      rw [bitList_cons, bitList_cons] at h
      obtain ⟨hhead, htail⟩ := List.append_inj h (by simp)
      rw [byteBits_injective hhead, ih htail]

theorem testBit_toNat (data : Bytes) (i : Nat) :
    (toNat data).testBit i =
      (decide (i < 8 * data.length) && (bitList data).getD (8 * data.length - 1 - i) false) := by
  induction data using List.reverseRecOn generalizing i with
  | nil => simp [toNat]
  | append_singleton data b ih =>
    have hb : b.toNat < 2 ^ 8 := b.toNat_lt
    have hsplit : toNat data * 256 + b.toNat = 2 ^ 8 * toNat data + b.toNat := by omega
    have hlen : (data ++ [b]).length = data.length + 1 := List.length_append
    have hlast : bitList [b] = byteBits b := List.append_nil _
    rw [toNat_append_byte, hsplit, Nat.testBit_two_pow_mul_add _ hb, bitList_append, hlast, hlen]
    by_cases hi : i < 8
    · have hpos : 8 * (data.length + 1) - 1 - i = (bitList data).length + (7 - i) := by
        rw [length_bitList]
        omega
      have hsub : 7 - (7 - i) = i := by omega
      rw [if_pos hi, hpos, List.getD_append_right _ _ _ _ (Nat.le_add_right _ _),
        Nat.add_sub_cancel_left, getD_byteBits b (by omega), hsub, decide_eq_true (by omega),
        Bool.true_and]
    · rw [if_neg hi, ih]
      by_cases hd : i - 8 < 8 * data.length
      · have hpos : 8 * (data.length + 1) - 1 - i = 8 * data.length - 1 - (i - 8) := by omega
        rw [decide_eq_true hd, decide_eq_true (by omega), hpos,
          List.getD_append _ _ _ _ (by rw [length_bitList]; omega)]
      · rw [decide_eq_false hd, decide_eq_false (by omega), Bool.false_and, Bool.false_and]

end Bytes

namespace Checksum

theorem shift_xor (a b : BitVec 32) : shift (a ^^^ b) = shift a ^^^ shift b := by
  have hcancel (x y : BitVec 32) : x ^^^ polynomial ^^^ (y ^^^ polynomial) = x ^^^ y := by
    rw [BitVec.xor_assoc, BitVec.xor_comm y, ← BitVec.xor_assoc polynomial, BitVec.xor_self,
      BitVec.zero_xor]
  unfold shift
  rw [BitVec.msb_xor, BitVec.shiftLeft_xor_distrib]
  cases a.msb <;> cases b.msb
  · rfl
  · exact BitVec.xor_assoc ..
  · show a <<< 1 ^^^ b <<< 1 ^^^ polynomial = a <<< 1 ^^^ polynomial ^^^ b <<< 1
    rw [BitVec.xor_assoc, BitVec.xor_comm (b <<< 1), ← BitVec.xor_assoc]
  · exact (hcancel _ _).symm

theorem eq_zero_of_shift {r : BitVec 32} (h : shift r = 0) : r = 0 := by
  unfold shift at h
  cases hr : r.msb with
  | true =>
    -- the polynomial has a constant term, and the shifted register has none
    rw [hr, if_pos rfl] at h
    have hlow := congrArg (·.getLsbD 0) h
    simp [polynomial] at hlow
  | false =>
    rw [hr] at h
    apply BitVec.eq_of_getLsbD_eq
    intro i hi
    by_cases htop : i = 31
    · rw [htop]
      simpa [BitVec.msb_eq_getLsbD_last] using hr
    · have hbit := congrArg (·.getLsbD (i + 1)) h
      have hlt : i + 1 < 32 := by omega
      simpa [hlt, BitVec.getLsbD_eq_getElem hi] using hbit

theorem shift_injective {a b : BitVec 32} (h : shift a = shift b) : a = b := by
  have hsum : shift (a ^^^ b) = 0 := by
    rw [shift_xor, h]
    exact BitVec.xor_self
  exact BitVec.xor_eq_zero_iff.1 (eq_zero_of_shift hsum)

theorem shifts_injective {n : Nat} {a b : BitVec 32} (h : shifts n a = shifts n b) : a = b := by
  induction n generalizing a b with
  | zero => exact h
  | succ n ih => exact shift_injective (ih h)

theorem shifts_zero (n : Nat) : shifts n 0 = 0 := by
  induction n with
  | zero => rfl
  | succ n ih => exact ih

def topBit (b : Bool) : BitVec 32 :=
  if b then BitVec.intMin 32 else 0

def word : List Bool → BitVec 32
  | [] => 0
  | b :: rest => topBit b ^^^ (word rest >>> 1)

def absorbBit (r : BitVec 32) (b : Bool) : BitVec 32 :=
  shift (r ^^^ topBit b)

theorem getLsbD_word (bits : List Bool) (i : Nat) :
    (word bits).getLsbD i = (decide (i < 32) && bits.getD (31 - i) false) := by
  induction bits generalizing i with
  | nil => simp [word]
  | cons b rest ih =>
    have htop : (topBit b).getLsbD i = (decide (i = 31) && b) := by
      cases b <;> simp [topBit, BitVec.getLsbD_intMin]
    rw [word, BitVec.getLsbD_xor, BitVec.getLsbD_ushiftRight, ih, htop]
    by_cases hi : i < 31
    · have hpos : 31 - i = 31 - (1 + i) + 1 := by omega
      rw [hpos, List.getD_cons_succ, decide_eq_false (by omega), decide_eq_true (by omega),
        decide_eq_true (by omega)]
      simp
    · rcases Nat.eq_or_lt_of_le (Nat.not_lt.1 hi) with rfl | hgt
      · simp
      · rw [decide_eq_false (by omega), decide_eq_false (by omega), decide_eq_false (by omega)]
        simp

theorem word_injective {xs ys : List Bool} (hlen : xs.length = ys.length) (hle : xs.length ≤ 32)
    (h : word xs = word ys) : xs = ys := by
  apply List.ext_getElem hlen
  intro i hi hi'
  have hbit := congrArg (·.getLsbD (31 - i)) h
  have hsub : 31 - (31 - i) = i := by omega
  simp only [getLsbD_word, hsub, decide_eq_true (show 31 - i < 32 by omega), Bool.true_and,
    List.getD_eq_getElem _ _ hi, List.getD_eq_getElem _ _ hi'] at hbit
  exact hbit

theorem shifts_xor_word {bits : List Bool} (hle : bits.length ≤ 32) (r : BitVec 32) :
    shifts bits.length (r ^^^ word bits) = bits.foldl absorbBit r := by
  induction bits generalizing r with
  | nil => exact BitVec.xor_zero
  | cons b rest ih =>
    rw [List.length_cons] at hle
    -- The last bit of the word is free, so that a step moves the other bits up and no more.
    have hrest : shift (word rest >>> 1) = word rest := by
      have hmsb : (word rest >>> 1).msb = false := by
        simp [BitVec.msb_eq_getLsbD_last]
      rw [shift, hmsb]
      apply BitVec.eq_of_getLsbD_eq
      intro i hi
      rcases Nat.eq_zero_or_pos i with rfl | hpos
      · rw [getLsbD_word, List.getD_eq_default _ _ (by omega)]
        simp
      · simp [hi, show 1 + (i - 1) = i by omega, show ¬ i < 1 by omega]
    rw [List.length_cons, shifts, word, ← BitVec.xor_assoc, shift_xor, hrest, List.foldl_cons]
    exact ih (by omega) _

theorem absorbBit_injective {b : Bool} {r s : BitVec 32} (h : absorbBit r b = absorbBit s b) :
    r = s :=
  (BitVec.xor_left_inj _).1 (shift_injective h)

theorem foldl_absorbBit_injective {bits : List Bool} {r s : BitVec 32}
    (h : bits.foldl absorbBit r = bits.foldl absorbBit s) : r = s := by
  induction bits generalizing r s with
  | nil => exact h
  | cons b rest ih => exact absorbBit_injective (ih h)

theorem word_byteBits (b : UInt8) :
    word (Bytes.byteBits b) = b.toBitVec.setWidth 32 <<< 24 := by
  apply BitVec.eq_of_getLsbD_eq
  intro i hi
  rw [getLsbD_word, decide_eq_true hi, Bool.true_and]
  by_cases h : i < 24
  · rw [List.getD_eq_default _ _ (by rw [Bytes.length_byteBits]; omega)]
    simp [h]
  · have hsub : 7 - (31 - i) = i - 24 := by omega
    rw [Bytes.getD_byteBits b (by omega), hsub]
    simp [h, hi]
    rfl

theorem foldl_absorb (data : Bytes) (r : BitVec 32) :
    data.foldl absorb r = (Bytes.bitList data).foldl absorbBit r := by
  induction data generalizing r with
  | nil => rfl
  | cons b data ih =>
    have hbyte : absorb r b = (Bytes.byteBits b).foldl absorbBit r := by
      rw [absorb, ← word_byteBits, ← shifts_xor_word (by simp), Bytes.length_byteBits]
    rw [List.foldl_cons, ih, hbyte, Bytes.bitList_cons, List.foldl_append]

theorem word_bitList {data : Bytes} (h : data.length = 4) :
    word (Bytes.bitList data) = BitVec.ofNat 32 (Bytes.toNat data) := by
  apply BitVec.eq_of_getLsbD_eq
  intro i hi
  rw [getLsbD_word, BitVec.getLsbD_ofNat, Bytes.testBit_toNat, h, decide_eq_true hi]
  rfl

/-- Data and the checksum after it leave the register empty, and no other four bytes after the data
do. -/
theorem ofBytes_append_eq_zero_iff {content sum : Bytes} (h : sum.length = 4) :
    ofBytes (content ++ sum) = 0 ↔ BitVec.ofNat 32 (Bytes.toNat sum) = ofBytes content := by
  have hlen : (Bytes.bitList sum).length = 32 := by rw [Bytes.length_bitList, h]
  rw [ofBytes_append, foldl_absorb, ← shifts_xor_word (by rw [hlen]), hlen, word_bitList h]
  constructor
  · intro hzero
    exact (BitVec.xor_eq_zero_iff.1 (shifts_injective (hzero.trans (shifts_zero 32).symm))).symm
  · intro hsum
    rw [hsum, BitVec.xor_self]
    exact shifts_zero 32

end Checksum

theorem Section.storedChecksum_eq_iff {data : Bytes} (h : checksumSize ≤ data.length) :
    storedChecksum data = computedChecksum data ↔ Checksum.ofBytes data = 0 := by
  have hlen : (data.drop (data.length - checksumSize)).length = 4 := by
    rw [List.length_drop]
    exact Nat.sub_sub_self h
  rw [storedChecksum, computedChecksum, ← Checksum.ofBytes_append_eq_zero_iff hlen,
    List.take_append_drop]

end TransportStream
